import Paydesk.Chain.Transaction
import Paydesk.Order.Table

namespace Paydesk.Payjoin

open Chain

/-- A fallback for which a proposal was handed out, the coins that the
proposal shows, and when that was, in milliseconds. -/
structure Record where
  fallback : Transaction
  proposed : Bytes
  coins : List OutPoint
  time : Nat
deriving DecidableEq, Repr

def Record.id (r : Record) : Bytes := r.fallback.txid

def Record.spends (r : Record) (o : OutPoint) : Bool := r.fallback.outPoints.contains o

def Record.isStale (r : Record) (now timeout : Nat) : Bool := timeout ≤ now - r.time

/-- Why a fallback is not taken: it was taken before, or another one that
spends the same output was. -/
inductive Conflict
  | replay
  | spent (input : OutPoint)
deriving DecidableEq, Repr

/-- The payjoins of a wallet that are under way, the oldest one first. -/
abbrev Records := List Record

namespace Records

def find? (records : Records) (id : Bytes) : Option Record := List.find? (·.id == id) records

/-- Adds a record, unless there is one for the same fallback. -/
def add? (records : Records) (r : Record) : Option Records :=
  if (records.find? r.id).isSome then none else some (records ++ [r])

/-- What stands in the way of a fallback. Of several inputs that are spent the
first one counts. -/
def conflict? (records : Records) (tx : Transaction) : Option Conflict :=
  if (records.find? tx.txid).isSome then some .replay
  else (tx.outPoints.find? fun o => records.any (·.spends o)).map .spent

/-- The coins that some sender has seen. -/
def exposed (records : Records) : List OutPoint := (records.flatMap Record.coins).eraseDups

/-- The records that fulfil a condition, and the others. -/
def takeIf (p : Record → Bool) (records : Records) : List Record × Records :=
  (records.filter p, records.filter (!p ·))

def takeStale (records : Records) (now timeout : Nat) : List Record × Records :=
  takeIf (·.isStale now timeout) records

def remove (records : Records) (id : Bytes) : Option Record × Records :=
  (records.find? id, records.filter (·.id != id))

end Records

/-- The records of every wallet that was asked for. -/
abbrev Wallets := Table String Records

namespace Wallets

def records (wallets : Wallets) (wallet : String) : Records := (wallets.find? wallet).getD []

def set (wallets : Wallets) (wallet : String) (records : Records) : Wallets :=
  wallets.insert wallet records

/-- A wallet that is asked for is there from then on. -/
def touch (wallets : Wallets) (wallet : String) : Wallets :=
  wallets.set wallet (wallets.records wallet)

end Wallets

end Paydesk.Payjoin

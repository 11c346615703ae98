import Paydesk.Numbers
import Paydesk.Payjoin.Locks
import Paydesk.Wallet.Coin

namespace Paydesk.Payjoin

open Chain Wallet

/-- A secret of 32 bytes that decides the order of coins. -/
abbrev Blind := Bytes

namespace Blind

def apply (blind : Blind) (txid : Bytes) : Bytes := txid.zipWith (· ^^^ ·) blind

/-- Larger blinded identifiers come first, then smaller output indices. -/
def compare (blind : Blind) (a b : OutPoint) : Ordering :=
  (Ord.compare (blind.apply b.txid) (blind.apply a.txid)).then (Ord.compare a.vout b.vout)

/-- Sorts coins. Coins with the same outpoint stay in order. -/
def sort (blind : Blind) (coins : List Coin) : List Coin :=
  coins.mergeSort fun a b => blind.compare a.outPoint b.outPoint != .gt

end Blind

namespace Selection

/-- How many coins are tried at most. -/
def maxAttempts : Nat := 30

/-- How trying coins one after another ends: with one that was free, with all
tried and some attempts left, or without attempts left. -/
inductive Search
  | found (coin : Coin) (locks : Locks)
  | exhausted (attempts : Nat)
  | stopped
deriving DecidableEq, Repr

def search : Nat → Locks → List Coin → Search
  | attempts, _, [] => .exhausted attempts
  | 0, _, _ :: _ => .stopped
  | attempts + 1, locks, coin :: coins =>
      match locks.lockCoin? coin.outPoint with
      | some locks => .found coin locks
      | none => search attempts locks coins

/-- Whether a coin would tell which output is the payment: it is worth more
than one of the other outputs, or than all outputs together. -/
def revealsPayment (payment : Nat) (others : List Nat) (coin : Coin) : Bool :=
  others.any (· < coin.output.value) || payment + total others < coin.output.value

/-- Locks the first free coin, preferring those that do not tell which output
is the payment. -/
def select? (candidates : List Coin) (locks : Locks) (payment : Nat) (others : List Nat) :
    Option (Coin × Locks) :=
  let discreet := candidates.filter fun coin => !revealsPayment payment others coin
  match search maxAttempts locks discreet with
  | .found coin locks => some (coin, locks)
  | .stopped => none
  | .exhausted attempts =>
      let tried := discreet.map Coin.outPoint
      match search attempts locks (candidates.filter fun coin => !tried.contains coin.outPoint) with
      | .found coin locks => some (coin, locks)
      | _ => none

end Selection

end Paydesk.Payjoin

import Paydesk.Payjoin.Call
import Paydesk.Payjoin.Submission

/-!
Clearing up after proposals. Wallet by wallet, records of which an input was
spent are dropped, and fallbacks that have waited too long are relayed. Between
two calls to the outside a sweep runs without interruption.
-/

namespace Paydesk.Payjoin

open Chain

/-- How far a sweep has come: the wallet that it is in, the wallets to come, and
the fallbacks that it relayed. -/
structure Progress where
  wallet : String
  wallets : List String
  relayed : List Bytes
deriving DecidableEq, Repr

namespace Sweep

/-- How long a proposal may go unused, in milliseconds, until a sweep takes it
up. -/
def defaultTimeout : Nat := 300000

/-- The pause between two sweeps, in milliseconds. -/
def defaultInterval : Nat := 60000

/-- What a sweep waits for. -/
inductive Phase
  | checking (p : Progress) (spent : List Bytes) (record : Record) (input : OutPoint)
      (inputs : List OutPoint) (records : List Record)
  | relaying (p : Progress) (record : Record) (records : List Record)
deriving DecidableEq, Repr

def Phase.call : Phase → Call
  | .checking _ _ _ input _ _ => .isSpent input
  | .relaying _ record _ => .broadcast record.fallback false

/-- How a sweep goes on. In the end it tells which fallbacks it relayed. -/
inductive Step
  | wait (phase : Phase)
  | finished (relayed : List Bytes)
deriving DecidableEq, Repr

/-- Frees what a record held. -/
def release (desk : Desk) (r : Record) : Desk :=
  { desk with locks := (desk.locks.unlockInputs r.fallback.outPoints).unlockCoins r.coins }

/-- Begins with the first record that has inputs. -/
def check? (p : Progress) (spent : List Bytes) : List Record → Option Phase
  | [] => none
  | r :: records =>
      match r.fallback.outPoints with
      | [] => check? p spent records
      | input :: inputs => some (.checking p spent r input inputs records)

/-- Drops the records of which an input was spent, and takes the stale ones. -/
def settle (timeout now : Nat) (p : Progress) (spent : List Bytes) :
    StateM Desk (Option Phase) := do
  let desk ← get
  let (settled, records) := (desk.wallets.records p.wallet).takeIf fun r => spent.contains r.id
  let (stale, records) := records.takeStale now timeout
  set (settled.foldl release { desk with wallets := desk.wallets.set p.wallet records })
  match stale with
  | [] => return none
  | r :: stale => return some (.relaying p r stale)

/-- Goes through wallets up to the first call. -/
def walk (timeout now : Nat) (relayed : List Bytes) : List String → StateM Desk Step
  | [] => return .finished relayed
  | wallet :: wallets => do
      let p : Progress := ⟨wallet, wallets, relayed⟩
      match check? p [] ((← get).wallets.records wallet) with
      | some phase => return .wait phase
      | none =>
          match ← settle timeout now p [] with
          | some phase => return .wait phase
          | none => walk timeout now relayed wallets

def start (timeout now : Nat) : StateM Desk Step := do
  walk timeout now [] (← get).wallets.keys

/-- Goes on with the records that are left to check. -/
def next (timeout now : Nat) (p : Progress) (spent : List Bytes) (records : List Record) :
    StateM Desk Step := do
  match check? p spent records with
  | some phase => return .wait phase
  | none =>
      match ← settle timeout now p spent with
      | some phase => return .wait phase
      | none => walk timeout now p.relayed p.wallets

/-- An input whose state cannot be told counts as unspent. -/
def isSpent : Except String Bool → Bool
  | .ok spent => spent
  | .error _ => false

/-- Goes on with what came back from the call of a phase. How a relay ends makes
no difference. -/
def resume (timeout now : Nat) (phase : Phase) (outcome : phase.call.Outcome) :
    StateM Desk Step :=
  match phase, outcome with
  | .checking p spent record _ inputs records, outcome =>
      if isSpent outcome then next timeout now p (record.id :: spent) records
      else
        match inputs with
        | [] => next timeout now p spent records
        | input :: inputs => return .wait (.checking p spent record input inputs records)
  | .relaying p record records, _ => do
      modify (release · record)
      let p := { p with relayed := p.relayed ++ [record.id] }
      match records with
      | [] => walk timeout now p.relayed p.wallets
      | record :: records => return .wait (.relaying p record records)

end Sweep

end Paydesk.Payjoin

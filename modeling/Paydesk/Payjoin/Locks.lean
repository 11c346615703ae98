import Paydesk.Chain.Transaction

namespace Paydesk.Payjoin

open Chain

/-- The outputs in use: coins of the receiver, and inputs of senders. -/
structure Locks where
  coins : List OutPoint
  inputs : List OutPoint
deriving DecidableEq, Repr

namespace Locks

def empty : Locks := ⟨[], []⟩

def isLocked (locks : Locks) (coin : OutPoint) : Bool := locks.coins.contains coin

/-- Takes a coin that is free. -/
def lockCoin? (locks : Locks) (coin : OutPoint) : Option Locks :=
  if locks.isLocked coin then none else some { locks with coins := coin :: locks.coins }

def unlockCoins (locks : Locks) (coins : List OutPoint) : Locks :=
  { locks with coins := locks.coins.filter (!coins.contains ·) }

/-- Takes all inputs, if they differ from one another and all are free. -/
def lockInputs? (locks : Locks) (inputs : List OutPoint) : Option Locks :=
  if inputs.Nodup ∧ ∀ input ∈ inputs, input ∉ locks.inputs then
    some { locks with inputs := inputs ++ locks.inputs }
  else none

def unlockInputs (locks : Locks) (inputs : List OutPoint) : Locks :=
  { locks with inputs := locks.inputs.filter (!inputs.contains ·) }

end Locks

end Paydesk.Payjoin

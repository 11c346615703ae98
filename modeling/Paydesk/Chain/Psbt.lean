import Paydesk.Chain.Transaction
import Paydesk.Numbers
import Paydesk.Order.Table

/-!
Transactions on their way to being signed, with what is known about each input
and output.
-/

namespace Paydesk.Chain

/-- Keys and values that are carried along unread. -/
abbrev Entries := Table Bytes Bytes

/-- What is known about an input: the output that it spends, also as part of
its whole transaction, and what proves the right to spend it. -/
structure PsbtInput where
  previousTx : Option Transaction
  previousOutput : Option TxOut
  redeemScript : Option Script
  finalScript : Option Script
  finalWitness : Option (List Bytes)
  others : Entries
deriving DecidableEq, Repr

def PsbtInput.empty : PsbtInput := ⟨none, none, none, none, none, []⟩

/-- A transaction without signatures, and a map for the whole, for each input
and for each output. -/
structure Psbt where
  tx : Transaction
  globals : Entries
  inputs : List PsbtInput
  outputs : List Entries
deriving DecidableEq, Repr

namespace PsbtInput

/-- The output that an input spends. The one given on its own is preferred. -/
def previousOutput? (i : PsbtInput) (vout : Nat) : Option TxOut :=
  i.previousOutput <|> i.previousTx.bind fun tx => tx.outputs[vout]?

def isFinal (i : PsbtInput) : Bool :=
  i.finalScript.any (!·.isEmpty) || i.finalWitness.any (!·.isEmpty)

end PsbtInput

namespace Psbt

/-- The transaction with nothing known about its inputs and outputs. -/
def ofTransaction (tx : Transaction) : Psbt :=
  ⟨tx, [], tx.inputs.map fun _ => .empty, tx.outputs.map fun _ => []⟩

/-- The inputs of the transaction, each with what is known about it. -/
def inputPairs (p : Psbt) : List (TxIn × PsbtInput) := p.tx.inputs.zip p.inputs

/-- The outputs that are spent, if all of them are known. -/
def previousOutputs? (p : Psbt) : Option (List TxOut) :=
  p.inputPairs.mapM fun (i, known) => known.previousOutput? i.previous.vout

/-- What the inputs are worth above the outputs. Each sum has to stay below
`2 ^ 64`. -/
def fee? (p : Psbt) : Option Nat := do
  let spent ← p.previousOutputs?
  let inputs := total (spent.map TxOut.value)
  let outputs := total (p.tx.outputs.map TxOut.value)
  if inputs < limit64 ∧ outputs < limit64 ∧ outputs ≤ inputs then some (inputs - outputs) else none

/-- The transaction with the final scripts and witnesses put in. -/
def extract (p : Psbt) : Transaction :=
  { p.tx with
    inputs := p.inputPairs.map fun (i, known) =>
      { i with
        signatureScript := known.finalScript.getD []
        witness := known.finalWitness.getD [] } }

def isFinal (p : Psbt) : Bool := p.inputs.all PsbtInput.isFinal

/-- Whether it says from which keys of a wallet something derives. -/
def hasKeyOrigins (p : Psbt) : Bool :=
  p.globals.keys.any (·.head? == some 0x01) ||
    p.inputs.any (fun i => i.others.keys.any fun k => k.head? == some 0x06 || k.head? == some 0x16) ||
    p.outputs.any (fun o => o.keys.any fun k => k.head? == some 0x02 || k.head? == some 0x07)

end Psbt

end Paydesk.Chain

import Paydesk.Chain.Transaction
import Paydesk.Numbers

/-!
Weights known before the signatures are, and the least amounts worth an output.
-/

namespace Paydesk.Chain

/-- What the data of an input will weigh: the bytes of its script and of its
witness, both with their counts; zero for the second where there is none. -/
structure InputWeight where
  scriptSize : Nat
  witnessSize : Nat
deriving DecidableEq, Repr

namespace InputWeight

def ofLengths (script : Nat) (witness : List Nat) : InputWeight :=
  ⟨script + countSize script,
    if witness.isEmpty then 0
    else total (witness.map fun n => n + countSize n) + countSize witness.length⟩

def weight (w : InputWeight) : Nat := w.scriptSize * 4 + w.witnessSize

/-- The weight of what every input has: an outpoint and a sequence number. -/
def fixedPart : Nat := 40 * 4

end InputWeight

/-- The weight of a transaction with these inputs and with outputs whose scripts
have these lengths. With a witness anywhere, two bytes mark its form and every
input without one takes a byte to say so. -/
def predictWeight (inputs : List InputWeight) (scripts : List Nat) : Nat :=
  let inputWeight := total (inputs.map fun w => w.weight + InputWeight.fixedPart)
  let outputSize := total (scripts.map fun n => 8 + n + countSize n)
  let fixed := 4 + countSize inputs.length + countSize scripts.length + outputSize + 4
  let witnesses := (inputs.filter fun w => w.witnessSize ≠ 0).length
  let marker := if witnesses = 0 then 0 else inputs.length - witnesses + 2
  fixed * 4 + inputWeight + marker

/-- The least value of an output that is worth the fee for spending it, at
three satoshis a byte. -/
def dustLimit (script : Script) : Nat :=
  let spending :=
    if Script.isDataCarrier script then 0
    else if (Script.witnessProgram? script).isSome then 32 + 4 + 1 + 107 / 4 + 4
    else 32 + 4 + 1 + 107 + 4
  if Script.isDataCarrier script then 0
  else 3 * (spending + 8 + (encodeBlob script).length)

end Paydesk.Chain

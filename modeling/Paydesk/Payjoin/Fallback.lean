import Paydesk.Chain.Amount
import Paydesk.Numbers
import Paydesk.Payjoin.Reply
import Paydesk.Wallet.ScriptType

/-!
A fallback is the signed payment that a sender hands in. It is broadcast as it is
if nothing comes of the payjoin. Here stands what a fallback has to fulfil
before anything is done with it.
-/

namespace Paydesk.Payjoin.Fallback

open Chain Wallet

inductive Fault
  | unsupportedInputs
  | inputCounts (known inputs : Nat)
  | outputCounts (known outputs : Nat)
  | noOutputs
  | duplicateInput (input : OutPoint)
  | valueOutOfRange
  | negativeFee (inputs outputs : Nat)
  | missingUtxo (index : Nat)
  | outOfBounds (index : Nat)
  | unequalTxid (index : Nat)
  | unequalOutput (index : Nat)
  | unknownFee
  | leakingData
  | notFinal
deriving DecidableEq, Repr

namespace Fault

def code : Fault → ErrorCode
  | .unsupportedInputs => .unsupportedInputs
  | .inputCounts .. | .outputCounts .. | .noOutputs | .duplicateInput _ | .valueOutOfRange
  | .negativeFee .. => .insanePsbt
  | .missingUtxo _ | .outOfBounds _ | .unequalTxid _ | .unequalOutput _ | .unknownFee =>
      .needUtxoInformation
  | .leakingData => .leakingData
  | .notFinal => .psbtNotFinalized

def message : Fault → String
  | .unsupportedInputs =>
      "Payjoin only supports P2WPKH, P2SH-P2WPKH and P2PKH inputs of a single type"
  | .inputCounts known inputs =>
      s!"The number of PSBT inputs ({known}) doesn't equal to the number of unsigned " ++
        s!"transaction inputs ({inputs})"
  | .outputCounts known outputs =>
      s!"The number of PSBT outputs ({known}) doesn't equal to the number of unsigned " ++
        s!"transaction outputs ({outputs})"
  | .noOutputs => "the transaction has no outputs"
  | .duplicateInput input => input.render ++ " is spent twice"
  | .valueOutOfRange => "the amounts exceed the money supply"
  | .negativeFee inputs outputs =>
      s!"outputs ({Amount.render outputs}) exceed inputs ({Amount.render inputs})"
  | .missingUtxo index | .outOfBounds index =>
      s!"invalid PSBT input #{index}: invalid previous transaction output"
  | .unequalTxid index =>
      s!"invalid PSBT input #{index}: transaction ID of previous transaction doesn't match one " ++
        "specified in input spending it"
  | .unequalOutput index =>
      s!"invalid PSBT input #{index}: transaction output provided in SegWit UTXO field doesn't " ++
        "match the one in non-SegWit UTXO field"
  | .unknownFee => "Cannot compute the fee"
  | .leakingData => "Keypath information should not be included in the original PSBT"
  | .notFinal => "The PSBT should be finalized"

def failure (fault : Fault) : Failure := .reject fault.code fault.message

end Fault

/-- The one type that all inputs have. -/
def inputType? (p : Psbt) : Option ScriptType :=
  match p.inputPairs.map fun (input, known) => ScriptType.ofInput? input known with
  | some first :: others => if others.all (· == some first) then some first else none
  | _ => none

/-- The first outpoint that an earlier input spends too. -/
def duplicate? (seen : List OutPoint) : List OutPoint → Option OutPoint
  | [] => none
  | o :: os => if seen.contains o then some o else duplicate? (o :: seen) os

def checkCounts (p : Psbt) : Except Fault Unit :=
  if p.inputs.length ≠ p.tx.inputs.length then
    .error (.inputCounts p.inputs.length p.tx.inputs.length)
  else if p.outputs.length ≠ p.tx.outputs.length then
    .error (.outputCounts p.outputs.length p.tx.outputs.length)
  else .ok ()

/-- The outputs that are known to be spent. -/
def knownOutputs (p : Psbt) : List TxOut :=
  p.inputPairs.filterMap fun (input, known) => known.previousOutput? input.previous.vout

def checkSanity (p : Psbt) : Except Fault Unit := do
  if p.tx.outputs.isEmpty then .error .noOutputs
  if let some input := duplicate? [] p.tx.outPoints then .error (.duplicateInput input)
  let known := knownOutputs p
  let inputs := total (known.map TxOut.value)
  if Amount.maxMoney < inputs then .error .valueOutOfRange
  let outputs := total (p.tx.outputs.map TxOut.value)
  if Amount.maxMoney < outputs then .error .valueOutOfRange
  if known.length = p.inputPairs.length ∧ inputs < outputs then
    .error (.negativeFee inputs outputs)

/-- The output spent, as it is given on its own and in its transaction, has to
be the one that the input names. -/
def checkUtxo (index : Nat) (input : TxIn) (known : PsbtInput) : Except Fault Unit :=
  match known.previousTx, known.previousOutput with
  | none, none => .error (.missingUtxo index)
  | none, some _ => .ok ()
  | some tx, output =>
      if tx.txid ≠ input.previous.txid then .error (.unequalTxid index)
      else
        match tx.outputs[input.previous.vout]?, output with
        | none, _ => .error (.outOfBounds index)
        | some _, none => .ok ()
        | some a, some b => if a = b then .ok () else .error (.unequalOutput index)

def checkUtxosFrom (index : Nat) : List (TxIn × PsbtInput) → Except Fault Unit
  | [] => .ok ()
  | (input, known) :: pairs => do
      checkUtxo index input known
      checkUtxosFrom (index + 1) pairs

/-- Everything that is asked of a fallback, in order. Gives the type of its
inputs. -/
def check (p : Psbt) : Except Fault ScriptType := do
  let some type := inputType? p | .error .unsupportedInputs
  checkCounts p
  checkSanity p
  checkUtxosFrom 0 p.inputPairs
  if p.fee?.isNone then .error .unknownFee
  if p.hasKeyOrigins then .error .leakingData
  if !p.isFinal then .error .notFinal
  return type

end Paydesk.Payjoin.Fallback

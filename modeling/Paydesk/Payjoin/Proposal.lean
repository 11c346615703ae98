import Paydesk.Chain.Psbt
import Paydesk.Numbers
import Paydesk.Order.Shuffle
import Paydesk.Payjoin.Params
import Paydesk.Wallet.Coin

/-!
Making a proposal of a fallback: the receiver's coins are added, the payment
grows by what they are worth, everything is shuffled, and outputs are lowered
until the fee rate of the fallback is reached again.
-/

namespace Paydesk.Payjoin

open Chain Wallet

/-- Whom an output of a proposal is for: the invoice, the receiver once more, or
whomever the fallback has at an index. -/
inductive OutputRole
  | payment
  | decoyChange
  | sender (index : Nat)
deriving DecidableEq, Repr

namespace OutputRole

def isReceiver : OutputRole → Bool
  | .sender _ => false
  | _ => true

def isSender (role : OutputRole) : Bool := !role.isReceiver

end OutputRole

/-- An input on its way into a proposal, with the coin if it is the receiver's. -/
structure DraftInput where
  input : TxIn
  weight : InputWeight
  coin : Option Coin
deriving DecidableEq, Repr

/-- A proposal before the receiver signs it. The inputs of the sender have no
data any more, so weights and the fee are kept beside it. -/
structure Draft where
  psbt : Psbt
  roles : List OutputRole
  contributed : List (Nat × Coin)
  inputWeights : List InputWeight
  fee : Nat
deriving DecidableEq, Repr

inductive ProposalError
  | missingUtxo
  | noInputs
  | missingPayment
  | notEnoughMoney (feeRate floor : Nat)
  | overflow
deriving DecidableEq, Repr

namespace ProposalError

def message : ProposalError → String
  | .missingUtxo => "the original is missing UTXO information"
  | .noInputs => "the original has no inputs"
  | .missingPayment => "the payment output does not exist"
  | .notEnoughMoney feeRate floor =>
      s!"the proposal fee rate {feeRate} would fall below {floor}"
  | .overflow => "the amounts are out of range"

end ProposalError

namespace Draft

def predictedWeight (d : Draft) : Nat :=
  predictWeight d.inputWeights (d.psbt.tx.outputs.map (·.script.length))

/-- The weight of an input, known from its final script and witness. -/
def finalWeight (input : TxIn) (known : PsbtInput) : InputWeight :=
  let script := known.finalScript.getD input.signatureScript
  let witness := match known.finalWitness with
    | some (item :: items) => item :: items
    | _ => input.witness
  .ofLengths script.length (witness.map List.length)

/-- Rounds a value down to a power of ten, at most the given one and above a
thousand; the more digits it keeps, the rarer. -/
def roundDecoy : Nat → Nat → Words → Nat × Words
  | 0, value, ws => (value, ws)
  | e + 1, value, ws =>
      if 1000 < tenTo (e + 1) then
        let (finer, ws) := ws.flip
        if finer then roundDecoy e value ws else (value / tenTo (e + 1) * tenTo (e + 1), ws)
      else (value, ws)

/-- The value of an output that looks like change: a random part of what was
contributed, but never dust. -/
def decoyValue (contributed : Nat) (script : Script) (ws : Words) : Nat × Words :=
  let (value, ws) :=
    if contributed = 0 then (0, ws)
    else
      let (w, ws) := ws.next
      (w % contributed, ws)
  let (value, ws) :=
    if value = 0 then (value, ws)
    else roundDecoy ((Nat.toDigits 10 value).length - 1) value ws
  (max value (dustLimit script), ws)

/-- A lone payment is split, if there is a script to pay to and what is split
off is less than what was contributed. -/
def addDecoy (contributed : Nat) (script : Option Script) (outputs : List (OutputRole × TxOut))
    (ws : Words) : List (OutputRole × TxOut) × Words :=
  match outputs, script with
  | [(role, payment)], some script =>
      let (decoy, ws) := decoyValue contributed script ws
      if decoy < contributed then
        ([(role, { payment with value := payment.value - decoy }), (.decoyChange, ⟨decoy, script⟩)],
          ws)
      else (outputs, ws)
  | _, _ => (outputs, ws)

/-- The outputs of the fallback with their roles. The payment grows. -/
def growPayment (outputs : List TxOut) (payment contributed : Nat) : List (OutputRole × TxOut) :=
  outputs.mapIdx fun i output =>
    if i = payment then (.payment, { output with value := output.value + contributed })
    else (.sender i, output)

/-- A coin becomes an input with the sequence number of some input of the
sender. -/
def coinInput (type : ScriptType) (sequence : Nat) (coin : Coin) : DraftInput :=
  ⟨⟨coin.outPoint, [], sequence, []⟩, type.inputWeight, some coin⟩

def ofInputs (fallback : Psbt) (fee : Nat) (inputs : List DraftInput)
    (outputs : List (OutputRole × TxOut)) : Draft :=
  let tx := { fallback.tx with
    inputs := inputs.map (·.input.bare)
    outputs := outputs.map (·.2) }
  { psbt := { Psbt.ofTransaction tx with
      inputs := inputs.map fun i =>
        { PsbtInput.empty with previousOutput := i.coin.map Coin.output } }
    roles := outputs.map (·.1)
    contributed := (inputs.mapIdx fun i input => input.coin.map fun coin => (i, coin)).filterMap id
    inputWeights := inputs.map DraftInput.weight
    fee }

/-- Adds coins to a fallback. -/
def contribute (fallback : Psbt) (payment : Nat) (coins : List Coin) (type : ScriptType)
    (decoyScript : Option Script) (ws : Words) : Except ProposalError (Draft × Words) := do
  let some fee := fallback.fee? | .error .missingUtxo
  let (sequence, ws) := ws.choose? (fallback.tx.inputs.map TxIn.sequence)
  let some sequence := sequence | .error .noInputs
  let contributed := total (coins.map (·.output.value))
  let some paid := fallback.tx.outputs[payment]? | .error .missingPayment
  if limit64 ≤ paid.value + contributed then .error .overflow
  let inputs := fallback.inputPairs.map fun (input, known) =>
    (⟨input, finalWeight input known, none⟩ : DraftInput)
  let outputs := growPayment fallback.tx.outputs payment contributed
  let (outputs, ws) := addDecoy contributed decoyScript outputs ws
  let (inputs, ws) := ws.shuffle (inputs ++ coins.map (coinInput type sequence))
  let (outputs, ws) := ws.shuffle outputs
  return (ofInputs fallback fee inputs outputs, ws)

/-- The fee that a rate asks for a weight, rounded up. -/
def feeFor (rate weight : Nat) : Nat := (rate * weight + 999) / 1000

/-- The rate that a fee comes to for a weight, rounded down. -/
def feeRateOf (fee weight : Nat) : Nat :=
  if weight = 0 then 0 else min (fee * 1000) (limit64 - 1) / weight

/-- Lowers outputs that are eligible, one after another and none below dust,
until a budget is taken. Gives the outputs and what was taken. -/
def drain (eligible : OutputRole → Bool) : Nat → List (OutputRole × TxOut) → List TxOut × Nat
  | _, [] => ([], 0)
  | budget, (role, output) :: rest =>
      let take := if eligible role then min budget (output.value - dustLimit output.script) else 0
      let (outputs, taken) := drain eligible (budget - take) rest
      ({ output with value := output.value - take } :: outputs, take + taken)

/-- Who adds how much to the fee, and the fee rate that comes of it. -/
structure FeeContribution where
  receiver : Nat
  sender : Nat
  feeRate : Nat
deriving DecidableEq, Repr

/-- What the receiver may give up: as much as the invoice is overpaid, unless
the sender wants the outputs kept. -/
def receiverBudget (due : Int) (params : Params) : Nat :=
  if params.keepOutputs then 0 else (-due).toNat

/-- Whether an output of the sender may be lowered. No two outputs of a draft have one role,
so where the sender names an output there is at most one. -/
def senderEligible (params : Params) : OutputRole → Bool :=
  match params.feeContribution with
  | some (_, index) => fun role => role = .sender index
  | none => OutputRole.isSender

def senderBudget (params : Params) (additional : Nat) : Nat :=
  match params.feeContribution with
  | some (amount, _) => min additional amount
  | none => additional

/-- Lowers outputs so that the proposal pays the fee rate of the fallback. The
receiver gives first, then the sender. A rest is put up with as long as the
rate stays at a floor: what the sender asks for, else what is relayed. -/
def preserveFeeRate (d : Draft) (fallbackRate : Nat) (due : Int) (params : Params)
    (relayRate : Nat) : Except ProposalError (Draft × FeeContribution) :=
  let weight := d.predictedWeight
  if limit64 ≤ fallbackRate * weight then .error .overflow
  else
    let additional := feeFor fallbackRate weight - d.fee
    let (outputs, receiver) := drain OutputRole.isReceiver
      (min additional (receiverBudget due params)) (d.roles.zip d.psbt.tx.outputs)
    let (outputs, sender) := drain (senderEligible params)
      (senderBudget params (additional - receiver)) (d.roles.zip outputs)
    let fee := d.fee + receiver + sender
    let feeRate := feeRateOf fee weight
    let floor := params.minFeeRate.getD relayRate
    if receiver + sender < additional ∧ feeRate < floor then .error (.notEnoughMoney feeRate floor)
    else
      let psbt := { d.psbt with tx := { d.psbt.tx with outputs } }
      .ok ({ d with psbt, fee }, ⟨receiver, sender, feeRate⟩)

end Draft

end Paydesk.Payjoin

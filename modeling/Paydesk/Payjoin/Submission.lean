import Paydesk.Payjoin.Call
import Paydesk.Payjoin.Fallback
import Paydesk.Payjoin.Records
import Paydesk.Payjoin.Request
import Paydesk.Payjoin.Selection
import Paydesk.Payjoin.Signing

/-!
How a fallback becomes a proposal. Between two calls to the outside a
submission runs without interruption; what it has found out so far is in its
phase, what it holds is in its holdings, and what all submissions share is on
the desk.
-/

namespace Paydesk.Payjoin

open Chain Wallet Invoices

structure Settings where
  code : String
  /-- How long a proposal may go unused, in milliseconds, until the fallback is
  broadcast. -/
  delay : Nat
  relayRate : Nat
  blind : Blind

namespace Settings

/-- A minute. -/
def defaultDelay : Nat := 60000

/-- One satoshi for each virtual byte. -/
def defaultRelayRate : Nat := 250

/-- The settings for a currency, whose code may be in either case. -/
def of (code : String) (delay relayRate : Nat) (blind : Blind) : Settings :=
  ⟨Text.Case.upper code, delay, relayRate, blind⟩

end Settings

/-- What all submissions share. -/
structure Desk where
  locks : Locks
  wallets : Wallets
  words : Words

/-- What a submission has to give back if it fails. The fallback is there once
it is known that it would be relayed. -/
structure Holdings where
  inputs : List OutPoint
  coins : List OutPoint
  fallback : Option Transaction
deriving DecidableEq, Repr

def Holdings.none : Holdings := ⟨[], [], .none⟩

/-- A fallback that passed its checks, with the rate of its fee. -/
structure Accepted where
  psbt : Psbt
  fallback : Transaction
  format : BodyFormat
  params : Params
  type : ScriptType
  rate : Nat
deriving DecidableEq, Repr

/-- The invoice that an output pays. -/
structure Target where
  invoice : String
  index : Nat
  method : PaymentMethod
deriving DecidableEq, Repr

/-- What a submission waits for. -/
inductive Phase
  | fetching (tx : Transaction) (format : BodyFormat) (params : Params)
  | probing (a : Accepted)
  | searching (a : Accepted) (code : String) (index : Nat) (script : Script)
  | reading (a : Accepted) (code : String) (index : Nat) (invoice : String) (others : List String)
  | choosing (a : Accepted) (t : Target) (exposed : List OutPoint)
  | splitting (a : Accepted) (t : Target) (coin : Coin)
  | signing (a : Accepted) (t : Target) (draft : Draft) (receiverFee : Nat)
  | paying (a : Accepted) (t : Target) (draft : Draft) (payment : Payment)
deriving DecidableEq, Repr

def Phase.call : Phase → Call
  | .fetching tx _ _ => .previousOutputs tx
  | .probing a => .broadcast a.fallback true
  | .searching _ code _ script => .findInvoices (trackingKey script code)
  | .reading _ code _ invoice _ => .paymentMethod invoice code
  | .choosing _ t _ => .listUnspent t.method.account
  | .splitting _ t _ => .changeScript t.method.account
  | .signing _ t _ _ => .signingKey t.method.account
  | .paying _ t _ payment => .addPayment t.invoice payment

/-- What a sender gets back. -/
structure Proposal where
  body : String
  txid : Bytes
  invoice : String
deriving DecidableEq, Repr

/-- How a submission goes on. One that is finished leaves its fallback to be
broadcast later. Amounts out of range stop it for good. -/
inductive Step
  | wait (phase : Phase)
  | failed (failure : Failure)
  | finished (proposal : Proposal) (fallback : Transaction)
  | overflow

/-- The part of the desk that a running submission works with. -/
structure Session where
  desk : Desk
  holdings : Holdings

namespace Submission

def reject (code : ErrorCode) (message : String) : Step := .failed (.reject code message)

def examine (psbt : Psbt) (format : BodyFormat) (params : Params) : Step :=
  match Fallback.check psbt, psbt.fee? with
  | .error fault, _ => .failed fault.failure
  | .ok _, none => .failed Fallback.Fault.unknownFee.failure
  | .ok type, some fee =>
      let fallback := psbt.extract
      .wait (.probing ⟨psbt, fallback, format, params, type,
        Draft.feeRateOf fee fallback.weight⟩)

/-- Begins with a request to an endpoint for some currency. -/
def start (settings : Settings) (code : String) (request : Request) : Step :=
  if Text.lower code ≠ Text.lower settings.code then
    reject .invalidNetwork ("This endpoint only serves " ++ settings.code)
  else
    match request.payload with
    | .psbt psbt =>
        if psbt.isFinal then examine psbt request.format request.params
        else reject .psbtNotFinalized "The PSBT should be finalized"
    | .transaction tx => .wait (.fetching tx request.format request.params)

/-- A transaction as signing data: what it signs with is final, and the outputs
that it spends are those that the chain knows. An input past the end of the
chain's answer stays open. -/
def psbtOf (tx : Transaction) (previous : List (Option TxOut)) : Psbt :=
  let bare := Psbt.ofTransaction { tx with inputs := tx.inputs.map TxIn.bare }
  { bare with
    inputs := tx.inputs.mapIdx fun i input =>
      match previous[i]? with
      | none => .empty
      | some previousOutput =>
          { PsbtInput.empty with
            previousOutput
            finalScript :=
              if input.signatureScript.isEmpty then none else some input.signatureScript
            finalWitness := if input.witness.isEmpty then none else some input.witness } }

/-- Looks for the first output, from an index on, that pays an invoice. -/
def search (settings : Settings) (a : Accepted) (index : Nat) : Step :=
  match a.fallback.outputs[index]? with
  | some output => .wait (.searching a settings.code index output.script)
  | none =>
      reject .invoiceNotFound "This transaction does not pay any invoice with payjoin"

def searchAmong (settings : Settings) (a : Accepted) (index : Nat) : List String → Step
  | [] => search settings a (index + 1)
  | invoice :: others => .wait (.reading a settings.code index invoice others)

def conflictMessage : Conflict → String
  | .replay => "This transaction was already coordinated"
  | .spent input => input.render ++ " is already used by another payjoin"

/-- Takes the inputs of a fallback that pays an invoice in full. -/
def engage (a : Accepted) (t : Target) (paid : Nat) : StateM Session Step := do
  if 0 < remainingDue t.method.due paid then
    return reject .invoiceNotFullyPaid "The transaction must pay the whole invoice"
  let s ← get
  let inputs := a.fallback.outPoints
  let some locks := s.desk.locks.lockInputs? inputs
    | return reject .inputsAlreadyUsed
        "Some of those inputs have already been used to make another payjoin transaction"
  let wallet := t.method.account.wallet
  let records := s.desk.wallets.records wallet
  set { s with
    desk := { s.desk with locks, wallets := s.desk.wallets.touch wallet }
    holdings := { s.holdings with inputs } : Session }
  match records.conflict? a.fallback with
  | some conflict => return reject .inputsAlreadyUsed (conflictMessage conflict)
  | none => return .wait (.choosing a t records.exposed)

/-- Decides on an invoice that an output could be for. -/
def consider (settings : Settings) (a : Accepted) (index : Nat) (invoice : String)
    (others : List String) (method : PaymentMethod) : StateM Session Step :=
  match a.fallback.outputs[index]? with
  | none => return searchAmong settings a index others
  | some output =>
      if !method.payjoin || method.depositScript != output.script then
        return searchAmong settings a index others
      else if method.account.scriptType ≠ a.type then
        return reject .outOfUtxos ("We do not have any UTXO available for making a payjoin " ++
          "with the sender's inputs type")
      else if method.hasPayments then
        return reject .alreadyPaid
          "The invoice this PSBT is paying has already been partially or completely paid"
      else engage a ⟨invoice, index, method⟩ output.value

def proposalFailure : ProposalError → Step
  | .notEnoughMoney .. =>
      reject .notEnoughMoney "Not enough money is sent to pay for the additional payjoin inputs"
  | .missingUtxo => reject .needUtxoInformation ProposalError.missingUtxo.message
  | .overflow => .overflow
  | e => .failed (.internal e.message)

/-- The value of the payment output. -/
def paidValue (a : Accepted) (t : Target) : Nat := (a.fallback.outputs[t.index]?).elim 0 TxOut.value

/-- Drafts a proposal with a coin. -/
def draft (settings : Settings) (a : Accepted) (t : Target) (coin : Coin)
    (changeScript : Option Script) : StateM Session Step := do
  let s ← get
  match Draft.contribute a.psbt t.index [coin] t.method.account.scriptType changeScript
      s.desk.words with
  | .error e => return proposalFailure e
  | .ok (d, words) =>
      set { s with desk := { s.desk with words } : Session }
      match d.preserveFeeRate a.rate (remainingDue t.method.due (paidValue a t)) a.params
          settings.relayRate with
      | .error e => return proposalFailure e
      | .ok (d, contribution) => return .wait (.signing a t d contribution.receiver)

/-- Picks a coin among those that are not the sender's and were not shown to
anyone. -/
def choose (settings : Settings) (a : Accepted) (t : Target) (exposed : List OutPoint)
    (coins : List Coin) : StateM Session Step := do
  let s ← get
  let inputs := a.fallback.outPoints
  let candidates := settings.blind.sort
    (coins.filter fun coin => !inputs.contains coin.outPoint && !exposed.contains coin.outPoint)
  let others := (a.fallback.outputs.eraseIdx t.index).map TxOut.value
  match Selection.select? candidates s.desk.locks (paidValue a t) others with
  | none =>
      return reject .outOfUtxos
        "We do not have any UTXO available for making a payjoin for now"
  | some (coin, locks) =>
      set { s with
        desk := { s.desk with locks }
        holdings := { s.holdings with coins := s.holdings.coins ++ [coin.outPoint] } : Session }
      if a.fallback.outputs.length = 1 then return .wait (.splitting a t coin)
      else draft settings a t coin none

/-- The payment that a proposal stands for. -/
def paymentOf (a : Accepted) (t : Target) (d : Draft) (receiverFee : Nat) : Payment :=
  { outPoint := ⟨a.fallback.txid, t.index⟩
    output := (a.fallback.outputs[t.index]?).getD ⟨0, []⟩
    confirmations := Payment.unconfirmed
    merge := some
      { proposed := d.psbt.extract.txid
        value := paidValue a t - receiverFee
        coins := d.contributed.map (·.2.outPoint) } }

def signDraft (a : Accepted) (t : Target) (d : Draft) (receiverFee : Nat)
    (account : Keys.ExtendedKey) : Step :=
  match Signing.sign d account t.method.account.scriptType (Signing.choiceLike a.psbt) with
  | .error e => .failed (.internal e.message)
  | .ok d => .wait (.paying a t d (paymentOf a t d receiverFee))

/-- Nothing is told of inputs that are not final. -/
def blankOpenInputs (p : Psbt) : Psbt :=
  { p with
    inputs := p.inputs.map fun known =>
      if known.finalScript.isNone && known.finalWitness.isNone then .empty else known }

/-- Hands a proposal out. From here on the record holds what the submission
held, and the fallback is left to be broadcast later. -/
def conclude (a : Accepted) (t : Target) (d : Draft) (now : Nat) : StateM Session Step := do
  let s ← get
  let proposed := d.psbt.extract.txid
  let wallet := t.method.account.wallet
  let records := s.desk.wallets.records wallet
  let record : Record := ⟨a.fallback, proposed, d.contributed.map (·.2.outPoint), now⟩
  let wallets := s.desk.wallets.set wallet ((records.add? record).getD records)
  set (⟨{ s.desk with wallets }, .none⟩ : Session)
  return .finished ⟨a.format.encode (blankOpenInputs d.psbt), proposed, t.invoice⟩ a.fallback

/-- Goes on with what came back from the call of a phase. -/
def resume (settings : Settings) (now : Nat) (phase : Phase) (outcome : phase.call.Outcome) :
    StateM Session Step :=
  match phase, outcome with
  | .fetching tx format params, .ok previous => return examine (psbtOf tx previous) format params
  | .probing a, .ok (result : BroadcastResult) =>
      if result.accepted then do
        modify fun s => { s with holdings := { s.holdings with fallback := some a.fallback } }
        return search settings a 0
      else
        return reject .invalidTransaction (result.reason.getD "Rejected by the mempool")
  | .searching a _ index _, .ok invoices => return searchAmong settings a index invoices
  | .reading a _ index _ others, .ok none => return searchAmong settings a index others
  | .reading a _ index invoice others, .ok (some method) =>
      consider settings a index invoice others method
  | .choosing a t exposed, .ok coins => choose settings a t exposed coins
  | .splitting a t coin, .ok script => draft settings a t coin (some script)
  | .signing a t d receiverFee, .ok (some account) => return signDraft a t d receiverFee account
  | .signing .., .ok none =>
      return reject .unavailable "The merchant wallet cannot sign payjoins"
  | .paying a t d _, .ok (some _) => conclude a t d now
  | .paying .., .ok none => return reject .alreadyPaid "The invoice is already paid"
  | _, .error message => return .failed (.internal message)

/-- Gives back what is held. The fallback is relayed if there is one. -/
def release (desk : Desk) (holdings : Holdings) : Desk × Option Transaction :=
  ({ desk with
      locks := (desk.locks.unlockInputs holdings.inputs).unlockCoins holdings.coins },
    holdings.fallback)

/-- What a sender is told who does not wait. -/
def cancelled : Failure := .internal "request cancelled"

end Submission

end Paydesk.Payjoin

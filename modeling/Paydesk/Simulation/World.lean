import Paydesk.Invoices.Store
import Paydesk.Payjoin.Call

/-!
A chain, a wallet and invoices that answer as they are told to.
-/

namespace Paydesk.Simulation

open Chain Wallet Invoices Payjoin

/-- The kinds of calls that can be made to fail or to take time. -/
inductive CallKind
  | previousOutputs
  | probe
  | relay
  | listUnspent
  | changeScript
  | signingKey
  | isSpent
  | findInvoices
  | paymentMethod
  | addPayment
deriving DecidableEq, Repr

def CallKind.of : Call → CallKind
  | .previousOutputs _ => .previousOutputs
  | .broadcast _ testOnly => if testOnly then .probe else .relay
  | .listUnspent _ => .listUnspent
  | .changeScript _ => .changeScript
  | .signingKey _ => .signingKey
  | .isSpent _ => .isSpent
  | .findInvoices _ => .findInvoices
  | .paymentMethod .. => .paymentMethod
  | .addPayment .. => .addPayment

structure World where
  coins : List (String × Coin)
  key : Option Keys.ExtendedKey
  previous : List (OutPoint × TxOut)
  changeScript : Script
  probe : BroadcastResult
  relay : BroadcastResult
  spent : List OutPoint
  hidden : List String
  store : Store
  failures : List (CallKind × String)
  /-- How long the next calls take, in milliseconds. -/
  delays : List (CallKind × Nat)

namespace World

def new (store : Store) : World where
  coins := []
  key := none
  previous := []
  changeScript := []
  probe := ⟨true, none⟩
  relay := ⟨true, none⟩
  spent := []
  hidden := []
  store := store
  failures := []
  delays := []

/-- Lets calls of a kind fail with a text, or work again. -/
def fail (w : World) (kind : CallKind) (message : Option String) : World :=
  let others := w.failures.filter (·.1 ≠ kind)
  { w with failures := message.elim others fun message => (kind, message) :: others }

/-- The time that a call takes. A call that takes time uses up an entry of its
kind. -/
def takeDelay (w : World) (kind : CallKind) : Nat × World :=
  match w.delays.find? (·.1 = kind) with
  | none => (0, w)
  | some entry => (entry.2, { w with delays := w.delays.erase entry })

/-- The answer to a call that does not fail. Only a new payment changes
anything. -/
def reply (w : World) : (call : Call) → call.Outcome × World
  | .previousOutputs tx => (.ok (tx.outPoints.map fun o => w.previous.lookup o), w)
  | .broadcast _ testOnly => (.ok (if testOnly then w.probe else w.relay), w)
  | .listUnspent account => (.ok ((w.coins.filter (·.1 == account.wallet)).map (·.2)), w)
  | .changeScript _ => (.ok w.changeScript, w)
  | .signingKey _ => (.ok w.key, w)
  | .isSpent output => (.ok (w.spent.contains output), w)
  | .findInvoices key => (.ok (w.store.find key), w)
  | .paymentMethod invoice code =>
      if w.hidden.contains invoice then (.ok none, w)
      else ((w.store.method? invoice code).mapError DatabaseError.message, w)
  | .addPayment invoice payment =>
      match w.store.pay? invoice payment with
      | .error e => (.error e.message, w)
      | .ok none => (.ok none, w)
      | .ok (some store) => (.ok (some payment), { w with store })

def answer (w : World) (call : Call) : call.Outcome × World :=
  match w.failures.lookup (CallKind.of call) with
  | some message => (.error message, w)
  | none => w.reply call

end World

end Paydesk.Simulation

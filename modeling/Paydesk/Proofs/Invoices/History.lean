import Paydesk.Invoices.Store
import Paydesk.Proofs.Invoices.Rows

/-!
Calls of a store one after another, and the plain history that both kinds of stores are
to answer from.
-/

namespace Paydesk.Invoices

open Chain

namespace Store

inductive Call
  | addInvoice (invoice : String) (method : PaymentMethod)
  | find (key : String)
  | methodOf (invoice code : String)
  | pay (invoice : String) (payment : Payment)
  | paymentsOf (invoice : String)

inductive Answer
  | added
  | invoices (names : List String)
  | method (method : Option PaymentMethod)
  | recorded (payment : Option Payment)
  | payments (payments : List Payment)
deriving DecidableEq

/-- A payment that is recorded is given back. -/
def call (store : Store) : Call → Except DatabaseError (Answer × Store)
  | .addInvoice invoice method => do return (.added, ← store.addInvoice invoice method)
  | .find key => return (.invoices (store.find key), store)
  | .methodOf invoice code => do return (.method (← store.method? invoice code), store)
  | .pay invoice payment => do
      match ← store.pay? invoice payment with
      | some store => return (.recorded (some payment), store)
      | none => return (.recorded none, store)
  | .paymentsOf invoice => do return (.payments (← store.paymentsOf invoice), store)

/-- The answers to calls that are each made at their time. One that fails changes nothing. -/
def answers (store : Store) : List (Nat × Call) → List (Except DatabaseError Answer)
  | [] => []
  | (now, call) :: calls =>
      match (store.setClock now).call call with
      | .ok (answer, store) => .ok answer :: store.answers calls
      | .error e => .error e :: (store.setClock now).answers calls

/-- What a call may be, given the invoices that were added before it. -/
def Call.Permitted (stored : List String) : Call → Prop
  | .addInvoice invoice method => invoice ∉ stored ∧ method.due < limit63
  | .pay invoice payment => invoice ∈ stored ∧ payment.Fits
  | .find _ | .methodOf _ _ | .paymentsOf _ => True

/-- The invoices that a call adds. -/
def Call.invoices : Call → List String
  | .addInvoice invoice _ => [invoice]
  | .find _ | .methodOf _ _ | .pay _ _ | .paymentsOf _ => []

/-- Calls at times that do not go back, each of them permitted after those before it. -/
def Orderly (before : Nat) (stored : List String) : List (Nat × Call) → Prop
  | [] => True
  | (now, call) :: calls =>
      before ≤ now ∧ call.Permitted stored ∧ Orderly now (stored ++ call.invoices) calls

instance (stored : List String) : (c : Call) → Decidable (c.Permitted stored)
  | .addInvoice invoice method =>
      inferInstanceAs (Decidable (invoice ∉ stored ∧ method.due < limit63))
  | .pay invoice payment => inferInstanceAs (Decidable (invoice ∈ stored ∧ payment.Fits))
  | .find _ | .methodOf _ _ | .paymentsOf _ => .isTrue trivial

instance decidableOrderly (before : Nat) (stored : List String) :
    (calls : List (Nat × Call)) → Decidable (Orderly before stored calls)
  | [] => .isTrue trivial
  | (now, call) :: calls =>
      have := decidableOrderly now (stored ++ call.invoices) calls
      inferInstanceAs (Decidable (before ≤ now ∧ call.Permitted stored ∧
        Orderly now (stored ++ call.invoices) calls))

end Store

/-- What was added under the name of an invoice, and when. -/
structure Entry (α : Type) where
  time : Nat
  invoice : String
  content : α

/-- All invoices and payments of one currency, in the order in which they were added. -/
structure History where
  code : String
  invoices : List (Entry PaymentMethod)
  payments : List (Entry Payment)

namespace History

def new (code : String) : History := ⟨Text.Case.upper code, [], []⟩

def stored (h : History) : List String := h.invoices.map (·.invoice)

def find (h : History) (key : String) : List String :=
  (h.invoices.filter fun e => trackingKey e.content.depositScript h.code == key).map (·.invoice)

def method? (h : History) (invoice code : String) : Option PaymentMethod :=
  if Text.lower code ≠ Text.lower h.code then none
  else
    (h.invoices.find? (·.invoice == invoice)).map fun e =>
      { e.content with hasPayments := h.payments.any (·.invoice == invoice) }

def isPaidBy (h : History) (o : OutPoint) : Bool := h.payments.any (·.content.outPoint == o)

def paymentsOf (h : History) (invoice : String) : List Payment :=
  (h.payments.filter (·.invoice == invoice)).map (·.content)

def answer (h : History) : Store.Call → Store.Answer
  | .addInvoice _ _ => .added
  | .find key => .invoices (h.find key)
  | .methodOf invoice code => .method (h.method? invoice code)
  | .pay _ payment => .recorded (if h.isPaidBy payment.outPoint then none else some payment)
  | .paymentsOf invoice => .payments (h.paymentsOf invoice)

def addInvoice (h : History) (now : Nat) (invoice : String) (method : PaymentMethod) : History :=
  { h with invoices := h.invoices ++ [⟨now, invoice, method⟩] }

def addPayment (h : History) (now : Nat) (invoice : String) (payment : Payment) : History :=
  { h with payments := h.payments ++ [⟨now, invoice, payment⟩] }

/-- The history after a call. -/
def after (h : History) (now : Nat) : Store.Call → History
  | .addInvoice invoice method => h.addInvoice now invoice method
  | .pay invoice payment =>
      if h.isPaidBy payment.outPoint then h else h.addPayment now invoice payment
  | .find _ | .methodOf _ _ | .paymentsOf _ => h

def answers (h : History) : List (Nat × Store.Call) → List Store.Answer
  | [] => []
  | (now, call) :: calls => h.answer call :: (h.after now call).answers calls

theorem stored_after (h : History) (now : Nat) (call : Store.Call) :
    (h.after now call).stored = h.stored ++ call.invoices := by
  cases call with
  | addInvoice invoice method => simp [after, addInvoice, stored, Store.Call.invoices]
  | pay invoice payment =>
      rw [after]
      split <;> simp [addPayment, stored, Store.Call.invoices]
  | _ => simp [after, Store.Call.invoices]

end History

end Paydesk.Invoices

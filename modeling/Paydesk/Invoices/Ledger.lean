import Paydesk.Invoices.Payment
import Paydesk.Order.Table
import Paydesk.Text.Blank

/-!
Invoices and payments of one currency, kept in plain lists.
-/

namespace Paydesk.Invoices

open Chain

structure Ledger where
  code : String
  methods : Table String PaymentMethod
  tracked : Table String (List String)
  payments : Table String (List Payment)
deriving DecidableEq, Repr

namespace Ledger

def new (code : String) : Ledger := ⟨Text.Case.upper code, [], [], []⟩

/-- A later invoice of the same name takes the place of an earlier one, which is
still found by its script. -/
def addInvoice (l : Ledger) (invoice : String) (method : PaymentMethod) : Ledger :=
  let key := trackingKey method.depositScript l.code
  { l with
    methods := l.methods.insert invoice method
    tracked := l.tracked.insert key ((l.tracked.find? key).getD [] ++ [invoice]) }

/-- The invoices under a tracking key, the oldest one first. -/
def find (l : Ledger) (key : String) : List String := (l.tracked.find? key).getD []

def paymentsOf (l : Ledger) (invoice : String) : List Payment := (l.payments.find? invoice).getD []

/-- How an invoice is paid, if it is one of this currency. -/
def method? (l : Ledger) (invoice code : String) : Option PaymentMethod :=
  if Text.lower code ≠ Text.lower l.code then none
  else
    (l.methods.find? invoice).map fun method =>
      { method with hasPayments := !(l.paymentsOf invoice).isEmpty }

def isPaidBy (l : Ledger) (o : OutPoint) : Bool :=
  l.payments.values.any fun payments => payments.any (·.outPoint == o)

/-- Adds a payment, unless its output was counted before for any invoice. -/
def pay? (l : Ledger) (invoice : String) (payment : Payment) : Option Ledger :=
  if l.isPaidBy payment.outPoint then none
  else
    some { l with payments := l.payments.insert invoice (l.paymentsOf invoice ++ [payment]) }

end Ledger

end Paydesk.Invoices

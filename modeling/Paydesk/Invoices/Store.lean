import Paydesk.Invoices.Database
import Paydesk.Invoices.Ledger

namespace Paydesk.Invoices

/-- Where invoices and payments are kept. -/
inductive Store
  | ledger (l : Ledger)
  | database (db : Database)
deriving DecidableEq, Repr

namespace Store

/-- Only a database looks at the clock. -/
def setClock (store : Store) (now : Nat) : Store :=
  match store with
  | .ledger l => .ledger l
  | .database db => .database (db.setClock now)

def addInvoice (store : Store) (invoice : String) (method : PaymentMethod) :
    Except DatabaseError Store :=
  match store with
  | .ledger l => .ok (.ledger (l.addInvoice invoice method))
  | .database db => .database <$> db.addInvoice invoice method

def find : Store → String → List String
  | .ledger l => l.find
  | .database db => db.find

def method? (store : Store) (invoice code : String) : Except DatabaseError (Option PaymentMethod) :=
  match store with
  | .ledger l => .ok (l.method? invoice code)
  | .database db => db.method? invoice code

def pay? (store : Store) (invoice : String) (payment : Payment) :
    Except DatabaseError (Option Store) :=
  match store with
  | .ledger l => .ok ((l.pay? invoice payment).map .ledger)
  | .database db => Option.map .database <$> db.pay? invoice payment

def paymentsOf (store : Store) (invoice : String) : Except DatabaseError (List Payment) :=
  match store with
  | .ledger l => .ok (l.paymentsOf invoice)
  | .database db => db.paymentsOf invoice

end Store

end Paydesk.Invoices

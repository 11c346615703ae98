import Paydesk.Chain.Address
import Paydesk.Invoices.Database
import Paydesk.Service.Config

/-!
Adding an invoice from the command line.
-/

namespace Paydesk.Service

open Chain Invoices

inductive EnrolmentFault
  | config (error : ConfigError)
  | badAddress (text : String)
  | foreignAddress (network : Network)
  | store (error : DatabaseError)
deriving DecidableEq, Repr

def EnrolmentFault.message : EnrolmentFault → String
  | .config _ => "Failed to parse config"
  | .badAddress text => "Invalid address " ++ text
  | .foreignAddress network => "Address is not for " ++ network.name
  | .store _ => "Failed to store the invoice"

namespace NewInvoice

/-- How the invoice is paid: to its address, which has to be one of the network. -/
def method (i : NewInvoice) (network : Network) : Except EnrolmentFault PaymentMethod := do
  let some address := Address.read? i.address | .error (.badAddress i.address)
  if !address.isFor network then .error (.foreignAddress network)
  return {
    depositScript := address.script
    payjoin := i.payjoin
    account := ⟨i.wallet, i.scriptType⟩
    due := i.amount
    hasPayments := false }

/-- An identifier of sixteen digits. -/
def idOf (random : Nat) : String :=
  let digits := Nat.toDigits 16 random
  String.ofList (List.replicate (16 - digits.length) '0' ++ digits)

/-- Adds the invoice under its own identifier or under a random one. -/
def enrol (i : NewInvoice) (network : Network) (random : Nat) (db : Database) :
    Except EnrolmentFault (String × Database) := do
  let id := i.id.getD (idOf random)
  let method ← i.method network
  return (id, ← (db.addInvoice id method).mapError .store)

end NewInvoice

/-- Adds the invoice that the options ask for, if they ask for one. The
configuration tells where the store is, and a store is opened for a currency. -/
def addInvoice (options : Options) (config : Config) (random : Nat) (db : Database) :
    Except EnrolmentFault (Option (String × Database)) :=
  match options.command with
  | .serve => .ok none
  | .addInvoice invoice => some <$> invoice.enrol config.network random db

end Paydesk.Service

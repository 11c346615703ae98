import Paydesk.Numbers
import Paydesk.Text.Case
import Paydesk.Wallet.Coin

namespace Paydesk.Invoices

open Chain Wallet

/-- How an invoice is paid on the chain. -/
structure PaymentMethod where
  depositScript : Script
  payjoin : Bool
  account : Account
  due : Nat
  hasPayments : Bool
deriving DecidableEq, Repr

/-- The transaction that a payment was merged into, what the payment is worth
there, and the coins that the receiver added. -/
structure Merge where
  proposed : Bytes
  value : Nat
  coins : List OutPoint
deriving DecidableEq, Repr

/-- A payment of an invoice. The number of confirmations is negative as long as
it only counts through the transaction that it was merged into. -/
structure Payment where
  outPoint : OutPoint
  output : TxOut
  confirmations : Int
  merge : Option Merge
deriving DecidableEq, Repr

/-- The confirmations of a payment that arrived by a merge. -/
def Payment.unconfirmed : Int := -1

/-- What invoices are found by: the hash of the script to pay, and the currency. -/
def trackingKey (script : Script) (code : String) : String :=
  Hex.encode (Hash.hash160 script) ++ "#" ++ Text.Case.upper code

/-- What is still due after a payment; negative when too much was paid. Amounts
of `2 ^ 63` and more count as one less than that. -/
def remainingDue (due paid : Nat) : Int :=
  (min due (limit63 - 1) : Nat) - (min paid (limit63 - 1) : Nat)

end Paydesk.Invoices

import Paydesk.Invoices.Payment

namespace Paydesk.Payjoin

open Chain Wallet Invoices

/-- Whether a transaction was taken, and if not perhaps why. -/
structure BroadcastResult where
  accepted : Bool
  reason : Option String
deriving DecidableEq, Repr

/-- What is asked of the chain, the wallet and the invoices. -/
inductive Call
  | previousOutputs (tx : Transaction)
  | broadcast (tx : Transaction) (testOnly : Bool)
  | listUnspent (account : Account)
  | changeScript (account : Account)
  | signingKey (account : Account)
  | isSpent (output : OutPoint)
  | findInvoices (key : String)
  | paymentMethod (invoice code : String)
  | addPayment (invoice : String) (payment : Payment)
deriving DecidableEq, Repr

/-- What comes back. A payment that is already there is not added again. -/
def Call.Answer : Call → Type
  | .previousOutputs _ => List (Option TxOut)
  | .broadcast .. => BroadcastResult
  | .listUnspent _ => List Coin
  | .changeScript _ => Script
  | .signingKey _ => Option Keys.ExtendedKey
  | .isSpent _ => Bool
  | .findInvoices _ => List String
  | .paymentMethod .. => Option PaymentMethod
  | .addPayment .. => Option Payment

/-- A call may also fail, with a text. -/
abbrev Call.Outcome (call : Call) : Type := Except String call.Answer

end Paydesk.Payjoin

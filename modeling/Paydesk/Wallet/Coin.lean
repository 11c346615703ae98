import Paydesk.Keys.Extended
import Paydesk.Wallet.ScriptType

namespace Paydesk.Wallet

open Chain

/-- The wallet that an invoice is paid into. -/
structure Account where
  wallet : String
  scriptType : ScriptType
deriving DecidableEq, Repr

/-- An unspent output of a wallet, and the path to the key that controls it. -/
structure Coin where
  outPoint : OutPoint
  output : TxOut
  path : Keys.KeyPath
deriving DecidableEq, Repr

end Paydesk.Wallet

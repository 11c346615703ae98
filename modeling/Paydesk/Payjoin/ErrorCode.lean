namespace Paydesk.Payjoin

/-- Why a sender is refused. -/
inductive ErrorCode
  | unavailable
  | notEnoughMoney
  | versionUnsupported
  | psbtRejected
  | invalidFormat
  | psbtNotFinalized
  | unsupportedInputs
  | insanePsbt
  | needUtxoInformation
  | leakingData
  | invalidTransaction
  | outOfUtxos
  | alreadyPaid
  | invoiceNotFound
  | invoiceNotFullyPaid
  | inputsAlreadyUsed
  | invalidNetwork
deriving DecidableEq, Repr

namespace ErrorCode

def all : List ErrorCode :=
  [.unavailable, .notEnoughMoney, .versionUnsupported, .psbtRejected, .invalidFormat,
    .psbtNotFinalized, .unsupportedInputs, .insanePsbt, .needUtxoInformation, .leakingData,
    .invalidTransaction, .outOfUtxos, .alreadyPaid, .invoiceNotFound, .invoiceNotFullyPaid,
    .inputsAlreadyUsed, .invalidNetwork]

/-- The words of a code, in lower case. -/
def words : ErrorCode → List String
  | .unavailable => ["unavailable"]
  | .notEnoughMoney => ["not", "enough", "money"]
  | .versionUnsupported => ["version", "unsupported"]
  | .psbtRejected => ["original", "psbt", "rejected"]
  | .invalidFormat => ["invalid", "format"]
  | .psbtNotFinalized => ["psbt", "not", "finalized"]
  | .unsupportedInputs => ["unsupported", "inputs"]
  | .insanePsbt => ["insane", "psbt"]
  | .needUtxoInformation => ["need", "utxo", "information"]
  | .leakingData => ["leaking", "data"]
  | .invalidTransaction => ["invalid", "transaction"]
  | .outOfUtxos => ["out", "of", "utxos"]
  | .alreadyPaid => ["already", "paid"]
  | .invoiceNotFound => ["invoice", "not", "found"]
  | .invoiceNotFullyPaid => ["invoice", "not", "fully", "paid"]
  | .inputsAlreadyUsed => ["inputs", "already", "used"]
  | .invalidNetwork => ["invalid", "network"]

/-- The code as replies have it. -/
def name (code : ErrorCode) : String := "-".intercalate code.words

/-- The code as documents have it. -/
def title (code : ErrorCode) : String := String.join (code.words.map String.capitalize)

def read? (text : String) : Option ErrorCode := all.find? (·.name == text)

/-- The HTTP status that usually goes with a code. -/
def status : ErrorCode → Nat
  | .unavailable => 500
  | .outOfUtxos => 503
  | .notEnoughMoney => 422
  | .alreadyPaid => 422
  | .invalidNetwork => 404
  | _ => 400

end ErrorCode

end Paydesk.Payjoin

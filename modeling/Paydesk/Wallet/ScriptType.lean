import Paydesk.Chain.Psbt
import Paydesk.Chain.Weight

namespace Paydesk.Wallet

open Chain

/-- How the coins of a wallet are locked: to the hash of a key with a witness,
the same wrapped into a script hash, or without a witness. -/
inductive ScriptType
  | segwit
  | segwitP2sh
  | legacy
deriving DecidableEq, Repr, Inhabited

namespace ScriptType

def name : ScriptType → String
  | .segwit => "segwit"
  | .segwitP2sh => "segwit-p2sh"
  | .legacy => "legacy"

structure Unknown where
  text : String
deriving DecidableEq, Repr

def Unknown.message (u : Unknown) : String := "unknown script type: " ++ u.text

def read (text : String) : Except Unknown ScriptType :=
  if text = "segwit" then .ok .segwit
  else if text = "segwit-p2sh" then .ok .segwitP2sh
  else if text = "legacy" then .ok .legacy
  else .error ⟨text⟩

/-- What a signed input of this type weighs at most, with a signature of 72
bytes and a key of 33. -/
def inputWeight : ScriptType → InputWeight
  | .segwit => .ofLengths 0 [72, 33]
  | .segwitP2sh => .ofLengths 23 [72, 33]
  | .legacy => .ofLengths 107 []

/-- The script that a key of this type is paid with. -/
def script (type : ScriptType) (publicKey : Bytes) : Script :=
  match type with
  | .segwit => Script.payToWitnessKeyHash publicKey
  | .segwitP2sh => Script.payToScriptHash (Script.payToWitnessKeyHash publicKey)
  | .legacy => Script.payToKeyHash publicKey

/-- The script that satisfies the hash of an input: the one that its final
script carries, or the one noted for it. -/
def redeemScript? (known : PsbtInput) : Option Script :=
  match known.finalScript with
  | some script => Script.redeemScript? script
  | none => known.redeemScript

/-- The type of an input, if it is one of these. -/
def ofInput? (input : TxIn) (known : PsbtInput) : Option ScriptType := do
  let output ← known.previousOutput? input.previous.vout
  if Script.isPayToWitnessKeyHash output.script then some .segwit
  else if Script.isPayToKeyHash output.script then some .legacy
  else if Script.isPayToScriptHash output.script then
    let redeem ← redeemScript? known
    if Script.isPayToWitnessKeyHash redeem then some .segwitP2sh else none
  else none

end ScriptType

end Paydesk.Wallet

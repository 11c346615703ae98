import Paydesk.Chain.Sighash
import Paydesk.Keys.Signature
import Paydesk.Wallet.Coin

namespace Paydesk.Wallet

open Chain Keys

/-- How the nonce of a signature is chosen: the first one, or the first one that
keeps the signature short. -/
inductive NonceChoice
  | first
  | low
deriving DecidableEq, Repr

/-- A signature over a digest as scripts hold it, ending in what it covers. -/
def signDigest (key : SecretKey) (choice : NonceChoice) (digest : Bytes) : Bytes :=
  let signature := match choice with
    | .first => Signature.sign key digest []
    | .low => Signature.signLow key digest
  signature.encode ++ [Sighash.all]

/-- What proves the right to spend an input. -/
structure Proof where
  script : Option Script
  witness : Option (List Bytes)
deriving DecidableEq, Repr

/-- Signs the input at an index, which spends `output`. -/
def signInput (type : ScriptType) (key : SecretKey) (choice : NonceChoice) (tx : Transaction)
    (index : Nat) (output : TxOut) : Proof :=
  let publicKey := key.publicKey
  let witness :=
    [signDigest key choice (Sighash.witnessKeyHash tx index (Hash.hash160 publicKey) output.value),
      publicKey]
  match type with
  | .segwit => ⟨none, some witness⟩
  | .segwitP2sh => ⟨some (Script.push (Script.payToWitnessKeyHash publicKey)), some witness⟩
  | .legacy =>
      let signature := signDigest key choice (Sighash.legacy tx index output.script)
      ⟨some (Script.push signature ++ Script.push publicKey), none⟩

end Paydesk.Wallet

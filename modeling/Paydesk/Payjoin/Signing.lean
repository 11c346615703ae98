import Paydesk.Payjoin.Proposal
import Paydesk.Wallet.Signing

namespace Paydesk.Payjoin

open Chain Keys Wallet

namespace Signing

/-- Whether a signature has a first integer of at most 32 bytes. -/
def isLow : Bytes → Bool
  | [0x30, _, 0x02, _] => false
  | 0x30 :: _ :: 0x02 :: length :: _ => length ≤ 32
  | _ => false

/-- The signature of an input: the first item of its witness, else what its
script pushes first. -/
def signature? (known : PsbtInput) : Option Bytes :=
  match known.finalWitness with
  | some (item :: _) => some item
  | _ =>
      match known.finalScript.bind Script.first? with
      | some (.push data, _) => some data
      | _ => none

/-- Signatures of the receiver are to look like those of the sender. -/
def choiceLike (fallback : Psbt) : NonceChoice :=
  if fallback.inputPairs.all fun (_, known) => (signature? known).any isLow then .low else .first

inductive Error
  | tooDeep
  | keyMismatch (coin : OutPoint)
deriving DecidableEq, Repr

def Error.message : Error → String
  | .tooDeep => "key derivation failed: cannot derive child of depth 256 or higher"
  | .keyMismatch coin => "the wallet key does not control " ++ coin.render

/-- Signs the input at an index with the key that the coin's path leads to. -/
def signCoin (account : ExtendedKey) (type : ScriptType) (choice : NonceChoice) (p : Psbt)
    (index : Nat) (coin : Coin) : Except Error Psbt := do
  let some key := account.derive? coin.path | .error .tooDeep
  if type.script key.secret.publicKey ≠ coin.output.script then
    .error (.keyMismatch coin.outPoint)
  let proof := signInput type key.secret choice p.tx index coin.output
  return { p with
    inputs := p.inputs.modify index fun known =>
      { known with
        finalScript := proof.script <|> known.finalScript
        finalWitness := proof.witness <|> known.finalWitness } }

/-- Signs all inputs that the receiver added to a draft. -/
def sign (d : Draft) (account : ExtendedKey) (type : ScriptType) (choice : NonceChoice) :
    Except Error Draft := do
  let psbt ← d.contributed.foldlM
    (fun p (index, coin) => signCoin account type choice p index coin) d.psbt
  return { d with psbt }

end Signing

end Paydesk.Payjoin

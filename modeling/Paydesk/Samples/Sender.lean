import Paydesk.Chain.Psbt
import Paydesk.Numbers
import Paydesk.Wallet.Signing

/-!
Keys, coins and payments that are the same every time.
-/

namespace Paydesk.Samples

open Chain Keys Wallet

/-- The key whose bytes are all the same. -/
def key? (seed : Nat) : Option SecretKey := SecretKey.ofBytes? (List.replicate 32 (UInt8.ofNat seed))

def script? (seed : Nat) : Option Script :=
  (key? seed).map fun key => Script.payToWitnessKeyHash key.publicKey

def receiverKey? : Option ExtendedKey := ExtendedKey.ofSeed? false (List.replicate 32 42)

/-- A coin that the receiver's key controls at `0/index`. -/
def coin? (index value : Nat) (type : ScriptType) : Option Coin := do
  if limit31 ≤ index then none
  let path : KeyPath := [⟨0, false⟩, ⟨index, false⟩]
  let key ← (← receiverKey?).derive? path
  let txid := Bytes.bigEndian 4 index ++ List.replicate 28 0xc0
  some ⟨⟨txid, index⟩, ⟨value, type.script key.secret.publicKey⟩, path⟩

/-- A signed payment with one input, and change where there is some. -/
structure Payment where
  sender : Nat
  script : Script
  value : Nat
  change : Option Nat
  fee : Nat

namespace Payment

def outPoint (p : Payment) : OutPoint := ⟨List.replicate 32 (UInt8.ofNat p.sender), 0⟩

def spentValue (p : Payment) : Nat := p.value + p.change.getD 0 + p.fee

def spent? (p : Payment) : Option TxOut := do
  if limit64 ≤ p.spentValue then none
  some ⟨p.spentValue, ← script? p.sender⟩

def unsigned? (p : Payment) : Option Transaction := do
  let spent ← p.spent?
  let change := p.change.toList.map fun value => (⟨value, spent.script⟩ : TxOut)
  some ⟨2, [⟨p.outPoint, [], 0xfffffffd, []⟩], ⟨p.value, p.script⟩ :: change, 0⟩

def psbt? (p : Payment) : Option Psbt := do
  let spent ← p.spent?
  let tx ← p.unsigned?
  let proof := signInput .segwit (← key? p.sender) .low tx 0 spent
  some { Psbt.ofTransaction tx with
    inputs := [{ PsbtInput.empty with
      previousOutput := some spent
      finalWitness := proof.witness }] }

end Payment

end Paydesk.Samples

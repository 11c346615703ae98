import Paydesk.Chain.Transaction

/-!
The digests that signatures are made of, for signatures that cover the whole
transaction.
-/

namespace Paydesk.Chain.Sighash

/-- Says that all inputs and outputs are covered. -/
def all : UInt8 := 0x01

def suffix : Bytes := Bytes.littleEndian 4 all.toNat

/-- The digest for an input that is spent without a witness: the transaction
with the spent script in the place of this input's script and none elsewhere. -/
def legacy (tx : Transaction) (index : Nat) (spent : Script) : Bytes :=
  let inputs := tx.inputs.mapIdx fun i input =>
    { input with signatureScript := if i = index then spent else [] }
  Hash.doubleSha256 ({ tx with inputs }.encodeBase ++ suffix)

/-- The digest for an input that pays from the hash of a key with a witness,
and which covers the amount spent. -/
def witnessKeyHash (tx : Transaction) (index : Nat) (keyHash : Bytes) (value : Nat) : Bytes :=
  let previous := tx.inputs.flatMap fun i => i.previous.encode
  let sequences := tx.inputs.flatMap fun i => Bytes.littleEndian 4 i.sequence
  let input := (tx.inputs[index]?).elim [] fun i =>
    i.previous.encode ++ encodeBlob ([0x76, 0xa9] ++ Script.push keyHash ++ [0x88, 0xac]) ++
      Bytes.littleEndian 8 value ++ Bytes.littleEndian 4 i.sequence
  Hash.doubleSha256 (Bytes.littleEndian 4 tx.version ++ Hash.doubleSha256 previous ++
    Hash.doubleSha256 sequences ++ input ++
    Hash.doubleSha256 (tx.outputs.flatMap TxOut.encode) ++
    Bytes.littleEndian 4 tx.lockTime ++ suffix)

end Paydesk.Chain.Sighash

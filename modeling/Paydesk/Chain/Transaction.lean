import Paydesk.Bytes.Hex
import Paydesk.Chain.Script
import Paydesk.Hash.Sha256
import Paydesk.Numbers
import Paydesk.Text.Number

namespace Paydesk.Chain

/-- Counts in front of lists: one, three, five or nine bytes, as few as do. -/
def encodeCount (n : Nat) : Bytes :=
  if n < 0xfd then [UInt8.ofNat n]
  else if n < limit16 then 0xfd :: Bytes.littleEndian 2 n
  else if n < limit32 then 0xfe :: Bytes.littleEndian 4 n
  else 0xff :: Bytes.littleEndian 8 n

def countSize (n : Nat) : Nat :=
  if n < 0xfd then 1 else if n < limit16 then 3 else if n < limit32 then 5 else 9

/-- Reads a count, refusing one that takes more bytes than it needs. -/
def decodeCount : Decoder Nat := do
  let tag ← Decoder.byte
  if tag < 0xfd then return tag.toNat
  else
    let width := if tag = 0xfd then 2 else if tag = 0xfe then 4 else 8
    let n ← Decoder.littleEndian width
    Decoder.guard (countSize n == width + 1)
    return n

/-- Bytes behind their count. -/
def encodeBlob (bs : Bytes) : Bytes := encodeCount bs.length ++ bs

def decodeBlob : Decoder Bytes := do Decoder.take (← decodeCount)

def encodeList {α : Type} (encode : α → Bytes) (items : List α) : Bytes :=
  encodeCount items.length ++ items.flatMap encode

def decodeList {α : Type} (item : Decoder α) : Decoder (List α) := do
  Decoder.replicate item (← decodeCount)

/-- An output of an earlier transaction. -/
structure OutPoint where
  txid : Bytes
  vout : Nat
deriving DecidableEq, Repr, Inhabited

namespace OutPoint

instance : Ord OutPoint :=
  ⟨fun a b => (compare a.txid b.txid).then (compare a.vout b.vout)⟩

def encode (o : OutPoint) : Bytes := o.txid ++ Bytes.littleEndian 4 o.vout

def decode : Decoder OutPoint := do
  let txid ← Decoder.take 32
  return ⟨txid, ← Decoder.littleEndian 4⟩

end OutPoint

/-- Identifiers are shown with their bytes in reverse order. -/
def renderId (id : Bytes) : String := Hex.encode id.reverse

def readId? (s : String) : Option Bytes := do
  let bs ← Hex.decode? s
  if bs.length = 32 then some bs.reverse else none

namespace OutPoint

def render (o : OutPoint) : String := renderId o.txid ++ ":" ++ toString o.vout

/-- Reads what `render` writes, with letters of either case in the identifier. -/
def read? (s : String) : Option OutPoint :=
  match s.toList.span (· != ':') with
  | (id, ':' :: index) => do
      let txid ← readId? (String.ofList id)
      let vout ← (Text.readNat limit32 (String.ofList index)).toOption
      if index = (toString vout).toList then some ⟨txid, vout⟩ else none
  | _ => none

end OutPoint

structure TxIn where
  previous : OutPoint
  signatureScript : Script
  sequence : Nat
  witness : List Bytes
deriving DecidableEq, Repr

namespace TxIn

def encode (i : TxIn) : Bytes :=
  i.previous.encode ++ encodeBlob i.signatureScript ++ Bytes.littleEndian 4 i.sequence

def decode : Decoder TxIn := do
  let previous ← OutPoint.decode
  let script ← decodeBlob
  return ⟨previous, script, ← Decoder.littleEndian 4, []⟩

/-- The input without what proves the right to spend. -/
def bare (i : TxIn) : TxIn := { i with signatureScript := [], witness := [] }

end TxIn

structure TxOut where
  value : Nat
  script : Script
deriving DecidableEq, Repr

namespace TxOut

def encode (o : TxOut) : Bytes := Bytes.littleEndian 8 o.value ++ encodeBlob o.script

def decode : Decoder TxOut := do
  let value ← Decoder.littleEndian 8
  return ⟨value, ← decodeBlob⟩

end TxOut

structure Transaction where
  version : Nat
  inputs : List TxIn
  outputs : List TxOut
  lockTime : Nat
deriving DecidableEq, Repr

namespace Transaction

def encodeWitness (witness : List Bytes) : Bytes := encodeList encodeBlob witness

def decodeWitness : Decoder (List Bytes) := decodeList decodeBlob

/-- The form without witnesses, which identifies the transaction. -/
def encodeBase (tx : Transaction) : Bytes :=
  Bytes.littleEndian 4 tx.version ++ encodeList TxIn.encode tx.inputs ++
    encodeList TxOut.encode tx.outputs ++ Bytes.littleEndian 4 tx.lockTime

/-- Whether the form with witnesses is used: also where the lack of inputs
would read as its marker. -/
def hasWitnessForm (tx : Transaction) : Bool :=
  tx.inputs.isEmpty || tx.inputs.any fun i => !i.witness.isEmpty

def encode (tx : Transaction) : Bytes :=
  if tx.hasWitnessForm then
    Bytes.littleEndian 4 tx.version ++ [0x00, 0x01] ++ encodeList TxIn.encode tx.inputs ++
      encodeList TxOut.encode tx.outputs ++ tx.inputs.flatMap (encodeWitness ·.witness) ++
      Bytes.littleEndian 4 tx.lockTime
  else tx.encodeBase

/-- Reads the form without witnesses. -/
def decodeBase : Decoder Transaction := do
  let version ← Decoder.littleEndian 4
  let inputs ← decodeList TxIn.decode
  let outputs ← decodeList TxOut.decode
  return ⟨version, inputs, outputs, ← Decoder.littleEndian 4⟩

/-- Reads either form. The form with witnesses has to hold one, unless there
are no inputs to hold it. -/
def decode : Decoder Transaction := do
  let version ← Decoder.littleEndian 4
  let inputs ← decodeList TxIn.decode
  if inputs.isEmpty then
    Decoder.guard ((← Decoder.byte) == 0x01)
    let inputs ← decodeList TxIn.decode
    let outputs ← decodeList TxOut.decode
    let witnesses ← Decoder.replicate decodeWitness inputs.length
    Decoder.guard (inputs.isEmpty || witnesses.any fun w => !w.isEmpty)
    let inputs := inputs.zipWith (fun i w => { i with witness := w }) witnesses
    return ⟨version, inputs, outputs, ← Decoder.littleEndian 4⟩
  else
    let outputs ← decodeList TxOut.decode
    return ⟨version, inputs, outputs, ← Decoder.littleEndian 4⟩

def ofBytes? (bs : Bytes) : Option Transaction := Decoder.whole? decode bs

def txid (tx : Transaction) : Bytes := Hash.doubleSha256 tx.encodeBase

/-- The identifier that also covers the witnesses. -/
def wtxid (tx : Transaction) : Bytes := Hash.doubleSha256 tx.encode

def outPoints (tx : Transaction) : List OutPoint := tx.inputs.map TxIn.previous

/-- Bytes outside witnesses count four times. -/
def weight (tx : Transaction) : Nat := tx.encodeBase.length * 3 + tx.encode.length

end Transaction

end Paydesk.Chain

import Paydesk.Bytes.Base64
import Paydesk.Chain.Psbt
import Paydesk.Chain.Psbt.Field

namespace Paydesk.Chain.Psbt

/-- One key of a map with its value. -/
def encodeEntry (key value : Bytes) : Bytes := encodeBlob key ++ encodeBlob value

/-- A map: its entries in the order of their keys, then an empty key. -/
def encodeMap (entries : Entries) : Bytes :=
  entries.flatMap (fun (key, value) => encodeEntry key value) ++ [0x00]

def putOption {α : Type} (key : UInt8) (encode : α → Bytes) (value : Option α) (entries : Entries) :
    Entries :=
  match value with
  | some a => entries.insert [key] (encode a)
  | none => entries

def inputEntries (i : PsbtInput) : Entries :=
  putOption 0x00 Transaction.encode i.previousTx <|
  putOption 0x01 TxOut.encode i.previousOutput <|
  putOption 0x04 id i.redeemScript <|
  putOption 0x07 id i.finalScript <|
  putOption 0x08 Transaction.encodeWitness i.finalWitness i.others

/-- The bytes in front of the first map. -/
def magic : Bytes := [0x70, 0x73, 0x62, 0x74, 0xff]

def encode (p : Psbt) : Bytes :=
  magic ++ encodeMap (p.globals.insert [0x00] p.tx.encodeBase) ++
    p.inputs.flatMap (fun i => encodeMap (inputEntries i)) ++ p.outputs.flatMap encodeMap

/-- The entries of a map in the order written, up to the empty key. -/
def entriesLoop : Nat → Decoder (List (Bytes × Bytes))
  | 0 => failure
  | fuel + 1 => do
      let key ← decodeBlob
      if key.isEmpty then return []
      else
        let value ← decodeBlob
        return (key, value) :: (← entriesLoop fuel)

def decodeEntries : Decoder (List (Bytes × Bytes)) := fun bs => entriesLoop (bs.length + 1) bs

/-- Puts an entry into a map, where its key must not be yet. -/
def addEntry (entries : Entries) (key value : Bytes) : Option Entries :=
  if entries.contains key then none else some (entries.insert key value)

def setOnce {α : Type} (current : Option α) (value : Option α) : Option α :=
  if current.isSome then none else value

/-- A name space for private use: its name, then a kind. -/
def isPrivateKey (key : Bytes) : Bool := ((do let _ ← decodeBlob; Decoder.byte).run key).isSome

/-- Whether an entry of the map for the whole has the form of its kind. -/
def isGlobal (kind : UInt8) (key value : Bytes) : Bool :=
  match kind with
  | 0x01 => Field.isExtendedPublicKey key && !value.isEmpty && value.length % 4 == 0
  | 0xfb => key.isEmpty && value == [0, 0, 0, 0]
  | 0xfc => isPrivateKey key
  | _ => true

/-- Whether an entry of the map for an input has the form of its kind. -/
def isInputField (kind : UInt8) (key value : Bytes) : Bool :=
  match kind with
  | 0x02 => Field.isScriptKey key && Field.isSignature value
  | 0x03 => key.isEmpty && value.length == 4
  | 0x05 => key.isEmpty
  | 0x06 => Keys.isPublicKey key && Field.isKeyOrigin value
  | 0x0a => key == Hash.ripemd160 value
  | 0x0b => key == Hash.sha256 value
  | 0x0c => key == Hash.hash160 value
  | 0x0d => key == Hash.doubleSha256 value
  | 0x13 => key.isEmpty && Field.isSchnorrSignature value
  | 0x14 =>
      key.length == 64 && Field.isXOnlyKey (key.take 32) && Field.isSchnorrSignature value
  | 0x15 => Field.isControlBlock key && Field.isLeafScript value
  | 0x16 => Field.isXOnlyKey key && Field.isTreeKeyOrigin value
  | 0x17 => key.isEmpty && Field.isXOnlyKey value
  | 0x18 => key.isEmpty && value.length == 32
  | 0xfc => isPrivateKey key
  | _ => true

/-- Whether an entry of the map for an output has the form of its kind. -/
def isOutputField (kind : UInt8) (key value : Bytes) : Bool :=
  match kind with
  | 0x00 => key.isEmpty
  | 0x01 => key.isEmpty
  | 0x02 => Keys.isPublicKey key && Field.isKeyOrigin value
  | 0x05 => key.isEmpty && Field.isXOnlyKey value
  | 0x06 => key.isEmpty && Field.isScriptTree value
  | 0x07 => Field.isXOnlyKey key && Field.isTreeKeyOrigin value
  | 0xfc => isPrivateKey key
  | _ => true

structure Globals where
  tx : Option Transaction
  others : Entries

def addGlobal (g : Globals) (entry : Bytes × Bytes) : Option Globals :=
  match entry with
  | ([0x00], value) => do
      let tx ← setOnce g.tx (Decoder.whole? Transaction.decodeBase value)
      some { g with tx := some tx }
  | (0x00 :: _, _) => none
  | (kind :: key, value) =>
      if isGlobal kind key value then
        (addEntry g.others (kind :: key) value).map fun others => { g with others }
      else none
  | ([], _) => none

def addInput (i : PsbtInput) (entry : Bytes × Bytes) : Option PsbtInput :=
  match entry with
  | ([0x00], value) => do
      let tx ← setOnce i.previousTx (Transaction.ofBytes? value)
      some { i with previousTx := some tx }
  | ([0x01], value) => do
      let output ← setOnce i.previousOutput (Decoder.whole? TxOut.decode value)
      some { i with previousOutput := some output }
  | ([0x04], value) => do
      let script ← setOnce i.redeemScript (some value)
      some { i with redeemScript := some script }
  | ([0x07], value) => do
      let script ← setOnce i.finalScript (some value)
      some { i with finalScript := some script }
  | ([0x08], value) => do
      let witness ← setOnce i.finalWitness (Decoder.whole? Transaction.decodeWitness value)
      some { i with finalWitness := some witness }
  | (kind :: key, value) =>
      if [0x00, 0x01, 0x04, 0x07, 0x08].contains kind then none
      else if isInputField kind key value then
        let key := if kind = 0x06 then Field.shortKey key else key
        (addEntry i.others (kind :: key) value).map fun others => { i with others }
      else none
  | ([], _) => none

def addOutput (o : Entries) (entry : Bytes × Bytes) : Option Entries :=
  match entry with
  | (kind :: key, value) =>
      if isOutputField kind key value then
        addEntry o (kind :: (if kind = 0x02 then Field.shortKey key else key)) value
      else none
  | ([], _) => none

def decodeMap {α : Type} (start : α) (add : α → Bytes × Bytes → Option α) : Decoder α := do
  (← decodeEntries).foldlM (fun a entry bs => (add a entry).map fun a => (a, bs)) start

/-- Reads a whole from the front. The transaction must not carry signatures. -/
def decode : Decoder Psbt := do
  Decoder.guard ((← Decoder.take magic.length) == magic)
  let globals ← decodeMap ⟨none, []⟩ addGlobal
  let some tx := globals.tx | failure
  Decoder.guard (tx.inputs.all fun i => i.signatureScript.isEmpty && i.witness.isEmpty)
  let inputs ← Decoder.replicate (decodeMap .empty addInput) tx.inputs.length
  let outputs ← Decoder.replicate (decodeMap [] addOutput) tx.outputs.length
  return ⟨tx, globals.others, inputs, outputs⟩

/-- What follows the last map is ignored. -/
def ofBytes? (bs : Bytes) : Option Psbt := (decode.run bs).map (·.1)

def render (p : Psbt) : String := Base64.encode p.encode

end Paydesk.Chain.Psbt

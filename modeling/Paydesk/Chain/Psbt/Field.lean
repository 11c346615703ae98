import Paydesk.Chain.Transaction
import Paydesk.Keys.Curve

/-!
The forms that the keys and values of signing data have to have.
-/

namespace Paydesk.Chain.Field

open Paydesk.Keys

/-- A length before data: one byte below 128, else the number of its bytes
first, written with as few bytes as do. -/
def derLength : Decoder Nat := do
  let b ← Decoder.byte
  if b < 0x80 then return b.toNat
  else
    Decoder.guard (0x81 ≤ b && b ≤ 0x88)
    let digits ← Decoder.take (b.toNat - 0x80)
    let n := Bytes.toNat digits
    Decoder.guard (digits.head? != some 0 && 0x80 ≤ n)
    return n

/-- An integer without needless leading bytes. -/
def derInteger : Decoder Unit := do
  Decoder.guard ((← Decoder.byte) == 0x02)
  match ← Decoder.take (← derLength) with
  | [] => Decoder.guard false
  | [_] => return ()
  | a :: b :: _ => Decoder.guard (!(a == 0x00 && b < 0x80) && !(a == 0xff && 0x80 ≤ b))

def derSignature : Decoder Unit := do
  Decoder.guard ((← Decoder.byte) == 0x30)
  let n ← derLength
  let body ← Decoder.take n
  Decoder.guard (Decoder.whole? (do derInteger; derInteger) body).isSome

/-- A signature of two integers, and one of the bytes that say what it covers. -/
def isSignature (bs : Bytes) : Bool :=
  match bs.getLast? with
  | none => false
  | some covers =>
      [0x01, 0x02, 0x03, 0x81, 0x82, 0x83].contains covers &&
        (Decoder.whole? derSignature bs.dropLast).isSome

/-- A signature of 64 bytes, which may be followed by what it covers. -/
def isSchnorrSignature (bs : Bytes) : Bool :=
  bs.length == 64 ||
    (bs.length == 65 && [0x00, 0x01, 0x02, 0x03, 0x81, 0x82, 0x83].contains (bs.getLastD 0xff))

/-- The 32 bytes of the `x` of a public key. -/
def isXOnlyKey (bs : Bytes) : Bool := bs.length == 32 && isAbscissa bs.toNat

/-- A public key as scripts hold it, short or with both coordinates. -/
def isScriptKey (bs : Bytes) : Bool := isPublicKey bs && (bs.length == 33 || bs.head? == some 0x04)

/-- The short form of a public key. -/
def shortKey (bs : Bytes) : Bytes :=
  if bs.length = 65 then
    (if (bs.getLastD 0) % 2 = 0 then 0x02 else 0x03) :: (bs.drop 1).take 32
  else bs

/-- A fingerprint and a path of numbers, four bytes each. -/
def isKeyOrigin (bs : Bytes) : Bool := 4 ≤ bs.length && bs.length % 4 == 0

def isExtendedPublicKey (bs : Bytes) : Bool :=
  bs.length == 78 &&
    (bs.take 4 == [0x04, 0x88, 0xb2, 0x1e] || bs.take 4 == [0x04, 0x35, 0x87, 0xcf]) &&
    isPublicKey (bs.drop 45)

def isLeafVersion (v : UInt8) : Bool := v % 2 == 0 && v != 0x50

/-- The way from a leaf of a script tree to its root. -/
def isControlBlock (bs : Bytes) : Bool :=
  33 ≤ bs.length && (bs.length - 33) % 32 == 0 && bs.length ≤ 33 + 32 * 128 &&
    isLeafVersion (bs.headD 0 &&& 0xfe) && isXOnlyKey ((bs.drop 1).take 32)

def isLeafScript (bs : Bytes) : Bool := bs.getLast?.any isLeafVersion

/-- A list of the hashes of leaves, then the origin of a key. -/
def isTreeKeyOrigin (bs : Bytes) : Bool :=
  match (decodeList (Decoder.take 32)).run bs with
  | some (_, rest) => isKeyOrigin rest
  | none => false

/-- Puts a leaf into a script tree that is filled from the left. The depths of
the finished subtrees still waiting for a sibling increase, the deepest one
stands in front. -/
def addLeaf (waiting : List Nat) (depth : Nat) : Option (List Nat) :=
  match waiting with
  | [] => some [depth]
  | d :: rest =>
      if d = depth then
        match depth with
        | 0 => none
        | depth + 1 => addLeaf rest depth
      else if d < depth then some (depth :: waiting)
      else none

def treeLeaves : Nat → List Nat → Bytes → Option (List Nat)
  | _, waiting, [] => some waiting
  | 0, _, _ => none
  | fuel + 1, waiting, depth :: version :: bs => do
      let (_, rest) ← decodeBlob bs
      if isLeafVersion version ∧ depth ≤ 128 then
        treeLeaves fuel (← addLeaf waiting depth.toNat) rest
      else none
  | _ + 1, _, _ => none

/-- The leaves of a whole script tree, each behind its depth. -/
def isScriptTree (bs : Bytes) : Bool := treeLeaves bs.length [] bs == some [0]

end Paydesk.Chain.Field

import Paydesk.Bytes.Basic
import Paydesk.Text.Blank

/-!
Texts of a name, a separator and symbols of five bits, the last six of which
are a checksum. There are two checksums, told apart by a constant.
-/

namespace Paydesk.Bech32

def alphabet : List Char := "qpzry9x8gf2tvdw0s3jn54khce6mua7l".toList

def symbol (n : Nat) : Char := alphabet.getD n 'q'

def value? (c : Char) : Option Nat := alphabet.findIdx? (· == c)

inductive Variant
  | plain
  | modified
deriving DecidableEq, Repr

def Variant.constant : Variant → Nat
  | .plain => 1
  | .modified => 0x2bc830a3

def generators : List Nat := [0x3b6a57b2, 0x26508e6d, 0x1ea119fa, 0x3d4233dd, 0x2a1462b3]

/-- The remainder of the polynomial whose coefficients are the values. -/
def polymod (values : List Nat) : Nat :=
  values.foldl (fun (check : Nat) v =>
    let top := check >>> 25
    generators.zipIdx.foldl (fun (acc : Nat) (g, i) => if top.testBit i then acc ^^^ g else acc)
      (((check &&& 0x1ffffff) <<< 5) ^^^ v)) 1

/-- A name as it goes into the checksum: the high bits of its characters, zero,
and their low bits. -/
def expandName (name : List Char) : List Nat :=
  name.map (·.toNat >>> 5) ++ 0 :: name.map (·.toNat &&& 31)

def checksum (variant : Variant) (name : List Char) (data : List Nat) : List Nat :=
  let rest := polymod (expandName name ++ data ++ List.replicate 6 0) ^^^ variant.constant
  (List.range 6).map fun i => (rest >>> (5 * (5 - i))) &&& 31

/-- Groups bits anew, from the most significant one on. Bits that are left over
are filled up with zeros. -/
def regroup (from_ to_ : Nat) (values : List Nat) : List Nat :=
  let bits := values.flatMap fun v => (List.range from_).map fun i => v.testBit (from_ - 1 - i)
  let count := (bits.length + to_ - 1) / to_
  (List.range count).map fun i =>
    (List.range to_).foldl (fun n j => 2 * n + ((bits[i * to_ + j]?).getD false).toNat) 0

/-- The bytes of symbols. At most four bits may be left over, all zero. -/
def bytes? (values : List Nat) : Option Bytes :=
  let whole := values.length * 5 / 8
  let left := values.length * 5 % 8
  let groups := regroup 5 8 values
  if left < 5 ∧ (groups.drop whole).all (· == 0) then
    some ((groups.take whole).map UInt8.ofNat)
  else none

/-- The place of the last separator. -/
def separator? (cs : List Char) : Option Nat :=
  (cs.reverse.findIdx? (· == '1')).map fun i => cs.length - 1 - i

/-- The name and the values of a text whose letters are all of one case, in
lower case. -/
def split? (text : String) : Option (List Char × List Nat) := do
  let cs := text.toList
  let lower := cs.map Char.toLower
  if cs.any Text.isAsciiLetter && cs != lower && cs != cs.map Char.toUpper then none
  let place ← separator? lower
  let name := lower.take place
  if name.isEmpty || 83 < name.length || !name.all (fun c => 33 ≤ c.toNat && c.toNat ≤ 126) then
    none
  let values ← (lower.drop (place + 1)).mapM value?
  some (name, values)

/-- Reads a name, a version and a program. The version decides on the checksum
and, if it is zero, on the lengths of programs. -/
def decodeProgram? (text : String) : Option (String × Nat × Bytes) := do
  let (name, values) ← split? text
  if 90 < text.length then none
  let version ← values.head?
  let variant := if version = 0 then Variant.plain else .modified
  if values.length < 7 || 16 < version then none
  let data := values.take (values.length - 6)
  if values.drop (values.length - 6) ≠ checksum variant name data then none
  let program ← bytes? data.tail
  if program.length < 2 ∨ 40 < program.length then none
  else if version = 0 ∧ program.length ≠ 20 ∧ program.length ≠ 32 then none
  else some (String.ofList name, version, program)

def encodeProgram (name : String) (version : Nat) (program : Bytes) : String :=
  let variant := if version = 0 then Variant.plain else .modified
  let data := version :: regroup 8 5 (program.map UInt8.toNat)
  name ++ "1" ++ String.ofList ((data ++ checksum variant name.toList data).map symbol)

end Paydesk.Bech32

namespace Paydesk

abbrev Bytes := List UInt8

namespace Bytes

/-- The last `width` base-256 digits of a number, the lowest one first. -/
def littleEndian : Nat → Nat → Bytes
  | 0, _ => []
  | width + 1, n => UInt8.ofNat (n % 256) :: littleEndian width (n / 256)

/-- The last `width` base-256 digits of a number, the highest one first. -/
def bigEndian (width n : Nat) : Bytes := (littleEndian width n).reverse

/-- The number whose base-256 digits are given, the lowest one first. -/
def ofLittleEndian : Bytes → Nat
  | [] => 0
  | b :: bs => b.toNat + 256 * ofLittleEndian bs

/-- The number whose base-256 digits are given, the highest one first. -/
def toNat (bs : Bytes) : Nat := bs.foldl (fun n b => n * 256 + b.toNat) 0

end Bytes

/-- Reads a value from the front of a byte string and leaves the rest. -/
abbrev Decoder (α : Type) := StateT Bytes Option α

namespace Decoder

/-- Reads a given number of bytes. -/
def take (n : Nat) : Decoder Bytes := fun bs =>
  let front := bs.take n
  if front.length = n then some (front, bs.drop n) else none

def byte : Decoder UInt8
  | [] => none
  | b :: bs => some (b, bs)

/-- Reads a number of `width` bytes, the lowest one first. -/
def littleEndian (width : Nat) : Decoder Nat := do
  return (← take width).ofLittleEndian

def guard (p : Bool) : Decoder Unit := fun bs => if p then some ((), bs) else none

/-- Reads `n` values after one another. -/
def replicate {α : Type} (d : Decoder α) : Nat → Decoder (List α)
  | 0 => pure []
  | n + 1 => do
      let a ← d
      let as ← replicate d n
      return a :: as

/-- Reads a value that takes up the whole byte string. -/
def whole? {α : Type} (d : Decoder α) (bs : Bytes) : Option α :=
  match d.run bs with
  | some (a, []) => some a
  | _ => none

end Decoder

end Paydesk

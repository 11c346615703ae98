import Paydesk.Numbers

namespace Paydesk

/-- The least mantissa that takes more than 96 bits. -/
def mantissaLimit : Nat := 0x1000000000000000000000000

/-- A decimal number: a sign, a mantissa of at most 96 bits, and the number of
its decimal places. Equal numbers may differ in their places, and zero may
carry a sign. -/
structure Decimal where
  negative : Bool
  mantissa : Nat
  scale : Nat
  mantissa_lt : mantissa < mantissaLimit
  scale_le : scale ≤ 28
deriving DecidableEq

namespace Decimal

def maxScale : Nat := 28

/-- The mantissa with its sign. -/
def signed (d : Decimal) : Int :=
  if d.negative then -(d.mantissa : Int) else d.mantissa

def isZero (d : Decimal) : Bool := d.mantissa == 0

def ofNat (n : Nat) (h : n < mantissaLimit := by decide) : Decimal :=
  ⟨false, n, 0, h, Nat.zero_le _⟩

/-- The integer with the same digits. -/
def withoutPoint (d : Decimal) : Decimal := ⟨d.negative, d.mantissa, 0, d.mantissa_lt, Nat.zero_le _⟩

def zero : Decimal := ofNat 0

def one : Decimal := ofNat 1

def two : Decimal := ofNat 2

/-- One with one decimal place. -/
def onePointZero : Decimal := ⟨false, 10, 1, by decide, by decide⟩

instance : Inhabited Decimal := ⟨zero⟩

/-- A mantissa, which must fit, with its places; zero gets no sign. -/
def ofParts? (negative : Bool) (mantissa scale : Nat) : Option Decimal :=
  if h : mantissa < mantissaLimit ∧ scale ≤ 28 then
    some ⟨negative && mantissa != 0, mantissa, scale, h.1, h.2⟩
  else none

/-- The order of the numbers, whatever their places. -/
def compare (a b : Decimal) : Ordering :=
  Ord.compare (a.signed * tenTo b.scale) (b.signed * tenTo a.scale)

def le (a b : Decimal) : Bool := a.compare b != .gt

def lt (a b : Decimal) : Bool := a.compare b == .lt

/-- Equality of the numbers, whatever their places. -/
def sameValue (a b : Decimal) : Bool := a.compare b == .eq

/-- The number with the opposite sign, also for zero. -/
def neg (d : Decimal) : Decimal := { d with negative := !d.negative }

/-- The digits of a natural number, at least `width` of them. -/
def paddedDigits (width n : Nat) : List Char :=
  let digits := Nat.toDigits 10 n
  List.replicate (width - digits.length) '0' ++ digits

/-- All places are written, and a point only if there are any. -/
def render (d : Decimal) : String :=
  let sign := if d.negative then ['-'] else []
  let digits := paddedDigits (d.scale + 1) d.mantissa
  let whole := digits.take (digits.length - d.scale)
  let fraction := digits.drop (digits.length - d.scale)
  String.ofList (sign ++ whole ++ (if d.scale == 0 then [] else '.' :: fraction))

instance : ToString Decimal := ⟨render⟩

end Decimal

end Paydesk

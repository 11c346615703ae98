import Paydesk.Numbers
import Paydesk.Text.Blank

/-!
Numbers with so many significant bits, read from decimal text and multiplied,
both rounded to the nearest one and halfway to the even one. A magnitude is
counted in units of the smallest positive number.
-/

namespace Paydesk.Binary

/-- A format has so many significant bits, `2 ^ depth` units in one, and numbers
below `2 ^ height` units. -/
structure Format where
  precision : Nat
  depth : Nat
  height : Nat
deriving DecidableEq, Repr

namespace Format

def single : Format := ⟨24, 149, 277⟩

def double : Format := ⟨53, 1074, 2098⟩

/-- The units in one. -/
def one (f : Format) : Nat := twoTo f.depth

/-- The first magnitude that is no longer finite. -/
def limit (f : Format) : Nat := twoTo f.height

/-- A power of ten beyond all numbers; its inverse is below half a unit. -/
def reach (f : Format) : Int := f.depth / 3 + 20

end Format

/-- The integer next to `a / b`; halfway between two the even one. -/
def nearest (a b : Nat) : Nat :=
  let q := a / b
  let r := 2 * (a % b)
  if r < b ∨ (r = b ∧ q % 2 = 0) then q else q + 1

/-- The number next to `a / b` units, unless it is too large. -/
def round? (f : Format) (a b : Nat) : Option Nat :=
  let shift := (a / b).log2 - (f.precision - 1)
  let n := nearest a (b * twoTo shift) * twoTo shift
  if n < f.limit then some n else none

/-- The least integer that is no less than so many units. -/
def ceiling (f : Format) (units : Nat) : Nat := (units + f.one - 1) / f.one

inductive ReadError
  | empty
  | invalid
deriving DecidableEq, Repr

def ReadError.message : ReadError → String
  | .empty => "cannot parse float from empty string"
  | .invalid => "invalid float literal"

/-- What a text stands for: a magnitude with a sign, or nothing finite. -/
inductive Value
  | finite (negative : Bool) (units : Nat)
  | infinite (negative : Bool)
  | notANumber
deriving DecidableEq, Repr

/-- The number next to `digits * 10 ^ exponent`, unless it is too large. -/
def roundDecimal? (f : Format) (digits : Nat) (exponent : Int) : Option Nat :=
  if 0 ≤ exponent then round? f (digits * tenTo exponent.toNat * f.one) 1
  else round? f (digits * f.one) (tenTo (-exponent).toNat)

/-- The value of `digits * 10 ^ exponent`. Far outside the range of numbers the
exponent alone decides. -/
def ofDecimal (f : Format) (negative : Bool) (digits : Nat) (exponent : Int) : Value :=
  let magnitude := (Nat.toDigits 10 digits).length + exponent
  if digits = 0 ∨ magnitude < -f.reach then .finite negative 0
  else if f.reach < magnitude then .infinite negative
  else
    match roundDecimal? f digits exponent with
    | some units => .finite negative units
    | none => .infinite negative

def number (cs : List Char) : Nat := cs.foldl (fun n c => n * 10 + Text.digitValue c) 0

/-- The exponent after the digits: nothing, or a letter, a sign and digits. -/
def exponent? : List Char → Option Int
  | [] => some 0
  | e :: cs =>
      if e == 'e' || e == 'E' then
        let (negative, ds) := match cs with
          | '-' :: ds => (true, ds)
          | '+' :: ds => (false, ds)
          | ds => (false, ds)
        if ds.isEmpty || !ds.all Text.isAsciiDigit then none
        else some (if negative then -(number ds : Int) else number ds)
      else none

def readUnsigned (f : Format) (negative : Bool) (cs : List Char) : Except ReadError Value :=
  let word := Text.lower (String.ofList cs)
  if word == "inf" || word == "infinity" then .ok (.infinite negative)
  else if word == "nan" then .ok .notANumber
  else
    let whole := cs.takeWhile Text.isAsciiDigit
    let rest := cs.dropWhile Text.isAsciiDigit
    let (fraction, rest) := match rest with
      | '.' :: rest => (rest.takeWhile Text.isAsciiDigit, rest.dropWhile Text.isAsciiDigit)
      | _ => ([], rest)
    if whole.isEmpty && fraction.isEmpty then .error .invalid
    else
      match exponent? rest with
      | some e => .ok (ofDecimal f negative (number (whole ++ fraction)) (e - fraction.length))
      | none => .error .invalid

def read (f : Format) (text : String) : Except ReadError Value :=
  match text.toList with
  | [] => .error .empty
  | '-' :: cs => readUnsigned f true cs
  | '+' :: cs => readUnsigned f false cs
  | cs => readUnsigned f false cs

end Paydesk.Binary

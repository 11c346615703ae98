import Paydesk.Decimal.Arithmetic
import Paydesk.Numbers
import Paydesk.Text.Blank

namespace Paydesk.Decimal

inductive ReadError
  | empty
  | noDigits
  | secondPoint
  | leadingSeparator
  | unknownCharacter
  | tooManyDigits
  | roundedTooLarge
deriving DecidableEq, Repr

def ReadError.message : ReadError → String
  | .empty => "Invalid decimal: empty"
  | .noDigits => "Invalid decimal: no digits found"
  | .secondPoint => "Invalid decimal: two decimal points"
  | .leadingSeparator => "Invalid decimal: must start lead with a number"
  | .unknownCharacter => "Invalid decimal: unknown character"
  | .tooManyDigits => "Invalid decimal: overflow from too many digits"
  | .roundedTooLarge => "Invalid decimal: overflow from mantissa after rounding"

def ReadError.ofCharacter (c : Char) : ReadError :=
  if c == '.' then .secondPoint else if c == '_' then .leadingSeparator else .unknownCharacter

/-- What has been read so far: the digits as a number, the places among them,
and whether there was a point or a digit. -/
structure Reading where
  mantissa : Nat
  scale : Nat
  point : Bool
  digits : Bool

def Reading.finish (negative : Bool) (r : Reading) : Except ReadError Decimal :=
  if r.digits then
    match ofParts? negative r.mantissa r.scale with
    | some d => .ok d
    | none => .error .tooManyDigits
  else .error .noDigits

/-- Ends a reading that has no room for the next character: five and more round
up, and what follows is not looked at. -/
def Reading.round (negative : Bool) (r : Reading) (next : Char) : Except ReadError Decimal :=
  if !(Text.isAsciiDigit next || next == '_' || next == '.') then
    .error (.ofCharacter next)
  else
    let up := Text.isAsciiDigit next && 5 ≤ Text.digitValue next
    let mantissa := if up then r.mantissa + 1 else r.mantissa
    if mantissa < mantissaLimit then ({ r with mantissa } : Reading).finish negative
    else if r.scale == 0 then .error .roundedTooLarge
    else
      ({ r with mantissa := (mantissa + 4) / 10, scale := r.scale - 1 } : Reading).finish negative

/-- Reads digits, at most one point, and underscores after the first digit. -/
def readDigits (negative : Bool) : Reading → List Char → Except ReadError Decimal
  | r, [] => r.finish negative
  | r, c :: cs =>
      if r.point && maxScale ≤ r.scale then r.round negative c
      else if Text.isAsciiDigit c then
        let mantissa := r.mantissa * 10 + Text.digitValue c
        if mantissa < mantissaLimit then
          readDigits negative
            { r with mantissa, scale := if r.point then r.scale + 1 else 0, digits := true } cs
        else if r.point then r.round negative c
        else .error .tooManyDigits
      else if c == '.' && !r.point then readDigits negative { r with point := true } cs
      else if c == '_' && r.digits then readDigits negative r cs
      else .error (.ofCharacter c)

/-- Reads a decimal number. Digits for which there is no room are rounded away,
but only behind the point. -/
def read (cs : List Char) : Except ReadError Decimal :=
  match cs with
  | [] => .error .empty
  | '-' :: cs => readDigits true ⟨0, 0, false, false⟩ cs
  | '+' :: cs => readDigits false ⟨0, 0, false, false⟩ cs
  | cs => readDigits false ⟨0, 0, false, false⟩ cs

/-- A power of ten that fits. -/
def tenPower? (k : Nat) : Option Decimal := ofParts? false (tenTo k) 0

/-- A large power of ten is applied in steps of at most nineteen places. -/
def timesTenPower? (d : Decimal) (k : Nat) : Option Decimal := do
  if k ≤ 18 then d.mul? (← tenPower? k)
  else
    let d ← d.mul? (← tenPower? 19)
    if k = 19 then some d else d.mul? (← tenPower? (k - 19))

/-- The same number without zeros at the end of its places. -/
def normalize (d : Decimal) : Decimal :=
  if d.isZero then d.withoutPoint
  else
    let zeros := (List.range (d.scale + 1)).reverse.find? fun k => d.mantissa % tenTo k == 0
    (ofParts? d.negative (d.mantissa / tenTo (zeros.getD 0)) (d.scale - zeros.getD 0)).getD d

/-- A number of digits after an optional plus sign. -/
def exponent? (cs : List Char) : Option Nat :=
  let ds := match cs with
    | '+' :: ds => ds
    | ds => ds
  let n := ds.foldl (fun n c => n * 10 + Text.digitValue c) 0
  if ds.isEmpty || !ds.all Text.isAsciiDigit || limit32 ≤ n then none else some n

/-- Reads a decimal number with an exponent, which is taken from the places as
far as these go. -/
def readScientific? (cs : List Char) : Option Decimal := do
  let isMark (c : Char) : Bool := c == 'e' || c == 'E'
  let base ← (read (cs.takeWhile (!isMark ·))).toOption
  match cs.dropWhile (!isMark ·) with
  | [] => none
  | _ :: '-' :: ds => ofParts? base.negative base.mantissa (base.scale + (← exponent? ds))
  | _ :: ds =>
      let k ← exponent? ds
      if k ≤ base.scale then ofParts? base.negative base.mantissa (base.scale - k)
      else if maxScale < k then none
      else (← base.timesTenPower? k).normalize

end Paydesk.Decimal

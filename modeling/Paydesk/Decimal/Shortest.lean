import Paydesk.Decimal.Binary
import Paydesk.Numbers

/-!
The shortest decimal text of a binary number: of all texts that are read as this
number, the one with the fewest digits, and among those the one next to it.
-/

namespace Paydesk.Binary

/-- How many times `10 ^ exponent` goes into a magnitude, as a quotient. -/
def inSteps (f : Format) (units : Nat) (exponent : Int) : Nat × Nat :=
  if 0 ≤ exponent then (units, f.one * tenTo exponent.toNat)
  else (units * tenTo (-exponent).toNat, f.one)

/-- A multiple of `10 ^ exponent` that is read as a magnitude: the one below it
or the one above it, whichever is nearer if both are. -/
def stepsAt? (f : Format) (units : Nat) (exponent : Int) : Option Nat :=
  let (a, b) := inSteps f units exponent
  let below := a / b
  let reads (steps : Nat) : Bool := roundDecimal? f steps exponent == some units
  if reads below && (2 * (a % b) ≤ b || !reads (below + 1)) then some below
  else if reads (below + 1) then some (below + 1)
  else none

/-- The digits and the exponent of the shortest text, looked for from the
greatest exponent down. -/
def shortest (f : Format) (units : Nat) : Nat × Int :=
  let exponents := (List.range (2 * f.reach.toNat + f.precision)).map fun (i : Nat) => f.reach - i
  (exponents.findSome? fun e => (stepsAt? f units e).map (·, e)).getD (0, 0)

/-- Writes `digits * 10 ^ exponent` without an exponent. -/
def positional (digits : Nat) (exponent : Int) : List Char :=
  let ds := Nat.toDigits 10 digits
  if 0 ≤ exponent then ds ++ List.replicate exponent.toNat '0'
  else
    let places := (-exponent).toNat
    let padded := List.replicate (places + 1 - ds.length) '0' ++ ds
    let whole := padded.length - places
    padded.take whole ++ '.' :: padded.drop whole

def Value.render (f : Format) : Value → String
  | .finite negative units =>
      let text := if units = 0 then ['0'] else
        let (digits, exponent) := shortest f units
        positional digits exponent
      String.ofList (if negative then '-' :: text else text)
  | .infinite negative => if negative then "-inf" else "inf"
  | .notANumber => "NaN"

/-- The integer next to a value, halfway away from zero, within the range from
zero to below `limit`. -/
def Value.toNatBelow (f : Format) (limit : Nat) : Value → Nat
  | .finite negative units =>
      if negative then 0 else min ((2 * units + f.one) / (2 * f.one)) (limit - 1)
  | .infinite negative => if negative then 0 else limit - 1
  | .notANumber => 0

end Paydesk.Binary

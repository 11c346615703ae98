import Paydesk.Decimal.Basic
import Paydesk.Numbers

namespace Paydesk.Decimal

/-- `n / d` to the nearest natural number, a half going to the even neighbour. -/
def roundDiv (n d : Nat) : Nat :=
  if d < 2 * (n % d) || (2 * (n % d) == d && n / d % 2 == 1) then n / d + 1 else n / d

/-- The number `± n / 10 ^ scale` with as many of its places as fit. -/
def fit? (negative : Bool) (n scale : Nat) : Option Decimal :=
  let drops := List.range' (scale - maxScale) (scale - (scale - maxScale) + 1)
  (drops.find? fun k => roundDiv n (tenTo k) < mantissaLimit).bind fun k =>
    ofParts? negative (roundDiv n (tenTo k)) (scale - k)

/-- The sum at the larger number of places, rounded where it does not fit. A
zero operand leaves the other one as it is. -/
def add? (a b : Decimal) : Option Decimal :=
  if a.isZero then some b
  else if b.isZero then some a
  else
    let scale := max a.scale b.scale
    let sum := a.signed * tenTo (scale - a.scale) + b.signed * tenTo (scale - b.scale)
    fit? (sum < 0) sum.natAbs scale

def sub? (a b : Decimal) : Option Decimal :=
  if b.isZero then some (if a.isZero then b else a) else a.add? b.neg

/-- A product of two mantissas below this one is computed in one word. -/
def wordLimit : Nat := limit32

/-- Past this number of places a product computed in one word is plain zero. -/
def maxWordScale : Nat := maxScale + 19

/-- The product at the sum of the places, rounded where it does not fit. -/
def mul? (a b : Decimal) : Option Decimal :=
  if a.isZero || b.isZero then some zero
  else
    let scale := a.scale + b.scale
    if a.mantissa < wordLimit && b.mantissa < wordLimit && maxWordScale < scale then
      some zero
    else fit? (a.negative != b.negative) (a.mantissa * b.mantissa) scale

/-- The largest number of at most nine and at most `room` further places for
which `q` still fits. -/
def widening (q room : Nat) : Nat :=
  ((List.range (min 9 room + 1)).reverse.find? fun k => q * tenTo k < mantissaLimit).getD 0

theorem widening_le (q room : Nat) : widening q room ≤ room := by
  unfold widening
  cases h : (List.range (min 9 room + 1)).reverse.find? fun k => q * tenTo k < mantissaLimit with
  | none => simp
  | some k =>
      have hmem := List.mem_of_find?_eq_some h
      simp only [List.mem_reverse, List.mem_range] at hmem
      simp only [Option.getD_some]
      omega

/-- A quotient that outgrew the mantissa, with its last place dropped. The flag
tells whether more digits follow. `places` counts the places still free, of
which 28 lie to the right of the point. -/
def dropPlace? (q places : Nat) (more : Bool) : Option (Nat × Nat) :=
  if maxScale ≤ places then none
  else
    let up := 5 < q % 10 || (q % 10 == 5 && (more || q / 10 % 2 == 1))
    some (if up then q / 10 + 1 else q / 10, places + 1)

/-- Long division in steps of up to nine places. `places` counts the places
still free; a number of decimal places is `28 - places`. The result carries
the places left and whether the division was ever inexact. -/
def divideFrom (divisor q r places : Nat) (inexact : Bool) : Option (Nat × Nat × Bool) :=
  if r = 0 then
    if places ≤ maxScale then some (q, places, inexact)
    else
      let k := min 9 (places - maxScale)
      if q * tenTo k < mantissaLimit then
        divideFrom divisor (q * tenTo k) 0 (places - k) inexact
      else none
  else
    let k := widening q places
    if k < 9 && maxScale + k < places then none
    else if k = 0 then
      let up := divisor < 2 * r || (2 * r == divisor && q % 2 == 1)
      if !up then some (q, places, true)
      else if q + 1 < mantissaLimit then some (q + 1, places, true)
      else (dropPlace? (q + 1) places true).map fun (q, places) => (q, places, true)
    else
      let q' := q * tenTo k + r * tenTo k / divisor
      let r' := r * tenTo k % divisor
      if q' < mantissaLimit then divideFrom divisor q' r' (places - k) true
      else (dropPlace? q' (places - k) (r' != 0)).map fun (q, places) => (q, places, true)
termination_by places
decreasing_by
  · simp_all only [maxScale]; omega
  · have := widening_le q places
    omega

/-- Drops eight zero places at a time as long as the low word is zero. -/
def dropEights (q : Nat) : Nat → Nat × Nat
  | scale + 8 =>
      if q % wordLimit = 0 && q % tenTo 8 = 0 then dropEights (q / tenTo 8) scale
      else (q, scale + 8)
  | scale => (q, scale)

def dropZeros (k : Nat) (n : Nat × Nat) : Nat × Nat :=
  if k ≤ n.2 && n.1 % tenTo k = 0 then (n.1 / tenTo k, n.2 - k) else n

/-- Shortens an inexact quotient by groups of zero places: eights, then four,
two and one. -/
def stripZeros (q scale : Nat) : Nat × Nat :=
  dropZeros 1 (dropZeros 2 (dropZeros 4 (dropEights q scale)))

/-- The quotient to 28 places, or to as many as fit, rounded half to even. -/
def div? (a b : Decimal) : Option Decimal :=
  if b.isZero then none
  else if a.isZero then some zero
  else
    let places := maxScale + b.scale - a.scale
    (divideFrom b.mantissa (a.mantissa / b.mantissa) (a.mantissa % b.mantissa) places
        false).bind fun (q, places, inexact) =>
      let scale := maxScale - places
      let (q, scale) := if inexact then stripZeros q scale else (q, scale)
      ofParts? (a.negative != b.negative) q scale

end Paydesk.Decimal

import Paydesk.Bytes.Basic
import Paydesk.Numbers
import Paydesk.Text.Blank

/-!
Values in the columns of a table. A column may prefer text or integers; values
that can be turned into what it prefers without loss are.
-/

namespace Paydesk.Invoices

open Text

/-- A number that is no integer of 64 bits stands for the digits and the power
of ten of which it is the product. -/
inductive Cell
  | null
  | integer (value : Int)
  | real (digits power : Int)
  | text (value : String)
  | blob (value : Bytes)
deriving DecidableEq, Repr

inductive Affinity
  | text
  | integer
  | any
deriving DecidableEq, Repr

namespace Cell

/-- The name of a cell's class. -/
def className : Cell → String
  | .null => "Null"
  | .integer _ => "Integer"
  | .real .. => "Real"
  | .text _ => "Text"
  | .blob _ => "Blob"

/-- The powers of ten that are multiplied out. -/
def maxPower : Int := 18

/-- The cell of a number. -/
def ofNumber (digits power : Int) : Cell :=
  let integer (n : Int) : Cell :=
    if -(limit63 : Int) ≤ n ∧ n < limit63 then .integer n else .real digits power
  if digits = 0 then .integer 0
  else if 0 ≤ power then
    if power ≤ maxPower then integer (digits * tenTo power.toNat) else .real digits power
  else
    let scale := (tenTo power.natAbs : Int)
    if digits % scale = 0 then integer (digits / scale) else .real digits power

def readDigits (cs : List Char) : Int := cs.foldl (fun n c => n * 10 + digitValue c) 0

/-- Splits a sign off. -/
def signed : List Char → Int × List Char
  | '-' :: cs => (-1, cs)
  | '+' :: cs => (1, cs)
  | cs => (1, cs)

/-- The number that a text spells in full: digits with or without a point and an
exponent. -/
def numberOf? (text : String) : Option Cell :=
  let (sign, cs) := signed (trim text.toList)
  let (whole, cs) := cs.span isAsciiDigit
  let (part, cs) := match cs with
    | '.' :: cs => cs.span isAsciiDigit
    | cs => ([], cs)
  if whole.isEmpty && part.isEmpty then none
  else
    let digits := sign * readDigits (whole ++ part)
    match cs with
    | [] => some (ofNumber digits (-part.length))
    | c :: cs =>
        let (sign, power) := signed cs
        if (c = 'e' ∨ c = 'E') ∧ !power.isEmpty ∧ power.all isAsciiDigit then
          some (ofNumber digits (sign * readDigits power - part.length))
        else none

/-- What a column of some affinity keeps of a value. -/
def store (affinity : Affinity) (cell : Cell) : Cell :=
  match affinity, cell with
  | .text, .integer n => .text (toString n)
  | .integer, .text s => (numberOf? s).getD cell
  | _, cell => cell

end Cell

end Paydesk.Invoices

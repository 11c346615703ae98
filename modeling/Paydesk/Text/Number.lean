import Paydesk.Text.Blank

namespace Paydesk.Text

/-- Why a text is no integer of a given range. -/
inductive NumberError
  | empty
  | invalidDigit
  | tooLarge
deriving DecidableEq, Repr

def NumberError.message : NumberError → String
  | .empty => "cannot parse integer from empty string"
  | .invalidDigit => "invalid digit found in string"
  | .tooLarge => "number too large to fit in target type"

/-- Reads digits up to the first one that is none or that goes beyond the
limit. -/
def readDigits (limit : Nat) (n : Nat) : List Char → Except NumberError Nat
  | [] => .ok n
  | c :: cs =>
      if !isAsciiDigit c then .error .invalidDigit
      else
        let n := n * 10 + digitValue c
        if n < limit then readDigits limit n cs else .error .tooLarge

/-- Reads an integer below a limit. It may have a plus sign. -/
def readNat (limit : Nat) (text : String) : Except NumberError Nat :=
  match text.toList with
  | [] => .error .empty
  | ['+'] => .error .invalidDigit
  | '+' :: cs => readDigits limit 0 cs
  | cs => readDigits limit 0 cs

end Paydesk.Text

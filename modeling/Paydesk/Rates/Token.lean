import Paydesk.Decimal.Read

namespace Paydesk.Rates

inductive Token
  | name (text : String)
  | number (value : Decimal)
  | plus
  | minus
  | star
  | slash
  | opening
  | closing
  | comma
  | assign
  | semicolon
  | newline
deriving DecidableEq

/-- How error texts show a token. -/
def Token.describe : Token → String
  | .name text => s!"Identifier(\"{text}\")"
  | .number value => s!"Number({value.render})"
  | .plus => "Plus"
  | .minus => "Minus"
  | .star => "Star"
  | .slash => "Slash"
  | .opening => "LParen"
  | .closing => "RParen"
  | .comma => "Comma"
  | .assign => "Assign"
  | .semicolon => "Semicolon"
  | .newline => "Newline"

def Token.describeOption : Option Token → String
  | some token => s!"Some({token.describe})"
  | none => "None"

/-- Why a script is not well formed. -/
inductive Fault
  | invalidNumber (literal : String) (cause : Decimal.ReadError)
  | unexpectedCharacter (c : Char)
  | expected (token : Token) (found : Option Token)
  | afterStatement (found : Token)
  | unexpected (found : Option Token)
deriving DecidableEq

def Fault.message : Fault → String
  | .invalidNumber literal cause => s!"invalid number '{literal}': {cause.message}"
  | .unexpectedCharacter c => s!"unexpected character '{c}'"
  | .expected token found =>
      s!"expected {token.describe}, found {Token.describeOption found}"
  | .afterStatement found => s!"unexpected {found.describe} after statement"
  | .unexpected found => s!"unexpected {Token.describeOption found}"

/-- A fault and the line it is on. -/
structure SyntaxError where
  line : Nat
  fault : Fault
deriving DecidableEq

def SyntaxError.message (e : SyntaxError) : String := s!"line {e.line}: {e.fault.message}"

/-- A token and the line it stands on. -/
structure Placed where
  token : Token
  line : Nat
deriving DecidableEq

namespace Token

def isNumberChar (c : Char) : Bool := Text.isAsciiDigit c || c == '.'

def isNameStart (c : Char) : Bool := Text.isAsciiLetter c || c == '_'

def isNameChar (c : Char) : Bool := isNameStart c || Text.isAsciiDigit c

/-- The tokens of one character, a slash apart. -/
def symbol? : Char → Option Token
  | '+' => some .plus
  | '-' => some .minus
  | '*' => some .star
  | '(' => some .opening
  | ')' => some .closing
  | ',' => some .comma
  | '=' => some .assign
  | ';' => some .semicolon
  | _ => none

/-- How many parentheses are open after a token; one that closes none is
ignored. -/
def depthAfter (token : Token) (depth : Nat) : Nat :=
  match token with
  | .opening => depth + 1
  | .closing => depth - 1
  | _ => depth

theorem length_dropWhile_le {α : Type} (p : α → Bool) (l : List α) :
    (l.dropWhile p).length ≤ l.length :=
  (List.dropWhile_suffix p).length_le

/-- Splits a script into tokens. Between parentheses a line end is a blank, and
two slashes hide the rest of the line. -/
def scan (line depth : Nat) : List Char → Except SyntaxError (List Placed)
  | [] => .ok []
  | '\n' :: cs =>
      if depth = 0 then (scan (line + 1) depth cs).map (⟨.newline, line⟩ :: ·)
      else scan (line + 1) depth cs
  | '/' :: '/' :: cs => scan line depth (cs.dropWhile (· != '\n'))
  | '/' :: cs => (scan line depth cs).map (⟨.slash, line⟩ :: ·)
  | c :: cs =>
      if Text.isBlank c then scan line depth cs
      else if isNumberChar c then
        let literal := c :: cs.takeWhile isNumberChar
        match Decimal.read literal with
        | .error cause => .error ⟨line, .invalidNumber (String.ofList literal) cause⟩
        | .ok value =>
            (scan line depth (cs.dropWhile isNumberChar)).map (⟨.number value, line⟩ :: ·)
      else if isNameStart c then
        let text := String.ofList (c :: cs.takeWhile isNameChar)
        (scan line depth (cs.dropWhile isNameChar)).map (⟨.name text, line⟩ :: ·)
      else
        match symbol? c with
        | some token => (scan line (token.depthAfter depth) cs).map (⟨token, line⟩ :: ·)
        | none => .error ⟨line, .unexpectedCharacter c⟩
termination_by cs => cs.length
decreasing_by
  all_goals simp only [List.length_cons]
  all_goals first
    | omega
    | exact Nat.lt_succ_of_le (length_dropWhile_le _ _)
    | exact Nat.lt_succ_of_lt (Nat.lt_succ_of_le (length_dropWhile_le _ _))

end Token

/-- The tokens of a script, whose lines are counted from one. -/
def tokenize (script : String) : Except SyntaxError (List Placed) :=
  Token.scan 1 0 script.toList

end Paydesk.Rates

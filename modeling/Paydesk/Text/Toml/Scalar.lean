import Paydesk.Numbers
import Paydesk.Text.Toml.Basic

/-!
Strings, numbers, dates and times of TOML documents. Readers of strings get the
text behind the opening quotes and give the text behind the closing ones.
-/

namespace Paydesk.Text.Toml

/-- Characters that may stand in strings and comments. -/
def isPlain (c : Char) : Bool := c == '\t' || (0x20 ≤ c.toNat && c.toNat ≠ 0x7f)

def isBlank (c : Char) : Bool := c == ' ' || c == '\t'

def skipBlanks (cs : List Char) : List Char := cs.dropWhile isBlank

/-- The text behind a line break. -/
def newline? : List Char → Option (List Char)
  | '\n' :: cs => some cs
  | '\r' :: '\n' :: cs => some cs
  | _ => none

def hexValue? (c : Char) : Option Nat :=
  if isAsciiDigit c then some (digitValue c)
  else if 'a' ≤ c ∧ c ≤ 'f' then some (c.toNat - 0x57)
  else if 'A' ≤ c ∧ c ≤ 'F' then some (c.toNat - 0x37)
  else none

/-- A character given by so many hexadecimal digits. -/
def codePoint? (width : Nat) (cs : List Char) : Option (Char × List Char) := do
  let digits ← (cs.take width).mapM hexValue?
  let code := digits.foldl (fun n d => n * 16 + d) 0
  if digits.length = width ∧ code.isValidChar then some (Char.ofNat code, cs.drop width) else none

/-- The character that stands for what follows a backslash. -/
def escape? : List Char → Option (Char × List Char)
  | 'b' :: cs => some ('\x08', cs)
  | 't' :: cs => some ('\t', cs)
  | 'n' :: cs => some ('\n', cs)
  | 'f' :: cs => some ('\x0c', cs)
  | 'r' :: cs => some ('\r', cs)
  | '"' :: cs => some ('"', cs)
  | '\\' :: cs => some ('\\', cs)
  | 'u' :: cs => codePoint? 4 cs
  | 'U' :: cs => codePoint? 8 cs
  | _ => none

def basicString? : Nat → List Char → Option (List Char × List Char)
  | 0, _ => none
  | fuel + 1, cs =>
      match cs with
      | '"' :: cs => some ([], cs)
      | '\\' :: cs => do
          let (c, cs) ← escape? cs
          let (text, rest) ← basicString? fuel cs
          some (c :: text, rest)
      | c :: cs =>
          if isPlain c then (basicString? fuel cs).map fun (text, rest) => (c :: text, rest)
          else none
      | [] => none

def literalString? : List Char → Option (List Char × List Char)
  | '\'' :: cs => some ([], cs)
  | c :: cs =>
      if isPlain c then (literalString? cs).map fun (text, rest) => (c :: text, rest) else none
  | [] => none

/-- The text behind the blanks and line breaks after a backslash that ends a
line. -/
def joinedLine? (cs : List Char) : Option (List Char) :=
  (newline? (skipBlanks cs)).map fun rest =>
    rest.dropWhile fun c => isBlank c || c == '\n' || c == '\r'

/-- The end of a string in triple quotes. Up to two more quotes before the
closing ones belong to the string. -/
def closing? (quote : Char) (cs : List Char) : Option (List Char × List Char) :=
  let quotes := cs.takeWhile (· == quote)
  let count := min quotes.length 5
  if count < 3 then none else some (quotes.take (count - 3), cs.drop count)

/-- A string in triple quotes, with escapes or without. Line breaks are single
characters in it. -/
def longString? (quote : Char) (escapes : Bool) : Nat → List Char → Option (List Char × List Char)
  | 0, _ => none
  | fuel + 1, cs =>
      match closing? quote cs with
      | some end_ => some end_
      | none =>
          match newline? cs with
          | some cs => (longString? quote escapes fuel cs).map fun (text, rest) => ('\n' :: text, rest)
          | none =>
              match cs with
              | [] => none
              | c :: cs =>
                  if c == '\\' && escapes then
                    match joinedLine? cs with
                    | some cs => longString? quote escapes fuel cs
                    | none => do
                        let (c, cs) ← escape? cs
                        let (text, rest) ← longString? quote escapes fuel cs
                        some (c :: text, rest)
                  else if isPlain c then
                    (longString? quote escapes fuel cs).map fun (text, rest) => (c :: text, rest)
                  else none

/-- A string of any form. A line break right behind three opening quotes does
not count. -/
def string? (cs : List Char) : Option (String × List Char) :=
  let fuel := cs.length + 1
  let long (quote : Char) (escapes : Bool) (cs : List Char) :=
    longString? quote escapes fuel ((newline? cs).getD cs)
  let read := match cs with
    | '"' :: '"' :: '"' :: cs => long '"' true cs
    | '\'' :: '\'' :: '\'' :: cs => long '\'' false cs
    | '"' :: cs => basicString? fuel cs
    | '\'' :: cs => literalString? cs
    | _ => none
  read.map fun (text, rest) => (String.ofList text, rest)

/-- The digits of a number in which single underscores may stand between two
digits. -/
def digits? (isDigit : Char → Bool) : List Char → Option (List Char)
  | [] => none
  | [c] => if isDigit c then some [c] else none
  | c :: '_' :: cs => if isDigit c then (digits? isDigit cs).map (c :: ·) else none
  | c :: cs => if isDigit c then (digits? isDigit cs).map (c :: ·) else none

def inBase (base : Nat) (digits : List Char) : Nat :=
  digits.foldl (fun n c => n * base + (hexValue? c).getD 0) 0

/-- Whole decimal digits, without needless zeros in front. -/
def decimal? (cs : List Char) : Option (List Char) := do
  let digits ← digits? isAsciiDigit cs
  if 1 < digits.length && digits.head? == some '0' then none else some digits

def based? (base : Nat) (cs : List Char) : Option Int :=
  (digits? (fun c => (hexValue? c).any (· < base)) cs).map fun digits =>
    (inBase base digits : Int)

def signed (cs : List Char) : Bool × List Char :=
  match cs with
  | '-' :: cs => (true, cs)
  | '+' :: cs => (false, cs)
  | cs => (false, cs)

def integer? (cs : List Char) : Option Int := do
  let n ← match cs with
    | '0' :: 'x' :: cs => based? 16 cs
    | '0' :: 'o' :: cs => based? 8 cs
    | '0' :: 'b' :: cs => based? 2 cs
    | cs =>
        let (negative, cs) := signed cs
        (decimal? cs).map fun digits =>
          if negative then -(inBase 10 digits : Int) else (inBase 10 digits : Int)
  if -(limit63 : Int) ≤ n ∧ n < limit63 then some n else none

/-- The exponent of a number, with its letter in front. -/
def exponent? : List Char → Option Int
  | c :: cs =>
      if c == 'e' || c == 'E' then
        let (negative, cs) := signed cs
        (digits? isAsciiDigit cs).map fun digits =>
          if negative then -(inBase 10 digits : Int) else (inBase 10 digits : Int)
      else none
  | [] => none

/-- A number with a point or an exponent. Numbers that are too large are none,
unless they are negative. -/
def float? (cs : List Char) : Option Binary.Value := do
  let (negative, cs) := signed cs
  match cs with
  | ['i', 'n', 'f'] => some (.infinite negative)
  | ['n', 'a', 'n'] => some .notANumber
  | cs =>
      let isMark (c : Char) : Bool := c == '.' || c == 'e' || c == 'E'
      let whole ← decimal? (cs.takeWhile (!isMark ·))
      let (fraction, rest) ← match cs.dropWhile (!isMark ·) with
        | '.' :: cs =>
            let isExponent (c : Char) : Bool := c == 'e' || c == 'E'
            (digits? isAsciiDigit (cs.takeWhile (!isExponent ·))).map
              fun digits => (digits, cs.dropWhile (!isExponent ·))
        | cs => if cs.isEmpty then none else some ([], cs)
      let exponent ← if rest.isEmpty then some 0 else exponent? rest
      match Binary.ofDecimal .double negative (inBase 10 (whole ++ fraction))
          (exponent - fraction.length) with
      | .infinite false => none
      | value => some value

def pad (width n : Nat) : String :=
  let ds := Nat.toDigits 10 n
  String.ofList (List.replicate (width - ds.length) '0' ++ ds)

/-- So many decimal digits. -/
def fixed? (width : Nat) (cs : List Char) : Option (Nat × List Char) :=
  let ds := cs.take width
  if ds.length = width ∧ ds.all isAsciiDigit then some (inBase 10 ds, cs.drop width) else none

def daysIn (year month : Nat) : Nat :=
  if month = 2 then
    if year % 4 = 0 ∧ (year % 100 ≠ 0 ∨ year % 400 = 0) then 29 else 28
  else if [4, 6, 9, 11].contains month then 30 else 31

def expect? (c : Char) : List Char → Option (List Char)
  | d :: cs => if c == d then some cs else none
  | [] => none

def date? (cs : List Char) : Option (String × List Char) := do
  let (year, cs) ← fixed? 4 cs
  let (month, cs) ← fixed? 2 (← expect? '-' cs)
  let (day, cs) ← fixed? 2 (← expect? '-' cs)
  if 1 ≤ month ∧ month ≤ 12 ∧ 1 ≤ day ∧ day ≤ daysIn year month then
    some (pad 4 year ++ "-" ++ pad 2 month ++ "-" ++ pad 2 day, cs)
  else none

/-- A time of the day. Of a fraction of a second nine places are kept, and of
those no zeros at the end. -/
def time? (cs : List Char) : Option (String × List Char) := do
  let (hour, cs) ← fixed? 2 cs
  let (minute, cs) ← fixed? 2 (← expect? ':' cs)
  let (second, cs) ← fixed? 2 (← expect? ':' cs)
  let (places, cs) ← match cs with
    | '.' :: cs =>
        let places := cs.takeWhile isAsciiDigit
        if places.isEmpty then none else some (places.take 9, cs.dropWhile isAsciiDigit)
    | cs => some ([], cs)
  let places := (places.reverse.dropWhile (· == '0')).reverse
  let fraction := if places.isEmpty then "" else "." ++ String.ofList places
  if hour < 24 ∧ minute < 60 ∧ second ≤ 60 then
    some (pad 2 hour ++ ":" ++ pad 2 minute ++ ":" ++ pad 2 second ++ fraction, cs)
  else none

/-- How far a clock is ahead. -/
def offset? : List Char → Option String
  | [] => some ""
  | ['Z'] | ['z'] => some "Z"
  | sign :: cs => do
      let (hours, cs) ← fixed? 2 cs
      let (minutes, cs) ← fixed? 2 (← expect? ':' cs)
      if (sign == '+' || sign == '-') && hours < 24 && minutes < 60 && cs.isEmpty then
        let sign := if hours = 0 ∧ minutes = 0 then "+" else sign.toString
        some (sign ++ pad 2 hours ++ ":" ++ pad 2 minutes)
      else none

/-- A date, a time, or both with or without an offset. -/
def moment? (cs : List Char) : Option String :=
  match date? cs with
  | some (date, []) => some date
  | some (date, c :: cs) => do
      if c == 'T' || c == 't' || c == ' ' then
        let (time, cs) ← time? cs
        some (date ++ "T" ++ time ++ (← offset? cs))
      else none
  | none =>
      match time? cs with
      | some (time, []) => some time
      | _ => none

/-- The characters of words and numbers. A date goes on behind a blank if a
digit follows there. -/
def token (cs : List Char) : List Char × List Char :=
  let isPart (c : Char) : Bool :=
    isAsciiLetter c || isAsciiDigit c || ['_', '+', '-', '.', ':'].contains c
  let (first, rest) := cs.span isPart
  match date? first, rest with
  | some (_, []), ' ' :: d :: rest =>
      if isAsciiDigit d then
        let (second, rest) := (d :: rest).span isPart
        (first ++ ' ' :: second, rest)
      else (first, ' ' :: d :: rest)
  | _, _ => (first, rest)

def scalar? (cs : List Char) : Option (Toml × List Char) := do
  match cs.head? with
  | some '"' | some '\'' => (string? cs).map fun (text, rest) => (.string text, rest)
  | _ =>
      let (word, rest) := token cs
      let value ←
        if word == "true".toList then some (.bool true)
        else if word == "false".toList then some (.bool false)
        else
          match integer? word, float? word with
          | some n, _ => some (.integer n)
          | none, some v => some (.float v)
          | none, none => (moment? word).map .moment
      some (value, rest)

end Paydesk.Text.Toml

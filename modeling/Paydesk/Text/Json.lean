import Paydesk.Text.Blank

namespace Paydesk.Text

/-- A JSON value. Numbers keep their digits as written, and objects keep the
order and the repetitions of their keys. -/
inductive Json
  | null
  | bool (value : Bool)
  | number (literal : String)
  | string (value : String)
  | array (items : List Json)
  | object (fields : List (String × Json))
deriving Inhabited

namespace Json

def ofNat (n : Nat) : Json := .number (toString n)

def ofInt (n : Int) : Json := .number (toString n)

def strings (texts : List String) : Json := .array (texts.map .string)

/-- A value that may be missing. -/
def ofOption {α : Type} (encode : α → Json) : Option α → Json
  | some a => encode a
  | none => .null

def isBlank (c : Char) : Bool := c == ' ' || c == '\t' || c == '\n' || c == '\r'

def skipBlanks (cs : List Char) : List Char := cs.dropWhile isBlank

def hexDigit? (c : Char) : Option Nat :=
  if isAsciiDigit c then some (digitValue c)
  else if 'a' ≤ c && c ≤ 'f' then some (c.toNat - 'a'.toNat + 10)
  else if 'A' ≤ c && c ≤ 'F' then some (c.toNat - 'A'.toNat + 10)
  else none

def hexQuad? : List Char → Option (Nat × List Char)
  | a :: b :: c :: d :: rest => do
      let a ← hexDigit? a
      let b ← hexDigit? b
      let c ← hexDigit? c
      let d ← hexDigit? d
      some (((a * 16 + b) * 16 + c) * 16 + d, rest)
  | _ => none

/-- A character after `\u`; one beyond the sixteen-bit range is written as two
such escapes. -/
def escapedUnit? (cs : List Char) : Option (Char × List Char) := do
  let (unit, rest) ← hexQuad? cs
  if 0xd800 ≤ unit && unit < 0xdc00 then
    match rest with
    | '\\' :: 'u' :: rest =>
        let (low, rest) ← hexQuad? rest
        if 0xdc00 ≤ low && low < 0xe000 then
          some (Char.ofNat (0x10000 + (unit - 0xd800) * 0x400 + (low - 0xdc00)), rest)
        else none
    | _ => none
  else if 0xdc00 ≤ unit && unit < 0xe000 then none
  else some (Char.ofNat unit, rest)

def simpleEscape? : Char → Option Char
  | '"' => some '"'
  | '\\' => some '\\'
  | '/' => some '/'
  | 'b' => some '\x08'
  | 'f' => some '\x0c'
  | 'n' => some '\n'
  | 'r' => some '\r'
  | 't' => some '\t'
  | _ => none

/-- The rest of a string after its opening quote. -/
def stringTail? : Nat → List Char → List Char → Option (String × List Char)
  | 0, _, _ => none
  | fuel + 1, done, cs =>
      match cs with
      | [] => none
      | '"' :: rest => some (String.ofList done.reverse, rest)
      | '\\' :: 'u' :: rest => do
          let (c, rest) ← escapedUnit? rest
          stringTail? fuel (c :: done) rest
      | '\\' :: e :: rest => do
          stringTail? fuel ((← simpleEscape? e) :: done) rest
      | c :: rest => if c.toNat < 0x20 then none else stringTail? fuel (c :: done) rest

def digits (cs : List Char) : List Char × List Char :=
  (cs.takeWhile isAsciiDigit, cs.dropWhile isAsciiDigit)

/-- A number: no needless leading zero, and digits on both sides of a point. -/
def number? (cs : List Char) : Option (String × List Char) := do
  let (sign, cs) := match cs with
    | '-' :: cs => (['-'], cs)
    | cs => ([], cs)
  let (whole, cs) := digits cs
  if whole.isEmpty || (whole.head? == some '0' && 1 < whole.length) then none
  else
    let (fraction, cs) ← match cs with
      | '.' :: cs =>
          let (ds, cs) := digits cs
          if ds.isEmpty then none else some ('.' :: ds, cs)
      | cs => some ([], cs)
    let (exponent, cs) ← match cs with
      | e :: cs' =>
          if e == 'e' || e == 'E' then
            let (sign, cs') := match cs' with
              | '+' :: cs' => (['+'], cs')
              | '-' :: cs' => (['-'], cs')
              | cs' => ([], cs')
            let (ds, cs') := digits cs'
            if ds.isEmpty then none else some (e :: sign ++ ds, cs')
          else some ([], cs)
      | [] => some ([], [])
    some (String.ofList (sign ++ whole ++ fraction ++ exponent), cs)

def word? (word : String) (value : Json) (cs : List Char) : Option (Json × List Char) :=
  let w := word.toList
  if cs.take w.length == w then some (value, cs.drop w.length) else none

mutual

def value? : Nat → List Char → Option (Json × List Char)
  | 0, _ => none
  | fuel + 1, cs =>
      match skipBlanks cs with
      | 'n' :: cs => word? "ull" .null cs
      | 't' :: cs => word? "rue" (.bool true) cs
      | 'f' :: cs => word? "alse" (.bool false) cs
      | '"' :: cs => (stringTail? (cs.length + 1) [] cs).map fun (s, rest) => (.string s, rest)
      | '[' :: cs =>
          match skipBlanks cs with
          | ']' :: cs => some (.array [], cs)
          | cs => (items? fuel cs).map fun (items, rest) => (.array items, rest)
      | '\x7b' :: cs =>
          match skipBlanks cs with
          | '\x7d' :: cs => some (.object [], cs)
          | cs => (fields? fuel cs).map fun (fields, rest) => (.object fields, rest)
      | cs => (number? cs).map fun (literal, rest) => (.number literal, rest)

/-- The items of an array up to its closing bracket. -/
def items? : Nat → List Char → Option (List Json × List Char)
  | 0, _ => none
  | fuel + 1, cs => do
      let (item, cs) ← value? fuel cs
      match skipBlanks cs with
      | ']' :: cs => some ([item], cs)
      | ',' :: cs =>
          let (items, cs) ← items? fuel cs
          some (item :: items, cs)
      | _ => none

/-- The fields of an object up to its closing brace. -/
def fields? : Nat → List Char → Option (List (String × Json) × List Char)
  | 0, _ => none
  | fuel + 1, cs => do
      match skipBlanks cs with
      | '"' :: cs =>
          let (key, cs) ← stringTail? (cs.length + 1) [] cs
          match skipBlanks cs with
          | ':' :: cs =>
              let (value, cs) ← value? fuel cs
              match skipBlanks cs with
              | '\x7d' :: cs => some ([(key, value)], cs)
              | ',' :: cs =>
                  let (fields, cs) ← fields? fuel cs
                  some ((key, value) :: fields, cs)
              | _ => none
          | _ => none
      | _ => none

end

/-- Reads a document that holds one value. -/
def parse? (text : String) : Option Json := do
  let cs := text.toList
  let (value, rest) ← value? (cs.length + 1) cs
  if (skipBlanks rest).isEmpty then some value else none

def hexChar (n : Nat) : Char := if n < 10 then Char.ofNat (0x30 + n) else Char.ofNat (0x57 + n)

def escape (c : Char) : List Char :=
  match c with
  | '"' => ['\\', '"']
  | '\\' => ['\\', '\\']
  | '\n' => ['\\', 'n']
  | '\r' => ['\\', 'r']
  | '\t' => ['\\', 't']
  | '\x08' => ['\\', 'b']
  | '\x0c' => ['\\', 'f']
  | c =>
      if c.toNat < 0x20 then ['\\', 'u', '0', '0', hexChar (c.toNat / 16), hexChar (c.toNat % 16)]
      else [c]

def quote (s : String) : String :=
  String.ofList ('"' :: s.toList.flatMap escape ++ ['"'])

mutual

/-- Writes a value without blanks. -/
def render : Json → String
  | .null => "null"
  | .bool true => "true"
  | .bool false => "false"
  | .number literal => literal
  | .string value => quote value
  | .array items => "[" ++ ",".intercalate (renderItems items) ++ "]"
  | .object fields => "\x7b" ++ ",".intercalate (renderFields fields) ++ "\x7d"

def renderItems : List Json → List String
  | [] => []
  | item :: items => item.render :: renderItems items

def renderFields : List (String × Json) → List String
  | [] => []
  | (key, value) :: fields => (quote key ++ ":" ++ value.render) :: renderFields fields

end

/-- The last value under a key of an object. -/
def get? (key : String) : Json → Option Json
  | .object fields => (fields.reverse.find? (·.1 == key)).map (·.2)
  | _ => none

def string? : Json → Option String
  | .string s => some s
  | _ => none

def bool? : Json → Option Bool
  | .bool b => some b
  | _ => none

def array? : Json → Option (List Json)
  | .array items => some items
  | _ => none

/-- A number written with digits alone. -/
def nat? : Json → Option Nat
  | .number literal =>
      let cs := literal.toList
      if cs.all isAsciiDigit then some (cs.foldl (fun n c => n * 10 + digitValue c) 0) else none
  | _ => none

def int? : Json → Option Int
  | .number literal =>
      match literal.toList with
      | '-' :: cs => ((Json.number (String.ofList cs)).nat?).map fun n => -(n : Int)
      | _ => ((Json.number literal).nat?).map Int.ofNat
  | _ => none

end Json

end Paydesk.Text

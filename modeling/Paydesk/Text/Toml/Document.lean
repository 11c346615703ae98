import Paydesk.Text.Toml.Scalar

/-!
Documents: lines with a key and a value, under headers that name the table they
go to. A table is made by its header, or on the way to another one, or by a
dotted key, and each of these only once.
-/

namespace Paydesk.Text.Toml

/-- What stands under a key while a document is read. Values are complete. A
table is implicit as long as it has no header; a dotted key also makes one. Of
an array of tables the last one is still open. -/
inductive Node
  | value (v : Toml)
  | table (implicit dotted : Bool) (entries : List (String × Node))
  | tables (closed : List (List (String × Node))) (last : List (String × Node))
deriving Inhabited

abbrev Entries := List (String × Node)

namespace Entries

def find? (key : String) (entries : Entries) : Option Node := List.lookup key entries

def put (key : String) (node : Node) : Entries → Entries
  | [] => [(key, node)]
  | (k, n) :: entries =>
      if k == key then (key, node) :: entries else (k, n) :: put key node entries

/-- Changes the table at the end of a path, which is told whether a dotted key
made it. Tables on the way are made where there are none. A dotted key does not
go through a table with a header. -/
def change? (dotted : Bool) (f : Bool → Entries → Option Entries) :
    List String → Bool → Entries → Option Entries
  | [], isDotted, entries => f isDotted entries
  | key :: path, _, entries =>
      match entries.find? key with
      | none => (change? dotted f path dotted []).map fun sub =>
          entries.put key (.table true dotted sub)
      | some (.value _) => none
      | some (.table implicit isDotted sub) =>
          if dotted && !implicit then none
          else (change? dotted f path isDotted sub).map fun sub =>
            entries.put key (.table implicit isDotted sub)
      | some (.tables closed last) => (change? dotted f path false last).map fun last =>
          entries.put key (.tables closed last)

/-- Puts a value under a dotted key. -/
def define? (path : List String) (key : String) (value : Toml) (isDotted : Bool)
    (entries : Entries) : Option Entries :=
  let add (isDotted : Bool) (entries : Entries) : Option Entries :=
    if isDotted == path.isEmpty || (entries.find? key).isSome then none
    else some (entries.put key (.value value))
  change? true add path isDotted entries

/-- Opens a table by its header. -/
def openTable? (key : String) (entries : Entries) : Option Entries :=
  match entries.find? key with
  | none => some (entries.put key (.table false false []))
  | some (.table true false sub) => some (entries.put key (.table false false sub))
  | _ => none

/-- Adds a table to an array of tables. -/
def appendTable? (key : String) (entries : Entries) : Option Entries :=
  match entries.find? key with
  | none => some (entries.put key (.tables [] []))
  | some (.tables closed last) => some (entries.put key (.tables (closed ++ [last]) []))
  | _ => none

end Entries

mutual

def Node.close : Node → Toml
  | .value v => v
  | .table _ _ entries => .table (closeEntries entries)
  | .tables closed last => .array (closeTables closed ++ [.table (closeEntries last)])

def closeEntries : List (String × Node) → List (String × Toml)
  | [] => []
  | (key, node) :: entries => (key, node.close) :: closeEntries entries

def closeTables : List (List (String × Node)) → List Toml
  | [] => []
  | entries :: tables => .table (closeEntries entries) :: closeTables tables

end

def isBareKeyChar (c : Char) : Bool :=
  isAsciiLetter c || isAsciiDigit c || c == '_' || c == '-'

/-- One part of a key: bare, or a string on one line. -/
def simpleKey? (cs : List Char) : Option (String × List Char) :=
  match cs with
  | '"' :: cs => (basicString? (cs.length + 1) cs).map fun (k, rest) => (String.ofList k, rest)
  | '\'' :: cs => (literalString? cs).map fun (k, rest) => (String.ofList k, rest)
  | cs =>
      let (key, rest) := cs.span isBareKeyChar
      if key.isEmpty then none else some (String.ofList key, rest)

/-- The parts of a key, with points between them, and what follows it. -/
def key? : Nat → List Char → Option (List String × List Char)
  | 0, _ => none
  | fuel + 1, cs => do
      let (part, cs) ← simpleKey? (skipBlanks cs)
      match skipBlanks cs with
      | '.' :: cs => (key? fuel cs).map fun (parts, rest) => (part :: parts, rest)
      | cs => some ([part], cs)

/-- The text behind a comment, if there is one. -/
def comment : List Char → List Char
  | '#' :: cs => cs.dropWhile isPlain
  | cs => cs

/-- The text behind blanks, comments and line breaks. -/
def skipLines : Nat → List Char → List Char
  | 0, cs => cs
  | fuel + 1, cs =>
      let cs := comment (skipBlanks cs)
      match newline? cs with
      | some cs => skipLines fuel cs
      | none => cs

/-- Splits off the last part of a key. -/
def splitLast? (parts : List String) : Option (List String × String) :=
  parts.getLast?.map fun last => (parts.dropLast, last)

mutual

def value? : Nat → List Char → Option (Toml × List Char)
  | 0, _ => none
  | fuel + 1, cs =>
      match cs with
      | '[' :: cs => (items? fuel cs).map fun (items, rest) => (.array items, rest)
      | '\x7b' :: cs =>
          match skipBlanks cs with
          | '\x7d' :: cs => some (.table [], cs)
          | cs => (fields? fuel [] cs).map fun (entries, rest) => (.table (closeEntries entries), rest)
      | cs => scalar? cs

/-- The items of an array up to its closing bracket. -/
def items? : Nat → List Char → Option (List Toml × List Char)
  | 0, _ => none
  | fuel + 1, cs =>
      match skipLines cs.length cs with
      | ']' :: cs => some ([], cs)
      | cs => do
          let (item, cs) ← value? fuel cs
          match skipLines cs.length cs with
          | ']' :: cs => some ([item], cs)
          | ',' :: cs => (items? fuel cs).map fun (items, rest) => (item :: items, rest)
          | _ => none

/-- The fields of an inline table up to its closing brace. -/
def fields? : Nat → Entries → List Char → Option (Entries × List Char)
  | 0, _, _ => none
  | fuel + 1, entries, cs => do
      let (entries, cs) ← field? fuel [] entries cs
      match skipBlanks cs with
      | '\x7d' :: cs => some (entries, cs)
      | ',' :: cs => fields? fuel entries cs
      | _ => none

/-- A key and a value for the table at the end of a path. -/
def field? : Nat → List String → Entries → List Char → Option (Entries × List Char)
  | 0, _, _, _ => none
  | fuel + 1, target, entries, cs => do
      let (parts, cs) ← key? (cs.length + 1) cs
      let (path, key) ← splitLast? parts
      let (value, rest) ← value? fuel (skipBlanks (← expect? '=' cs))
      let entries ← Entries.change? false (Entries.define? path key value) target false entries
      some (entries, rest)

end

/-- A header in brackets. Gives the path of the table that lines go to from
there on. -/
def header? (entries : Entries) (cs : List Char) :
    Option (List String × Entries × List Char) := do
  let (double, cs) := match cs with
    | '[' :: cs => (true, cs)
    | cs => (false, cs)
  let (parts, cs) ← key? (cs.length + 1) cs
  let (path, key) ← splitLast? parts
  let rest ← if double then expect? ']' (← expect? ']' cs) else expect? ']' cs
  let add (_ : Bool) (entries : Entries) : Option Entries :=
    if double then entries.appendTable? key else entries.openTable? key
  some (parts, ← Entries.change? false add path false entries, rest)

/-- Reads lines from some place on. -/
def lines? : Nat → List String → Entries → List Char → Option Entries
  | 0, _, _, _ => none
  | fuel + 1, target, entries, cs =>
      match skipLines (cs.length + 1) cs with
      | [] => some entries
      | cs => do
          let (target, entries, rest) ← match cs with
            | '[' :: cs => header? entries cs
            | cs => (field? (cs.length + 1) target entries cs).map fun (entries, rest) =>
                (target, entries, rest)
          let rest := comment (skipBlanks rest)
          if rest.isEmpty then some entries else lines? fuel target entries (← newline? rest)

/-- Reads a document. A mark of the byte order in front does not count. -/
def parse? (text : String) : Option (List (String × Toml)) :=
  let cs := match text.toList with
    | '\ufeff' :: cs => cs
    | cs => cs
  (lines? (cs.length + 1) [] [] cs).map closeEntries

end Paydesk.Text.Toml

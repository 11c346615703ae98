import Paydesk.Decimal.Shortest
import Paydesk.Numbers
import Paydesk.Text.Json
import Paydesk.Text.Number
import Paydesk.Text.Toml.Basic

/-!
Settings from several sources: what comes later goes before what came earlier,
and tables are merged. A value of another type is converted where that makes
sense.
-/

namespace Paydesk.Service

open Text

abbrev Layer := List (String × Toml)

namespace Layer

/-- The entries of a table; other values have none. -/
def entriesOf : Toml → Layer
  | .table entries => entries
  | _ => []

mutual

/-- Puts a value under a key. A table is merged with what is there. -/
def put (settings : Layer) (key : String) : Toml → Layer
  | .table entries =>
      Toml.replace key (merge ((Toml.lookup? key settings).getD (.table [])) entries) settings
  | value => Toml.replace key value settings

def merge (target : Toml) : List (String × Toml) → Toml
  | [] => target
  | (key, value) :: entries => merge (.table (put (entriesOf target) key value)) entries

end

/-- Puts a value at the end of a path. -/
def putAt : List String → Toml → Layer → Layer
  | [], _, settings => settings
  | [key], value, settings => put settings key value
  | key :: path, value, settings =>
      let inner := (Toml.lookup? key settings).elim [] entriesOf
      Toml.replace key (.table (putAt path value inner)) settings

/-- The parts of a key between points, if it is a path. -/
def pathOf (key : String) : List String :=
  let isPart (part : String) : Bool :=
    !part.isEmpty && part.toList.all fun c =>
      isAsciiLetter c || isAsciiDigit c || c == '_' || c == '-'
  let parts := key.splitOn "."
  if parts.all isPart then parts else [key]

/-- Puts all of a document on top of what there is. -/
def addDocument (settings : Layer) (document : List (String × Toml)) : Layer :=
  document.foldl (fun settings (key, value) => putAt (pathOf key) value settings) settings

def addOption (settings : Layer) (path : List String) (value : Option Toml) : Layer :=
  value.elim settings fun value => putAt path value settings

end Layer

/-- The text that a value stands for. -/
def textOf? : Toml → Option String
  | .string s | .moment s => some s
  | .bool b => some (toString b)
  | .integer n => some (toString n)
  | .float v => some (v.render .double)
  | .array _ | .table _ => none

/-- The number below `2 ^ 64` that a value stands for. Texts may be words. -/
def countOf? : Toml → Option Nat
  | .integer n => if n < 0 then none else some n.toNat
  | .bool b => some b.toNat
  | .float v => some (v.toNatBelow .double limit64)
  | .string s | .moment s =>
      let word := lower s
      if ["true", "on", "yes"].contains word then some 1
      else if ["false", "off", "no"].contains word then some 0
      else (readNat limit64 s).toOption
  | .array _ | .table _ => none

/-- How a value is called in a message. -/
def describe : Toml → String
  | .string s | .moment s => "string " ++ Json.quote s
  | .bool b => s!"boolean `{b}`"
  | .integer n => s!"integer `{n}`"
  | .float v =>
      let text := v.render .double
      let isWhole := text.toList.all fun c => isAsciiDigit c || c == '-'
      "floating point `" ++ text ++ (if isWhole then ".0`" else "`")
  | .array _ => "sequence"
  | .table _ => "map"

end Paydesk.Service

import Paydesk.Decimal.Binary

namespace Paydesk.Text

/-- A value of a TOML document. Dates and times are kept as text. -/
inductive Toml
  | string (value : String)
  | integer (value : Int)
  | float (value : Binary.Value)
  | bool (value : Bool)
  | moment (text : String)
  | array (items : List Toml)
  | table (entries : List (String × Toml))
deriving Repr, Inhabited

namespace Toml

def lookup? (key : String) : List (String × Toml) → Option Toml := List.lookup key

/-- Puts a value under a key, in place of an earlier one. -/
def replace (key : String) (value : Toml) : List (String × Toml) → List (String × Toml)
  | [] => [(key, value)]
  | (k, v) :: entries =>
      if k == key then (key, value) :: entries else (k, v) :: replace key value entries

end Toml

end Paydesk.Text

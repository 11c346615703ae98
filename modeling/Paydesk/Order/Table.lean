namespace Paydesk

/-- Values under keys, kept in the order of the keys, at most one a key. -/
abbrev Table (κ : Type) (α : Type) := List (κ × α)

namespace Table

variable {κ α : Type} [Ord κ]

def empty : Table κ α := []

/-- Puts a value under a key, in place of an earlier one. -/
def insert (key : κ) (value : α) : Table κ α → Table κ α
  | [] => [(key, value)]
  | (k, v) :: entries =>
      match compare key k with
      | .lt => (key, value) :: (k, v) :: entries
      | .eq => (k, value) :: entries
      | .gt => (k, v) :: insert key value entries

def find? (key : κ) : Table κ α → Option α
  | [] => none
  | (k, v) :: entries => if compare key k == .eq then some v else find? key entries

def contains (key : κ) (t : Table κ α) : Bool := (find? key t).isSome

def erase (key : κ) (t : Table κ α) : Table κ α :=
  t.filter fun entry => compare key entry.1 != .eq

def keys (t : Table κ α) : List κ := t.map (·.1)

def values (t : Table κ α) : List α := t.map (·.2)

end Table

end Paydesk

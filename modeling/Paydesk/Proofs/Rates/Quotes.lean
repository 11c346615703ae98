import Paydesk.Proofs.Order.Table
import Paydesk.Rates.Quotes

/-!
Which quotes a collection has. Pairs of a currency with itself are left out by
everything that adds quotes.
-/

namespace Paydesk

theorem Text.lower_lower (text : String) : Text.lower (Text.lower text) = Text.lower text := by
  have hchar : ∀ c : Char, c.toLower.toLower = c.toLower := by
    intro c
    unfold Char.toLower
    grind
  simp [Text.lower, Function.comp_def, hchar]

namespace Rates

instance : Std.TransOrd Pair :=
  inferInstanceAs (Std.TransCmp (compareLex (compareOn Pair.left) (compareOn Pair.right)))

instance : Std.LawfulEqOrd Pair where
  eq_of_compare := by
    intro p q h
    obtain ⟨hleft, hright⟩ := Ordering.then_eq_eq.mp h
    cases p
    cases q
    simp_all

instance : Std.TransOrd QuoteKey :=
  inferInstanceAs
    (Std.TransCmp (compareLex (compareOn QuoteKey.exchange) (compareOn QuoteKey.pair)))

instance : Std.LawfulEqOrd QuoteKey where
  eq_of_compare := by
    intro a b h
    obtain ⟨hexchange, hpair⟩ := Ordering.then_eq_eq.mp h
    cases a
    cases b
    simp_all

theorem QuoteKey.of_lower (exchange : String) (pair : Pair) :
    QuoteKey.of (Text.lower exchange) pair = .of exchange pair := by
  simp [QuoteKey.of, Text.lower_lower]

namespace Quotes

variable {qs : Quotes} {q : Quote} {exchange : String} {pair : Pair} {spread : Spread}

theorem contains_iff : qs.contains exchange pair ↔
    ∃ spread, qs.table.find? (.of exchange pair) = some spread :=
  Option.isSome_iff_exists

theorem contains_of_get? (h : (qs.get? exchange pair).isSome) : qs.contains exchange pair := by
  obtain ⟨spread, hspread⟩ := Option.isSome_iff_exists.mp h
  exact contains_iff.mpr ⟨some spread, Option.join_eq_some_iff.mp hspread⟩

theorem find?_add_self (h : q.pair.isIdentity = false) :
    (qs.add q).table.find? (.of q.exchange q.pair) = some q.spread := by
  simp [add, h, Table.find?_insert_self]

theorem find?_add_of_ne (h : QuoteKey.of exchange pair ≠ .of q.exchange q.pair) :
    (qs.add q).table.find? (.of exchange pair) = qs.table.find? (.of exchange pair) := by
  rw [add]
  split
  · rfl
  · exact Table.find?_insert_of_ne h _ _

theorem contains_add : (qs.add q).contains exchange pair ↔
    (q.pair.isIdentity = false ∧ QuoteKey.of exchange pair = .of q.exchange q.pair) ∨
      qs.contains exchange pair := by
  by_cases hkey : QuoteKey.of exchange pair = .of q.exchange q.pair
  · cases hsame : q.pair.isIdentity with
    | true => simp [add, hsame]
    | false => simp [contains_iff, hkey, find?_add_self hsame]
  · simp [contains_iff, hkey, find?_add_of_ne hkey]

theorem contains_foldl_add (quotes : List Quote) (qs : Quotes) :
    (quotes.foldl add qs).contains exchange pair ↔
      (∃ q ∈ quotes, q.pair.isIdentity = false ∧
        QuoteKey.of exchange pair = .of q.exchange q.pair) ∨ qs.contains exchange pair := by
  induction quotes generalizing qs with
  | nil => simp
  | cons q quotes ih =>
      rw [List.foldl_cons, ih, contains_add, List.exists_mem_cons_iff, or_left_comm, or_assoc]

theorem contains_ofList (quotes : List Quote) : (ofList quotes).contains exchange pair ↔
    ∃ q ∈ quotes, q.pair.isIdentity = false ∧
      QuoteKey.of exchange pair = .of q.exchange q.pair := by
  rw [ofList, contains_foldl_add]
  exact or_iff_left (by simp [contains, empty, Table.contains, Table.find?])

/-- A quote is listed under its exchange in lower case. -/
theorem mem_toList_of_contains (h : qs.contains exchange pair) :
    ∃ spread, ⟨Text.lower exchange, pair, spread⟩ ∈ qs.toList := by
  obtain ⟨spread, hspread⟩ := contains_iff.mp h
  exact ⟨spread, List.mem_map.mpr ⟨_, Table.mem_of_find?_eq_some hspread, rfl⟩⟩

theorem get?_lower : qs.get? (Text.lower exchange) pair = qs.get? exchange pair := by
  rw [get?, QuoteKey.of_lower, get?]

/-- Some quote of a list of calls is not known. -/
def Misses (qs : Quotes) (calls : List (String × Pair)) : Prop :=
  ∃ call ∈ calls, qs.get? call.1 call.2 = none

theorem misses_append (qs : Quotes) (calls others : List (String × Pair)) :
    qs.Misses (calls ++ others) ↔ qs.Misses calls ∨ qs.Misses others := by
  simp only [Misses, List.mem_append, or_and_right, exists_or]

theorem not_misses_nil (qs : Quotes) : ¬qs.Misses [] := by
  rintro ⟨_, hmem, -⟩
  cases hmem

/-- No pair of a currency with itself has a quote. -/
def Proper (qs : Quotes) : Prop := ∀ key ∈ qs.table.keys, key.pair.isIdentity = false

namespace Proper

theorem empty : Proper .empty := by
  intro key hkey
  cases hkey

theorem add (h : qs.Proper) (q : Quote) : (qs.add q).Proper := by
  intro key hkey
  rw [Quotes.add] at hkey
  split at hkey
  · exact h key hkey
  · rename_i hpair
    obtain ⟨entry, hentry, rfl⟩ := List.mem_map.mp hkey
    rcases Table.key_of_mem_insert hentry with hnew | hold
    · rw [hnew]
      exact Bool.eq_false_iff.mpr hpair
    · exact h _ hold

theorem set (h : qs.Proper) (exchange : String) (pair : Pair) (spread : Spread) :
    (qs.set exchange pair spread).Proper := h.add _

theorem ofList (quotes : List Quote) : (ofList quotes).Proper :=
  List.foldlRecOn quotes _ empty fun _ hqs q _ => hqs.add q

theorem extend (h : qs.Proper) (other : Quotes) : (qs.extend other).Proper := by
  refine List.foldlRecOn (motive := Proper) other.toList _ h fun qs hqs q _ => ?_
  split
  · exact hqs
  · exact hqs.add q

theorem fetchFrom (h : qs.Proper) (source : String → Pair → Option Spread) :
    (qs.fetchFrom source).Proper := by
  refine List.foldlRecOn (motive := Proper) qs.toList _ h fun qs hqs q _ => ?_
  split
  · exact hqs.set _ _ _
  · exact hqs

theorem isIdentity_of_contains (h : qs.Proper) (hcontains : qs.contains exchange pair) :
    pair.isIdentity = false := by
  obtain ⟨spread, hspread⟩ := contains_iff.mp hcontains
  exact h _ (List.mem_map_of_mem (Table.mem_of_find?_eq_some hspread))

end Proper

end Quotes

end Rates

end Paydesk

import Mathlib.Data.List.Induction
import Mathlib.Tactic.SplitIfs
import Paydesk.Rates.RuleBook

/-!
Which rule is found for a pair: one that a lookup finds, and none that is found is better.
The lookups of the inverse find the same rules, each seen from the other side.
-/

namespace Paydesk.Rates.RuleBook

namespace Match

variable {a b : Match}

theorem better_iff : a.better b ↔
    a.priority < b.priority ∨ a.priority = b.priority ∧ a.position < b.position := by
  simp [better]

/-- The better one of a match and what was found before it. -/
def pick (best : Option Match) (m : Match) : Option Match :=
  match best with
  | none => some m
  | some b => if m.better b then some m else some b

/-- The best of some matches: one of them, such that no other is better. -/
def IsBest (ms : List Match) : Option Match → Prop
  | none => ms = []
  | some best => best ∈ ms ∧ ∀ m ∈ ms, ¬m.better best

theorem IsBest.concat {ms : List Match} {best : Option Match} (h : IsBest ms best) (m : Match) :
    IsBest (ms ++ [m]) (pick best m) := by
  have hself : ¬m.better m := by simp [better_iff]
  cases best with
  | none =>
      obtain rfl : ms = [] := h
      exact ⟨List.mem_singleton_self m, List.forall_mem_singleton.mpr hself⟩
  | some b =>
      obtain ⟨hmem, hbest⟩ := h
      rw [pick]
      split_ifs with hbetter
      · refine ⟨by simp, List.forall_mem_append.mpr ⟨?_, List.forall_mem_singleton.mpr hself⟩⟩
        intro n hn hnm
        refine hbest n hn ?_
        rw [better_iff] at hbetter hnm ⊢
        omega
      · exact ⟨List.mem_append_left _ hmem,
          List.forall_mem_append.mpr ⟨hbest, List.forall_mem_singleton.mpr hbetter⟩⟩

end Match

variable {book : RuleBook} {pair : Pair} {m : Match}

/-- What the lookups of a pair find. -/
def found (book : RuleBook) (pair : Pair) : List Match :=
  (lookups pair).filterMap fun l =>
    (book.position? l.pair).map fun position => Match.mk l.priority position l.inverted

theorem mem_found : m ∈ book.found pair ↔ ∃ l ∈ lookups pair,
    book.position? l.pair = some m.position ∧ l.priority = m.priority ∧ l.inverted = m.inverted := by
  obtain ⟨priority, position, inverted⟩ := m
  simp only [found, List.mem_filterMap, Option.map_eq_some_iff, Match.mk.injEq]
  refine exists_congr fun l => and_congr_right fun _ => ?_
  constructor
  · rintro ⟨_, hposition, hpriority, rfl, hinverted⟩
    exact ⟨hposition, hpriority, hinverted⟩
  · rintro ⟨hposition, hpriority, hinverted⟩
    exact ⟨position, hposition, hpriority, rfl, hinverted⟩

theorem bestMatch?_eq_foldl (book : RuleBook) (pair : Pair) :
    book.bestMatch? pair = (book.found pair).foldl Match.pick none := rfl

theorem isBest_bestMatch? (book : RuleBook) (pair : Pair) :
    Match.IsBest (book.found pair) (book.bestMatch? pair) := by
  rw [bestMatch?_eq_foldl]
  induction book.found pair using List.reverseRecOn with
  | nil => rfl
  | append_singleton ms m ih =>
      rw [List.foldl_append]
      exact ih.concat m

theorem mem_pairs_iff {p : Pair} : p ∈ book.pairs ↔ ∃ position, book.position? p = some position := by
  simp only [pairs, position?, List.mem_map, ← Option.isSome_iff_exists, List.findIdx?_isSome,
    List.any_eq_true, beq_iff_eq]

/-- That no lookup of a pair finds a rule. -/
def Unmatched (book : RuleBook) (pair : Pair) : Prop := ∀ l ∈ lookups pair, l.pair ∉ book.pairs

theorem bestMatch?_eq_none : book.bestMatch? pair = none ↔ book.Unmatched pair := by
  have hbest := book.isBest_bestMatch? pair
  have hnone : book.found pair = [] ↔ book.Unmatched pair := by
    simp [found, Unmatched, mem_pairs_iff, List.filterMap_eq_nil_iff, ← Option.ne_none_iff_exists']
  rw [← hnone]
  cases hmatch : book.bestMatch? pair with
  | none =>
      rw [hmatch] at hbest
      exact iff_of_true rfl hbest
  | some m =>
      rw [hmatch] at hbest
      exact iff_of_false (by simp) (List.ne_nil_of_mem hbest.1)

theorem exists_rule_of_mem_found (h : m ∈ book.found pair) :
    ∃ rule ∈ book.rules, book.rules[m.position]? = some rule := by
  obtain ⟨l, -, hposition, -⟩ := mem_found.mp h
  obtain ⟨hlt, -⟩ := List.findIdx?_eq_some_iff_getElem.mp hposition
  exact ⟨_, List.getElem_mem hlt, List.getElem?_eq_getElem hlt⟩

/-- The priority that a lookup has for the inverse of a pair. -/
def facing : Nat → Nat
  | 0 => 1
  | 1 => 0
  | 2 => 3
  | 3 => 2
  | priority => priority

/-- What is found for a pair is found for its inverse, only from the other side. -/
theorem exists_found_inverse (h : m ∈ book.found pair) : ∃ n ∈ book.found pair.inverse,
    n.position = m.position ∧ n.priority = facing m.priority := by
  obtain ⟨priority, position, inverted⟩ := m
  obtain ⟨l, hl, hposition, rfl, rfl⟩ := mem_found.mp h
  have hturned : ∃ l' ∈ lookups pair.inverse,
      l'.pair = l.pair ∧ l'.priority = facing l.priority := by
    simp only [lookups, List.mem_cons, List.not_mem_nil, or_false] at hl
    rcases hl with rfl | rfl | rfl | rfl | rfl | rfl | rfl <;> simp [lookups, facing, Pair.inverse]
  obtain ⟨l', hl', hpair, hpriority⟩ := hturned
  exact ⟨⟨l'.priority, position, l'.inverted⟩,
    mem_found.mpr ⟨l', hl', hpair ▸ hposition, rfl, rfl⟩, rfl, hpriority⟩

theorem inverted_of_mem_found (h : m ∈ book.found pair) :
    (m.priority = 1 ∨ m.priority = 3) ∧ m.inverted = true ∨
      (m.priority = 0 ∨ m.priority = 2 ∨ m.priority = 4) ∧ m.inverted = false := by
  obtain ⟨l, hl, -, hpriority, hinverted⟩ := mem_found.mp h
  rw [← hpriority, ← hinverted]
  simp only [lookups, List.mem_cons, List.not_mem_nil, or_false] at hl
  rcases hl with rfl | rfl | rfl | rfl | rfl | rfl | rfl <;> simp

/-- A rule that is found through the inverse is what is found for the inverse itself, and
there it is not inverted. -/
theorem bestMatch?_inverse (h : book.bestMatch? pair = some m) (hinverted : m.inverted) :
    book.bestMatch? pair.inverse = some ⟨m.priority - 1, m.position, false⟩ := by
  have hbest := book.isBest_bestMatch? pair
  rw [h] at hbest
  obtain ⟨hmem, hnone⟩ := hbest
  obtain ⟨n, hn, hnPosition, hnPriority⟩ := exists_found_inverse hmem
  have hinverse := book.isBest_bestMatch? pair.inverse
  cases hb : book.bestMatch? pair.inverse with
  | none =>
      rw [hb] at hinverse
      exact absurd hinverse (List.ne_nil_of_mem hn)
  | some b =>
      rw [hb] at hinverse
      obtain ⟨hbmem, hbnone⟩ := hinverse
      -- The best match of the inverse, seen from the pair, is no better than that of the pair.
      obtain ⟨b', hb', hbPosition, hbPriority⟩ := exists_found_inverse hbmem
      have hworse := hbnone n hn
      have hworse' := hnone b' hb'
      rw [Match.better_iff, hnPosition, hnPriority] at hworse
      rw [Match.better_iff, hbPosition, hbPriority] at hworse'
      have hodd : m.priority = 1 ∨ m.priority = 3 := by
        simpa [hinverted] using inverted_of_mem_found hmem
      have hfacing : facing 0 = 1 ∧ facing 1 = 0 ∧ facing 2 = 3 ∧ facing 3 = 2 ∧ facing 4 = 4 := by
        decide
      have hsame : b.priority = m.priority - 1 ∧ b.position = m.position ∧ b.inverted = false := by
        rcases inverted_of_mem_found hbmem with ⟨hp, -⟩ | ⟨hp, hi⟩
        · rcases hodd with hm | hm <;> rcases hp with hp | hp <;>
            rw [hm, hp] at hworse hworse' <;> omega
        · refine ⟨?_, ?_, hi⟩ <;> rcases hodd with hm | hm <;> rcases hp with hp | hp | hp <;>
            rw [hm, hp] at hworse hworse' <;> omega
      obtain ⟨priority, position, inverted⟩ := b
      obtain ⟨rfl, rfl, rfl⟩ := hsame
      rfl

end Paydesk.Rates.RuleBook

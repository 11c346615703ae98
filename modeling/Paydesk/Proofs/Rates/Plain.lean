import Paydesk.Proofs.Decimal.Reading
import Paydesk.Proofs.Rates.Grammar
import Paydesk.Rates.RuleBook

/-!
The expressions that a script can contain: no number has a sign of its own, there is no
tuple of fewer than two items, and no quote.
-/

namespace Paydesk.Rates

namespace Token

/-- The letters, digits and underscores of a name, of which a digit is not the first. -/
def isIdentifier (text : String) : Bool :=
  match text.toList with
  | [] => false
  | c :: cs => isNameStart c && cs.all isNameChar

/-- What a token from a script is like. -/
def WellFormed : Token → Prop
  | .number value => value.negative = false
  | .name text => isIdentifier text
  | _ => True

theorem wellFormed_of_symbol? {c : Char} {t : Token} (h : symbol? c = some t) : t.WellFormed := by
  unfold symbol? at h
  split at h <;> cases h <;> trivial

theorem isIdentifier_ofList {c : Char} (hc : isNameStart c) (cs : List Char) :
    isIdentifier (String.ofList (c :: cs.takeWhile isNameChar)) := by
  simp only [isIdentifier, String.toList_ofList, Bool.and_eq_true, List.all_eq_true]
  exact ⟨hc, fun d hd => List.mem_takeWhile_imp hd⟩

theorem map_cons_eq_ok {line : Nat} {t : Token} {x : Except SyntaxError (List Placed)}
    {ps : List Placed} (h : x.map (⟨t, line⟩ :: ·) = .ok ps) :
    ∃ qs, x = .ok qs ∧ ps = ⟨t, line⟩ :: qs := by
  cases x with
  | error => cases h
  | ok qs => exact ⟨qs, rfl, (Except.ok.inj h).symm⟩

theorem wellFormed_of_scan {line depth : Nat} {cs : List Char} {ps : List Placed}
    (h : scan line depth cs = .ok ps) : ∀ p ∈ ps, p.token.WellFormed := by
  have hcons {x : Except SyntaxError (List Placed)} {line : Nat} {t : Token} {ps : List Placed}
      (h : x.map (⟨t, line⟩ :: ·) = .ok ps) (ht : t.WellFormed)
      (ih : ∀ {qs}, x = .ok qs → ∀ p ∈ qs, p.token.WellFormed) : ∀ p ∈ ps, p.token.WellFormed := by
    obtain ⟨qs, hqs, rfl⟩ := map_cons_eq_ok h
    exact List.forall_mem_cons.mpr ⟨ht, ih hqs⟩
  fun_induction scan line depth cs generalizing ps with
  | case1 =>
      cases h
      exact List.forall_mem_nil _
  | case2 line cs ih => exact hcons h trivial ih
  | case3 line depth cs hdepth ih => exact ih h
  | case4 line depth cs ih => exact ih h
  | case5 line depth cs hslash ih => exact hcons h trivial ih
  | case6 line depth c cs hline hslashes hslash hblank ih => exact ih h
  | case7 => cases h
  | case8 line depth c cs hline hslashes hslash hblank hnumber literal value hvalue =>
      rename_i ih
      refine hcons h (Decimal.nonnegative_of_read ?_ hvalue) ih
      rintro rfl
      exact absurd hnumber (by decide)
  | case9 line depth c cs hline hslashes hslash hblank hnumber hname text =>
      rename_i ih
      exact hcons h (isIdentifier_ofList hname cs) ih
  | case10 line depth c cs hline hslashes hslash hblank hnumber hname t ht ih =>
      exact hcons h (wellFormed_of_symbol? ht) ih
  | case11 => cases h

end Token

namespace Expr

mutual

/-- An expression that a script can contain, with names of a kind. -/
def Plain (p : String → Prop) : Expr → Prop
  | .literal value => value.negative = false
  | .quoted _ => False
  | .name text => p text
  | .tuple items => 2 ≤ items.length ∧ PlainList p items
  | .call callee args => callee.Plain p ∧ PlainList p args
  | .signed _ operand => operand.Plain p
  | .binary _ left right => left.Plain p ∧ right.Plain p

def PlainList (p : String → Prop) : List Expr → Prop
  | [] => True
  | e :: es => e.Plain p ∧ PlainList p es

end

mutual

/-- The names in an expression, those of exchanges among them. -/
def names : Expr → List String
  | .literal _ => []
  | .quoted _ => []
  | .name text => [text]
  | .tuple items => namesList items
  | .call callee args => callee.names ++ namesList args
  | .signed _ operand => operand.names
  | .binary _ left right => left.names ++ right.names

def namesList : List Expr → List String
  | [] => []
  | e :: es => e.names ++ namesList es

end

theorem length_normalizeList (es : List Expr) : (normalizeList es).length = es.length := by
  induction es with
  | nil => rfl
  | cons e es ih => simp [normalizeList, ih]

section

variable {p q : String → Prop}

mutual

theorem Plain.mem_names : (e : Expr) → e.Plain p → ∀ text ∈ e.names, p text
  | .literal _, _ => by simp [names]
  | .quoted _, h => h.elim
  | .name _, h => List.forall_mem_singleton.mpr h
  | .tuple items, h => PlainList.mem_names items h.2
  | .call callee args, h => List.forall_mem_append.mpr
      ⟨Plain.mem_names callee h.1, PlainList.mem_names args h.2⟩
  | .signed _ operand, h => Plain.mem_names operand h
  | .binary _ left right, h => List.forall_mem_append.mpr
      ⟨Plain.mem_names left h.1, Plain.mem_names right h.2⟩

theorem PlainList.mem_names : (es : List Expr) → PlainList p es → ∀ text ∈ namesList es, p text
  | [], _ => List.forall_mem_nil _
  | e :: es, h => List.forall_mem_append.mpr
      ⟨Plain.mem_names e h.1, PlainList.mem_names es h.2⟩

end

mutual

theorem Plain.of_names : (e : Expr) → e.Plain p → (∀ text ∈ e.names, q text) → e.Plain q
  | .literal _, h, _ => h
  | .quoted _, h, _ => h.elim
  | .name text, _, hq => hq text List.mem_cons_self
  | .tuple items, h, hq => ⟨h.1, PlainList.of_names items h.2 hq⟩
  | .call callee args, h, hq =>
      have hq := List.forall_mem_append.mp hq
      ⟨Plain.of_names callee h.1 hq.1, PlainList.of_names args h.2 hq.2⟩
  | .signed _ operand, h, hq => Plain.of_names operand h hq
  | .binary _ left right, h, hq =>
      have hq := List.forall_mem_append.mp hq
      ⟨Plain.of_names left h.1 hq.1, Plain.of_names right h.2 hq.2⟩

theorem PlainList.of_names : (es : List Expr) → PlainList p es →
    (∀ text ∈ namesList es, q text) → PlainList q es
  | [], _, _ => trivial
  | e :: es, h, hq =>
      have hq := List.forall_mem_append.mp hq
      ⟨Plain.of_names e h.1 hq.1, PlainList.of_names es h.2 hq.2⟩

end

theorem Plain.imp {e : Expr} (h : e.Plain p) (hpq : ∀ text, p text → q text) : e.Plain q :=
  Plain.of_names e h fun text htext => hpq text (Plain.mem_names e h text htext)

/-- That names of one kind become names of another in normal form. -/
structure Normalizes (p q : String → Prop) : Prop where
  pair : ∀ text pair, p text → Pair.parse? text = some pair → q pair.render
  lower : ∀ text, p text → q (Text.lower text)
  kept : ∀ text, p text → q text

mutual

theorem Plain.normalize (hpq : Normalizes p q) : (e : Expr) → e.Plain p → e.normalize.Plain q
  | .literal _, h => h
  | .quoted _, h => h.elim
  | .name text, h => by
      unfold Expr.normalize
      split
      · next pair hparse => exact hpq.pair text pair h hparse
      · exact hpq.kept text h
  | .tuple items, h =>
      ⟨(length_normalizeList items).symm ▸ h.1, PlainList.normalize hpq items h.2⟩
  | .call callee args, h => by
      have hargs := PlainList.normalize hpq args h.2
      cases callee with
      | name exchange => exact ⟨hpq.lower exchange h.1, hargs⟩
      | _ => exact ⟨h.1.imp hpq.kept, hargs⟩
  | .signed _ operand, h => Plain.normalize hpq operand h
  | .binary _ left right, h => ⟨Plain.normalize hpq left h.1, Plain.normalize hpq right h.2⟩

theorem PlainList.normalize (hpq : Normalizes p q) :
    (es : List Expr) → PlainList p es → PlainList q (normalizeList es)
  | [], _ => trivial
  | e :: es, h => ⟨Plain.normalize hpq e h.1, PlainList.normalize hpq es h.2⟩

end

end

end Expr

/-- A statement that a script can contain, with names of a kind. -/
def Statement.Plain (p : String → Prop) (s : Statement) : Prop :=
  (∀ target ∈ s.target, target.Plain p) ∧ s.value.Plain p

theorem Statement.Plain.normalize {p q : String → Prop} (hpq : Expr.Normalizes p q) {s : Statement}
    (h : s.Plain p) : s.normalize.Plain q := by
  refine ⟨?_, Expr.Plain.normalize hpq s.value h.2⟩
  intro target htarget
  obtain ⟨e, he, rfl⟩ := Option.map_eq_some_iff.mp htarget
  exact Expr.Plain.normalize hpq e (h.1 e he)

namespace Grammar

open Token

def Phrase.Plain (p : String → Prop) : Phrase → Prop
  | .sum e | .product e | .operand e | .calls e | .primary e => e.Plain p
  | .list es => Expr.PlainList p es ∧ es ≠ []

theorem Derives.plain {phrase : Phrase} {ts : List Token} (h : Derives phrase ts)
    (hts : ∀ t ∈ ts, t.WellFormed) : phrase.Plain (isIdentifier ·) := by
  induction h with
  | ofProduct _ ih | ofOperand _ ih | ofCalls _ ih | ofPrimary _ ih => exact ih hts
  | sum _ _ _ _ ihleft ihright | product _ _ _ _ ihleft ihright =>
      obtain ⟨hleft, hright⟩ := List.forall_mem_append.mp hts
      refine ⟨ihleft hleft, ihright fun t ht => hright t ?_⟩
      exact List.mem_cons_of_mem _ (List.mem_append_right _ ht)
  | signed _ _ ih => exact ih fun t ht => hts t (List.mem_cons_of_mem _ (List.mem_append_right _ ht))
  | call _ ih => exact ⟨ih (List.forall_mem_append.mp hts).1, trivial⟩
  | callWith _ _ ih ihargs =>
      obtain ⟨hcallee, hargs⟩ := List.forall_mem_append.mp hts
      refine ⟨ih hcallee, (ihargs fun t ht => hargs t ?_).1⟩
      exact List.mem_cons_of_mem _ (List.mem_append_left _ ht)
  | number value => exact hts _ List.mem_cons_self
  | name text => exact hts _ List.mem_cons_self
  | @group items _ _ ih =>
      obtain ⟨hitems, hne⟩ :=
        ih fun t ht => hts t (List.mem_cons_of_mem _ (List.mem_append_left _ ht))
      match items with
      | [] => exact absurd rfl hne
      | [item] => exact hitems.1
      | first :: second :: items => exact ⟨by simp, hitems⟩
  | single _ ih => exact ⟨⟨ih hts, trivial⟩, List.cons_ne_nil _ _⟩
  | cons _ _ ih ihrest =>
      obtain ⟨hfirst, hrest⟩ := List.forall_mem_append.mp hts
      exact ⟨⟨ih hfirst, (ihrest fun t ht => hrest t (List.mem_cons_of_mem _ ht)).1⟩,
        List.cons_ne_nil _ _⟩

theorem Says.plain {s : Statement} {ts : List Token} (h : Says s ts)
    (hts : ∀ t ∈ ts, t.WellFormed) : s.Plain (isIdentifier ·) := by
  cases h with
  | bare h => exact ⟨by simp, h.plain hts⟩
  | rule htarget _ hvalue =>
      obtain ⟨hleft, hright⟩ := List.forall_mem_append.mp hts
      refine ⟨?_, hvalue.plain fun t ht =>
        hright t (List.mem_cons_of_mem _ (List.mem_append_right _ ht))⟩
      rintro _ ⟨⟩
      exact htarget.plain hleft

theorem Lists.plain {ss : List Statement} {ts : List Token} (h : Lists ss ts)
    (hts : ∀ t ∈ ts, t.WellFormed) : ∀ s ∈ ss, s.Plain (isIdentifier ·) := by
  induction h with
  | nil => exact List.forall_mem_nil _
  | skip _ _ ih => exact ih (List.forall_mem_cons.mp hts).2
  | cons h _ _ ih =>
      obtain ⟨hfirst, hrest⟩ := List.forall_mem_append.mp hts
      exact List.forall_mem_cons.mpr ⟨h.plain hfirst, ih hrest⟩

end Grammar

theorem plain_of_parseScript {script : String} {ss : List Statement}
    (h : parseScript script = .ok ss) : ∀ s ∈ ss, s.Plain (Token.isIdentifier ·) := by
  obtain ⟨ps, hscan, hlists⟩ := parseScript_eq_ok_iff.mp h
  refine hlists.plain fun t ht => ?_
  obtain ⟨p, hp, rfl⟩ := List.mem_map.mp ht
  exact Token.wellFormed_of_scan hscan p hp

namespace RuleBook

theorem read_eq_ok_iff {script : String} {book : RuleBook} : read script = .ok book ↔
    ∃ ss, parseScript script = .ok ss ∧ ss.flatMap Statement.violations = [] ∧
      book = ⟨ss.map Statement.normalize, rulesOf (ss.map Statement.normalize), .zero⟩ := by
  unfold read
  cases parseScript script with
  | error => simp
  | ok ss =>
      dsimp only [ofStatements]
      split
      · next hnone =>
        constructor
        · rintro ⟨⟩
          exact ⟨ss, rfl, hnone, rfl⟩
        · rintro ⟨_, ⟨⟩, -, rfl⟩
          rfl
      · next hne =>
        constructor
        · rintro ⟨⟩
        · rintro ⟨_, ⟨⟩, hnone, -⟩
          exact absurd hnone hne

theorem exists_of_mem_rulesOf {rule : Pair × Expr} {ss : List Statement}
    (h : rule ∈ rulesOf ss) : ∃ s ∈ ss, s.pair? = some rule.1 ∧ s.value = rule.2 := by
  refine List.foldlRecOn ss _ ?_ (motive := fun rules => rule ∈ rules →
    ∃ s ∈ ss, s.pair? = some rule.1 ∧ s.value = rule.2) ?_ h
  · rintro ⟨⟩
  · intro rules hrules s hs hrule
    split at hrule
    · next pair hpair =>
      split_ifs at hrule
      · exact hrules hrule
      · rcases List.mem_append.mp hrule with hold | hnew
        · exact hrules hold
        · obtain rfl := List.mem_singleton.mp hnew
          exact ⟨s, hs, hpair, rfl⟩
    · exact hrules hrule

/-- A rule of a book is in normal form what some statement of the script says. -/
theorem exists_statement_of_read {script : String} {book : RuleBook} (h : read script = .ok book)
    {rule : Pair × Expr} (hrule : rule ∈ book.rules) :
    ∃ ss, parseScript script = .ok ss ∧ ∃ s ∈ ss, rule.2 = s.value.normalize := by
  obtain ⟨ss, hparse, -, rfl⟩ := read_eq_ok_iff.mp h
  obtain ⟨s, hs, -, hvalue⟩ := exists_of_mem_rulesOf hrule
  obtain ⟨written, hwritten, rfl⟩ := List.mem_map.mp hs
  exact ⟨ss, hparse, written, hwritten, hvalue.symm⟩

/-- The rules of a book are such as scripts can contain. -/
theorem plain_of_read {script : String} {book : RuleBook} (h : read script = .ok book) :
    ∀ rule ∈ book.rules, rule.2.Plain fun _ => True := by
  intro rule hrule
  obtain ⟨ss, hparse, s, hs, hvalue⟩ := exists_statement_of_read h hrule
  have hplain := (plain_of_parseScript hparse s hs).normalize
    (q := fun _ => True) ⟨fun _ _ _ _ => trivial, fun _ _ => trivial, fun _ _ => trivial⟩
  exact hvalue ▸ hplain.2

end RuleBook

end Paydesk.Rates

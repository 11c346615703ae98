import Mathlib.Data.List.Basic
import Paydesk.Proofs.Outcome
import Paydesk.Rates.Statement

/-!
What each reader of a script finds and where it stops, without the bounds that its
recursion needs.
-/

namespace Paydesk.Rates

namespace Grammar

section Readers

variable {α β : Type} {i j : Input} {e left callee : Expr}

/-- What a reader finds, and where it stops. -/
def Gives (outcome : Except SyntaxError (Read α i)) (value : α) (j : Input) : Prop :=
  ∃ r, outcome = .ok r ∧ r.value = value ∧ r.rest = j

def GivesOn (outcome : Except SyntaxError (ReadOn α i)) (value : α) (j : Input) : Prop :=
  ∃ r, outcome = .ok r ∧ r.value = value ∧ r.rest = j

/-- A result that further input is read on to. -/
theorem gives_bind_on {x : Except SyntaxError (Read α i)}
    {f : α → (k : Input) → Except SyntaxError (ReadOn β k)} {value : β} :
    Gives (do
      let first ← x
      let all ← f first.value first.rest
      .ok (all.after first.shorter)) value j ↔
    ∃ a k, Gives x a k ∧ GivesOn (f a k) value j := by
  constructor
  · rintro ⟨r, h, rfl, rfl⟩
    simp only [bind_eq_ok] at h
    obtain ⟨first, hfirst, all, hall, ⟨⟩⟩ := h
    exact ⟨_, _, ⟨first, hfirst, rfl, rfl⟩, all, hall, rfl, rfl⟩
  · rintro ⟨_, _, ⟨first, hfirst, rfl, rfl⟩, all, hall, rfl, rfl⟩
    exact ⟨_, bind_eq_ok.mpr ⟨first, hfirst, bind_eq_ok.mpr ⟨all, hall, rfl⟩⟩, rfl, rfl⟩

theorem givesOn_bind_on {i' : Input} {x : Except SyntaxError (Read α i')} {value : β}
    (f : α → (k : Input) → Except SyntaxError (ReadOn β k))
    (h : ∀ r : Read α i', r.rest.size ≤ i.size) :
    GivesOn (i := i) (do
      let first ← x
      let all ← f first.value first.rest
      .ok (all.through (h first))) value j ↔
    ∃ a k, Gives x a k ∧ GivesOn (f a k) value j := by
  constructor
  · rintro ⟨r, h, rfl, rfl⟩
    simp only [bind_eq_ok] at h
    obtain ⟨first, hfirst, all, hall, ⟨⟩⟩ := h
    exact ⟨_, _, ⟨first, hfirst, rfl, rfl⟩, all, hall, rfl, rfl⟩
  · rintro ⟨_, _, ⟨first, hfirst, rfl, rfl⟩, all, hall, rfl, rfl⟩
    exact ⟨_, bind_eq_ok.mpr ⟨first, hfirst, bind_eq_ok.mpr ⟨all, hall, rfl⟩⟩, rfl, rfl⟩

theorem givesOn_ok {value : α} {result : α} :
    GivesOn (.ok ⟨result, i, Nat.le_refl _⟩ : Except SyntaxError (ReadOn α i)) value j ↔
      value = result ∧ j = i := by
  constructor
  · rintro ⟨r, ⟨⟩, rfl, rfl⟩
    exact ⟨rfl, rfl⟩
  · rintro ⟨rfl, rfl⟩
    exact ⟨_, rfl, rfl, rfl⟩

theorem gives_expect {token : Token} :
    Gives (expect token i) () j ↔ i.peek? = some token ∧ j = i.rest := by
  constructor
  · rintro ⟨r, h, -, rfl⟩
    rw [expect] at h
    split at h
    · next found hfound =>
      split_ifs at h with heq
      · cases h
        exact ⟨heq ▸ hfound, rfl⟩
      · cases h
    · cases h
  · rintro ⟨h, rfl⟩
    refine ⟨⟨(), i.rest, Input.size_rest_lt h⟩, ?_, rfl, rfl⟩
    rw [expect]
    split
    · next found hfound => rw [if_pos (Option.some.inj (hfound.symm.trans h))]
    · next hnone => cases hnone.symm.trans h

theorem gives_sum : Gives (sum i) e j ↔
    ∃ left k, Gives (product i) left k ∧ GivesOn (sumOn left k) e j := by
  rw [sum]
  exact gives_bind_on

theorem givesOn_sumOn_of_none (h : sumOp? i.peek? = none) :
    GivesOn (sumOn left i) e j ↔ e = left ∧ j = i := by
  rw [sumOn]
  split
  · exact givesOn_ok
  · next op hop => cases hop.symm.trans h

theorem givesOn_sumOn_of_some {op : BinaryOp} (h : sumOp? i.peek? = some op) :
    GivesOn (sumOn left i) e j ↔ ∃ right k, Gives (product i.rest.skipNewlines) right k ∧
      GivesOn (sumOn (.binary op left right) k) e j := by
  rw [sumOn]
  split
  · next hop => cases hop.symm.trans h
  · next op' hop =>
    obtain rfl : op' = op := Option.some.inj (hop.symm.trans h)
    exact givesOn_bind_on (fun right k => sumOn (.binary op' left right) k) _

theorem gives_product : Gives (product i) e j ↔
    ∃ left k, Gives (operand i) left k ∧ GivesOn (productOn left k) e j := by
  rw [product]
  exact gives_bind_on

theorem givesOn_productOn_of_none (h : productOp? i.peek? = none) :
    GivesOn (productOn left i) e j ↔ e = left ∧ j = i := by
  rw [productOn]
  split
  · exact givesOn_ok
  · next op hop => cases hop.symm.trans h

theorem givesOn_productOn_of_some {op : BinaryOp} (h : productOp? i.peek? = some op) :
    GivesOn (productOn left i) e j ↔ ∃ right k, Gives (operand i.rest.skipNewlines) right k ∧
      GivesOn (productOn (.binary op left right) k) e j := by
  rw [productOn]
  split
  · next hop => cases hop.symm.trans h
  · next op' hop =>
    obtain rfl : op' = op := Option.some.inj (hop.symm.trans h)
    exact givesOn_bind_on (fun right k => productOn (.binary op' left right) k) _

theorem gives_operand_of_none (h : sign? i.peek? = none) : Gives (operand i) e j ↔
    ∃ callee k, Gives (primary i) callee k ∧ GivesOn (callsOn callee k) e j := by
  rw [operand]
  split
  · next s hs => cases hs.symm.trans h
  · exact gives_bind_on

theorem gives_operand_of_some {s : Sign} (h : sign? i.peek? = some s) : Gives (operand i) e j ↔
    ∃ inner, Gives (operand i.rest.skipNewlines) inner j ∧ e = .signed s inner := by
  rw [operand]
  split
  · next s' hs =>
    obtain rfl : s' = s := Option.some.inj (hs.symm.trans h)
    constructor
    · rintro ⟨r, hr, rfl, rfl⟩
      obtain ⟨inner, hinner, ⟨⟩⟩ := bind_eq_ok.mp hr
      exact ⟨_, ⟨inner, hinner, rfl, rfl⟩, rfl⟩
    · rintro ⟨_, ⟨inner, hinner, rfl, rfl⟩, rfl⟩
      exact ⟨_, bind_eq_ok.mpr ⟨inner, hinner, rfl⟩, rfl, rfl⟩
  · next hs => cases hs.symm.trans h

theorem givesOn_callsOn_of_ne (h : i.peek? ≠ some .opening) :
    GivesOn (callsOn callee i) e j ↔ e = callee ∧ j = i := by
  rw [callsOn]
  split
  · next hopening => exact absurd hopening h
  · exact givesOn_ok

theorem givesOn_callsOn_of_closing (h : i.peek? = some .opening)
    (hclosing : i.rest.peek? = some .closing) :
    GivesOn (callsOn callee i) e j ↔ GivesOn (callsOn (.call callee []) i.rest.rest) e j := by
  rw [callsOn]
  split
  · split
    · constructor
      · rintro ⟨r, hr, rfl, rfl⟩
        obtain ⟨all, hall, ⟨⟩⟩ := bind_eq_ok.mp hr
        exact ⟨all, hall, rfl, rfl⟩
      · rintro ⟨all, hall, rfl, rfl⟩
        exact ⟨_, bind_eq_ok.mpr ⟨all, hall, rfl⟩, rfl, rfl⟩
    · next hne => exact absurd hclosing hne
  · next hne => exact absurd h hne

theorem givesOn_callsOn_of_args (h : i.peek? = some .opening)
    (hclosing : i.rest.peek? ≠ some .closing) :
    GivesOn (callsOn callee i) e j ↔ ∃ args k, Gives (list i.rest) args k ∧
      k.peek? = some .closing ∧ GivesOn (callsOn (.call callee args) k.rest) e j := by
  rw [callsOn]
  split
  · split
    · next hclosed => exact absurd hclosed hclosing
    · constructor
      · rintro ⟨r, hr, rfl, rfl⟩
        simp only [bind_eq_ok] at hr
        obtain ⟨args, hargs, close, hclose, all, hall, ⟨⟩⟩ := hr
        obtain ⟨hpeek, hrest⟩ := gives_expect.mp ⟨close, hclose, rfl, rfl⟩
        exact ⟨_, _, ⟨args, hargs, rfl, rfl⟩, hpeek, hrest ▸ ⟨all, hall, rfl, rfl⟩⟩
      · rintro ⟨_, _, ⟨args, hargs, rfl, rfl⟩, hpeek, hall⟩
        obtain ⟨close, hclose, -, hrest⟩ := gives_expect.mpr ⟨hpeek, rfl⟩
        rw [← hrest] at hall
        obtain ⟨all, hall, rfl, rfl⟩ := hall
        exact ⟨_, bind_eq_ok.mpr ⟨args, hargs, bind_eq_ok.mpr ⟨close, hclose,
          bind_eq_ok.mpr ⟨all, hall, rfl⟩⟩⟩, rfl, rfl⟩
  · next hne => exact absurd h hne

theorem gives_list {es : List Expr} : Gives (list i) es j ↔ ∃ first k, Gives (sum i) first k ∧
    (k.peek? = some .comma ∧ (∃ others, Gives (list k.rest) others j ∧ es = first :: others) ∨
      k.peek? ≠ some .comma ∧ es = [first] ∧ j = k) := by
  rw [list]
  constructor
  · rintro ⟨r, hr, rfl, rfl⟩
    obtain ⟨first, hfirst, hr⟩ := bind_eq_ok.mp hr
    refine ⟨_, _, ⟨first, hfirst, rfl, rfl⟩, ?_⟩
    split at hr
    · next hcomma =>
      obtain ⟨others, hothers, ⟨⟩⟩ := bind_eq_ok.mp hr
      exact .inl ⟨hcomma, _, ⟨others, hothers, rfl, rfl⟩, rfl⟩
    · next hne =>
      cases hr
      exact .inr ⟨hne, rfl, rfl⟩
  · rintro ⟨_, _, ⟨first, hfirst, rfl, rfl⟩, ⟨hcomma, _, ⟨others, hothers, rfl, rfl⟩, rfl⟩ |
      ⟨hne, rfl, rfl⟩⟩
    · have hshorter : others.rest.size < i.size := by
        have := first.shorter
        have := Input.size_rest_lt hcomma
        have := others.shorter
        omega
      refine ⟨⟨first.value :: others.value, others.rest, hshorter⟩,
        bind_eq_ok.mpr ⟨first, hfirst, ?_⟩, rfl, rfl⟩
      split
      · exact bind_eq_ok.mpr ⟨others, hothers, rfl⟩
      · next hne => exact absurd hcomma hne
    · refine ⟨⟨[first.value], first.rest, first.shorter⟩, bind_eq_ok.mpr ⟨first, hfirst, ?_⟩,
        rfl, rfl⟩
      split
      · next hcomma => exact absurd hcomma hne
      · rfl

/-- What stands in parentheses: one expression is itself. -/
def group : List Expr → Expr
  | [item] => item
  | items => .tuple items

theorem gives_primary : Gives (primary i) e j ↔
    (∃ value, i.peek? = some (.number value) ∧ e = .literal value ∧ j = i.rest) ∨
      (∃ text, i.peek? = some (.name text) ∧ e = .name text ∧ j = i.rest) ∨
      (i.peek? = some .opening ∧ ∃ items k, Gives (list i.rest) items k ∧
        k.peek? = some .closing ∧ e = group items ∧ j = k.rest) := by
  rw [primary]
  constructor
  · rintro ⟨r, hr, rfl, rfl⟩
    split at hr
    · next value hvalue =>
      cases hr
      exact .inl ⟨value, hvalue, rfl, rfl⟩
    · next text htext =>
      cases hr
      exact .inr (.inl ⟨text, htext, rfl, rfl⟩)
    · next hopening =>
      simp only [bind_eq_ok] at hr
      obtain ⟨items, hitems, close, hclose, ⟨⟩⟩ := hr
      obtain ⟨hpeek, hrest⟩ := gives_expect.mp ⟨close, hclose, rfl, rfl⟩
      exact .inr (.inr ⟨hopening, _, _, ⟨items, hitems, rfl, rfl⟩, hpeek, rfl, hrest⟩)
    · cases hr
  · rintro (⟨value, hvalue, rfl, rfl⟩ | ⟨text, htext, rfl, rfl⟩ |
      ⟨hopening, _, _, ⟨items, hitems, rfl, rfl⟩, hpeek, rfl, rfl⟩)
    · refine ⟨⟨.literal value, i.rest, Input.size_rest_lt hvalue⟩, ?_, rfl, rfl⟩
      split
      · next hfound =>
        cases hfound.symm.trans hvalue
        rfl
      · next hfound => cases hfound.symm.trans hvalue
      · next hfound => cases hfound.symm.trans hvalue
      · next hne _ _ => exact absurd hvalue (hne value)
    · refine ⟨⟨.name text, i.rest, Input.size_rest_lt htext⟩, ?_, rfl, rfl⟩
      split
      · next hfound => cases hfound.symm.trans htext
      · next hfound =>
        cases hfound.symm.trans htext
        rfl
      · next hfound => cases hfound.symm.trans htext
      · next _ hne _ => exact absurd htext (hne text)
    · obtain ⟨close, hclose, -, hrest⟩ := gives_expect.mpr ⟨hpeek, rfl⟩
      have hshorter : close.rest.size < i.size := by
        have := Input.size_rest_lt hopening
        have := items.shorter
        have := close.shorter
        omega
      refine ⟨⟨group items.value, close.rest, hshorter⟩, ?_, rfl, hrest⟩
      split
      · next hfound => cases hfound.symm.trans hopening
      · next hfound => cases hfound.symm.trans hopening
      · exact bind_eq_ok.mpr ⟨items, hitems, bind_eq_ok.mpr ⟨close, hclose, rfl⟩⟩
      · next hne => exact absurd hopening hne

/-- That nothing follows a statement but a break. -/
def Input.AtBreak (i : Input) : Prop :=
  i.peek? = none ∨ i.peek? = some .newline ∨ i.peek? = some .semicolon

theorem ok_at_break {whole r : Read α i} :
    (match whole.rest.peek? with
      | none | some .newline | some .semicolon => .ok whole
      | some other => whole.rest.fail (.afterStatement other) :
        Except SyntaxError (Read α i)) = .ok r ↔ whole = r ∧ whole.rest.AtBreak := by
  unfold Input.AtBreak
  split
  · next h => simp [h]
  · next h => simp [h]
  · next h => simp [h]
  · next hnone hnewline hsemicolon =>
    simp_all [Input.fail]

theorem gives_statement {s : Statement} : Gives (statement i) s j ↔
    (∃ first k, Gives (sum i) first k ∧
      (k.peek? = some .assign ∧
          (∃ value, Gives (sum k.rest.skipNewlines) value j ∧ s = ⟨some first, value⟩) ∨
        k.peek? ≠ some .assign ∧ s = ⟨none, first⟩ ∧ j = k)) ∧ j.AtBreak := by
  rw [statement]
  constructor
  · rintro ⟨r, hr, rfl, rfl⟩
    obtain ⟨first, hfirst, hr⟩ := bind_eq_ok.mp hr
    split at hr
    · next hassign =>
      obtain ⟨value, hvalue, hr⟩ := bind_eq_ok.mp hr
      obtain ⟨whole, ⟨⟩, hr⟩ := bind_eq_ok.mp hr
      obtain ⟨rfl, hbreak⟩ := ok_at_break.mp hr
      exact ⟨⟨_, _, ⟨first, hfirst, rfl, rfl⟩,
        .inl ⟨hassign, _, ⟨value, hvalue, rfl, rfl⟩, rfl⟩⟩, hbreak⟩
    · next hne =>
      obtain ⟨whole, ⟨⟩, hr⟩ := bind_eq_ok.mp hr
      obtain ⟨rfl, hbreak⟩ := ok_at_break.mp hr
      exact ⟨⟨_, _, ⟨first, hfirst, rfl, rfl⟩, .inr ⟨hne, rfl, rfl⟩⟩, hbreak⟩
  · rintro ⟨⟨_, _, ⟨first, hfirst, rfl, rfl⟩,
      ⟨hassign, _, ⟨value, hvalue, rfl, rfl⟩, rfl⟩ | ⟨hne, rfl, rfl⟩⟩, hbreak⟩
    · have hshorter : value.rest.size < i.size := by
        have := first.shorter
        have := Input.size_rest_lt hassign
        have := Input.size_skipNewlines_le first.rest.rest
        have := value.shorter
        omega
      refine ⟨⟨⟨some first.value, value.value⟩, value.rest, hshorter⟩,
        bind_eq_ok.mpr ⟨first, hfirst, ?_⟩, rfl, rfl⟩
      split
      · exact bind_eq_ok.mpr ⟨value, hvalue, ok_at_break.mpr ⟨rfl, hbreak⟩⟩
      · next hne => exact absurd hassign hne
    · refine ⟨⟨⟨none, first.value⟩, first.rest, first.shorter⟩,
        bind_eq_ok.mpr ⟨first, hfirst, ?_⟩, rfl, rfl⟩
      split
      · next hassign => exact absurd hassign hne
      · exact ok_at_break.mpr ⟨rfl, hbreak⟩

theorem statements_eq_ok {ss : List Statement} : statements i = .ok ss ↔
    (i.skipBreaks.peek? = none ∧ ss = []) ∨
      (i.skipBreaks.peek? ≠ none ∧ ∃ s k others, Gives (statement i.skipBreaks) s k ∧
        statements k = .ok others ∧ ss = s :: others) := by
  rw [statements]
  split
  · next hnone => simp [hnone, eq_comm]
  · next t ht =>
    simp only [bind_eq_ok, ht, reduceCtorEq, false_and, ne_eq, not_false_eq_true, true_and,
      false_or]
    constructor
    · rintro ⟨first, hfirst, others, hothers, ⟨⟩⟩
      exact ⟨_, _, others, ⟨first, hfirst, rfl, rfl⟩, hothers, rfl⟩
    · rintro ⟨_, _, others, ⟨first, hfirst, rfl, rfl⟩, hothers, rfl⟩
      exact ⟨first, hfirst, others, hothers, rfl⟩

end Readers

end Grammar

end Paydesk.Rates

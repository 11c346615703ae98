import Paydesk.Proofs.Rates.Interpreter
import Paydesk.Proofs.Rates.Plain
import Paydesk.Proofs.Rates.Spread

/-!
What becomes of a rate when its quotes are wider: it is at least as wide. Every
operation on spreads keeps one result within the other, and so does a rule.
-/

namespace Paydesk.Rates

namespace Spread

/-- Both sides of a spread are between those of another one. -/
structure Within (s t : Spread) : Prop where
  bid : t.bid.le s.bid
  ask : s.ask.le t.ask

/-- A spread in order, within another one. -/
structure Inside (s t : Spread) : Prop where
  ordered : s.Ordered
  within : s.Within t

/-- A number between the sides. -/
def Holds (s : Spread) (x : ℚ) : Prop := s.bid.value ≤ x ∧ x ≤ s.ask.value

variable {s s' t t' v w : Spread}

theorem within_iff :
    s.Within t ↔ t.bid.value ≤ s.bid.value ∧ s.ask.value ≤ t.ask.value := by
  rw [← Decimal.le_iff_value, ← Decimal.le_iff_value]
  exact ⟨fun h => ⟨h.bid, h.ask⟩, fun h => ⟨h.1, h.2⟩⟩

theorem Within.refl (s : Spread) : s.Within s := within_iff.mpr ⟨le_rfl, le_rfl⟩

theorem Inside.holds_bid (h : s.Inside t) : t.Holds s.bid.value :=
  ⟨(within_iff.mp h.within).1, (ordered_iff.mp h.ordered).trans (within_iff.mp h.within).2⟩

theorem Inside.holds_ask (h : s.Inside t) : t.Holds s.ask.value :=
  ⟨(within_iff.mp h.within).1.trans (ordered_iff.mp h.ordered), (within_iff.mp h.within).2⟩

theorem Inside.holds_side (h : s.Inside t) {d : Decimal} (hd : d ∈ [s.bid, s.ask]) :
    t.Holds d.value := by
  rcases List.mem_pair.mp hd with rfl | rfl
  · exact h.holds_bid
  · exact h.holds_ask

/-- Within a spread without width there is only its value. -/
theorem Inside.eq_of_isPoint (h : s.Inside t) (ht : t.isPoint) :
    s.bid.value = t.bid.value ∧ s.ask.value = t.bid.value := by
  have hpoint := isPoint_iff.mp ht
  have hbid := h.holds_bid
  have hask := h.holds_ask
  exact ⟨le_antisymm (hbid.2.trans_eq hpoint.symm) hbid.1,
    le_antisymm (hask.2.trans_eq hpoint.symm) hask.1⟩

section Sums

theorem within_of_add? (hs : s.Within s') (ht : t.Within t') (hv : s.add? t = some v)
    (hw : s'.add? t' = some w) : v.Within w := by
  obtain ⟨hvbid, hvask⟩ := add?_eq_some.mp hv
  obtain ⟨hwbid, hwask⟩ := add?_eq_some.mp hw
  rw [within_iff] at hs ht ⊢
  exact ⟨(Decimal.rounds_add? hwbid).mono (Decimal.rounds_add? hvbid) (add_le_add hs.1 ht.1),
    (Decimal.rounds_add? hvask).mono (Decimal.rounds_add? hwask) (add_le_add hs.2 ht.2)⟩

theorem within_of_sub? (hs : s.Within s') (ht : t.Within t') (hv : s.sub? t = some v)
    (hw : s'.sub? t' = some w) : v.Within w := by
  obtain ⟨hvbid, hvask⟩ := sub?_eq_some.mp hv
  obtain ⟨hwbid, hwask⟩ := sub?_eq_some.mp hw
  rw [within_iff] at hs ht ⊢
  exact ⟨(Decimal.rounds_sub? hwbid).mono (Decimal.rounds_sub? hvbid) (sub_le_sub hs.1 ht.2),
    (Decimal.rounds_sub? hvask).mono (Decimal.rounds_sub? hwask) (sub_le_sub hs.2 ht.1)⟩

end Sums

section Products

variable {x y : ℚ}

theorem Holds.mul_bounds (hx : s.Holds x) (y : ℚ) :
    (s.bid.value * y ≤ x * y ∨ s.ask.value * y ≤ x * y) ∧
      (x * y ≤ s.bid.value * y ∨ x * y ≤ s.ask.value * y) := by
  rcases le_total 0 y with hy | hy
  · exact ⟨.inl (mul_le_mul_of_nonneg_right hx.1 hy), .inr (mul_le_mul_of_nonneg_right hx.2 hy)⟩
  · exact ⟨.inr (mul_le_mul_of_nonpos_right hx.2 hy), .inl (mul_le_mul_of_nonpos_right hx.1 hy)⟩

/-- A product of two numbers is between products of sides. -/
theorem Holds.exists_corners (hx : s.Holds x) (hy : t.Holds y) :
    (∃ a ∈ [s.bid, s.ask], ∃ b ∈ [t.bid, t.ask], a.value * b.value ≤ x * y) ∧
      ∃ a ∈ [s.bid, s.ask], ∃ b ∈ [t.bid, t.ask], x * y ≤ a.value * b.value := by
  have hcorner (a : Decimal) : (∃ b ∈ [t.bid, t.ask], a.value * b.value ≤ a.value * y) ∧
      ∃ b ∈ [t.bid, t.ask], a.value * y ≤ a.value * b.value := by
    have hbounds := hy.mul_bounds a.value
    simp only [mul_comm _ a.value] at hbounds
    simpa using hbounds
  obtain ⟨hlow, hhigh⟩ := hx.mul_bounds y
  constructor
  · rcases hlow with h | h
    · obtain ⟨b, hb, hle⟩ := (hcorner s.bid).1
      exact ⟨_, by simp, b, hb, hle.trans h⟩
    · obtain ⟨b, hb, hle⟩ := (hcorner s.ask).1
      exact ⟨_, by simp, b, hb, hle.trans h⟩
  · rcases hhigh with h | h
    · obtain ⟨b, hb, hle⟩ := (hcorner s.bid).2
      exact ⟨_, by simp, b, hb, h.trans hle⟩
    · obtain ⟨b, hb, hle⟩ := (hcorner s.ask).2
      exact ⟨_, by simp, b, hb, h.trans hle⟩

theorem corner_of_mul? (h : s.mul? t = some v) {a b : Decimal} (ha : a ∈ [s.bid, s.ask])
    (hb : b ∈ [t.bid, t.ask]) :
    ∃ p, a.mul? b = some p ∧ v.bid.value ≤ p.value ∧ p.value ≤ v.ask.value := by
  obtain ⟨p, q, r, u, hp, hq, hr, hu, rfl⟩ := mul?_eq_some.mp h
  have hbetween {d : Decimal} (hd : d ∈ [p, q, r, u]) :=
    And.intro (least_le hd) (le_greatest hd)
  rcases List.mem_pair.mp ha with rfl | rfl <;> rcases List.mem_pair.mp hb with rfl | rfl
  · exact ⟨p, hp, hbetween (by simp)⟩
  · exact ⟨q, hq, hbetween (by simp)⟩
  · exact ⟨r, hr, hbetween (by simp)⟩
  · exact ⟨u, hu, hbetween (by simp)⟩

/-- The sides of a product are products of sides. -/
theorem sides_of_mul? (h : s.mul? t = some v) {d : Decimal} (hd : d ∈ [v.bid, v.ask]) :
    ∃ a ∈ [s.bid, s.ask], ∃ b ∈ [t.bid, t.ask], a.mul? b = some d := by
  obtain ⟨p, q, r, u, hp, hq, hr, hu, rfl⟩ := mul?_eq_some.mp h
  have hmem : d ∈ [p, q, r, u] := by
    rcases List.mem_pair.mp hd with rfl | rfl
    · exact least_mem p [q, r, u]
    · exact greatest_mem p [q, r, u]
  simp only [List.mem_cons, List.not_mem_nil, or_false] at hmem
  rcases hmem with rfl | rfl | rfl | rfl
  · exact ⟨_, by simp, _, by simp, hp⟩
  · exact ⟨_, by simp, _, by simp, hq⟩
  · exact ⟨_, by simp, _, by simp, hr⟩
  · exact ⟨_, by simp, _, by simp, hu⟩

/-- A product of numbers between the sides is rounded between the rounded products. -/
theorem holds_of_mul? (h : s.mul? t = some v) (hx : s.Holds x) (hy : t.Holds y) {z : ℚ}
    (hz : Decimal.Rounds (x * y) z) : v.Holds z := by
  obtain ⟨⟨a, ha, b, hb, hlow⟩, c, hc, d, hd, hhigh⟩ := hx.exists_corners hy
  obtain ⟨p, hp, hbid, -⟩ := corner_of_mul? h ha hb
  obtain ⟨q, hq, -, hask⟩ := corner_of_mul? h hc hd
  exact ⟨hbid.trans ((Decimal.rounds_mul? hp).mono hz hlow),
    (hz.mono (Decimal.rounds_mul? hq) hhigh).trans hask⟩

theorem within_of_mul? (hs : s.Inside s') (ht : t.Inside t') (hv : s.mul? t = some v)
    (hw : s'.mul? t' = some w) : v.Within w := by
  have hside {d : Decimal} (hd : d ∈ [v.bid, v.ask]) : w.Holds d.value := by
    obtain ⟨a, ha, b, hb, hproduct⟩ := sides_of_mul? hv hd
    exact holds_of_mul? hw (hs.holds_side ha) (ht.holds_side hb) (Decimal.rounds_mul? hproduct)
  exact within_iff.mpr ⟨(hside List.mem_cons_self).1, (hside (by simp)).2⟩

end Products

section Reciprocals

/-- Zero is not between the sides. -/
theorem apart_of_touchesZero (h : s.touchesZero = false) : 0 < s.bid.value ∨ s.ask.value < 0 := by
  by_contra hnot
  obtain ⟨hbid, hask⟩ := not_or.mp hnot
  refine absurd (Bool.and_eq_true_iff.mpr ⟨?_, ?_⟩) (ne_true_of_eq_false h)
  · rw [Decimal.le_iff_value, Decimal.value_zero]
    exact not_lt.mp hbid
  · rw [Decimal.le_iff_value, Decimal.value_zero]
    exact not_lt.mp hask

theorem reciprocal_le {x y : ℚ} (hle : x ≤ y) (h : 0 < x ∨ y < 0) : 1 / y ≤ 1 / x := by
  rcases h with hpos | hneg
  · exact one_div_le_one_div_of_le hpos hle
  · exact one_div_le_one_div_of_neg_of_le hneg hle

theorem rounds_reciprocal {d r : Decimal} (h : Decimal.one.div? d = some r) :
    Decimal.Rounds (1 / d.value) r.value := by
  have := Decimal.rounds_div? h
  rwa [Decimal.value_one] at this

/-- On one side of zero the reciprocals are in their order when they are rounded. -/
theorem sides_of_inverse? (hs : s.Ordered) (hapart : 0 < s.bid.value ∨ s.ask.value < 0)
    (h : s.inverse? = some v) :
    Decimal.Rounds (1 / s.ask.value) v.bid.value ∧
      Decimal.Rounds (1 / s.bid.value) v.ask.value := by
  obtain ⟨a, b, ha, hb, rfl⟩ := inverse?_eq_some.mp h
  have hbid := rounds_reciprocal ha
  have hask := rounds_reciprocal hb
  have hle := hbid.mono hask (reciprocal_le (ordered_iff.mp hs) hapart)
  rw [ordered, if_pos (Decimal.le_iff_value.mpr hle)]
  exact ⟨hbid, hask⟩

theorem inside_of_inverse? (hs : s.Inside t) (ht : t.touchesZero = false)
    (hv : s.inverse? = some v) (hw : t.inverse? = some w) : v.Inside w := by
  have hbid := hs.holds_bid
  have hask := hs.holds_ask
  have hapart := apart_of_touchesZero ht
  have hnarrow := sides_of_inverse? hs.ordered
    (hapart.imp (fun h => h.trans_le hbid.1) fun h => hask.2.trans_lt h) hv
  have hwide := sides_of_inverse? (ordered_iff.mpr (hbid.1.trans hbid.2)) hapart hw
  refine ⟨ordered_of_inverse? hv, within_iff.mpr ⟨?_, ?_⟩⟩
  · exact hwide.1.mono hnarrow.1
      (reciprocal_le hask.2 (hapart.imp_left fun h => h.trans_le hask.1))
  · exact hnarrow.2.mono hwide.2
      (reciprocal_le hbid.1 (hapart.imp_right fun h => hbid.2.trans_lt h))

theorem within_of_div? (hs : s.Inside s') (ht : t.Inside t') (hv : s.div? t = some v)
    (hw : s'.div? t' = some w) : v.Within w := by
  obtain ⟨-, u, hu, hvmul⟩ := div?_eq_some.mp hv
  obtain ⟨htouches, u', hu', hwmul⟩ := div?_eq_some.mp hw
  exact within_of_mul? hs (inside_of_inverse? ht htouches hu hu') hvmul hwmul

end Reciprocals

end Spread

namespace Expr

open Spread

section Operators

variable {a a' b b' v w : Spread}

theorem orElse_eq_ok {result : Option Spread} {error : RuleError} :
    applyOp.orElse result error = .ok v ↔ result = some v := by
  cases result <;> simp [applyOp.orElse]

theorem applyOp_eq_ok {op : BinaryOp} : applyOp op a b = .ok v ↔ combine? op a b = some v := by
  cases op <;> exact orElse_eq_ok

theorem inside_of_applyOp {op : BinaryOp} (ha : a.Inside a') (hb : b.Inside b')
    (hv : applyOp op a b = .ok v) (hw : applyOp op a' b' = .ok w) : v.Inside w := by
  rw [applyOp_eq_ok] at hv hw
  refine ⟨ordered_of_combine? ha.ordered hb.ordered hv, ?_⟩
  cases op with
  | add => exact within_of_add? ha.within hb.within hv hw
  | sub => exact within_of_sub? ha.within hb.within hv hw
  | mul => exact within_of_mul? ha hb hv hw
  | div => exact within_of_div? ha hb hv hw

/-- Only a value without width has an opposite, and there is but one within it. -/
theorem inside_of_applySign {sign : Sign} (ha : a.Inside a') (hv : applySign sign a = .ok v)
    (hw : applySign sign a' = .ok w) : v.Inside w := by
  cases sign with
  | plus =>
      cases hv
      cases hw
      exact ha
  | minus =>
      unfold applySign at hv hw
      split_ifs at hv hw with hpoint hpoint'
      cases hv
      cases hw
      refine ⟨ordered_point _, within_iff.mpr ?_⟩
      simp [Spread.point, (ha.eq_of_isPoint hpoint').1]

theorem joinSides_eq_ok : joinSides a b = .ok v ↔
    a.isPoint ∧ b.isPoint ∧ make a.bid b.bid = .ok v := by
  unfold joinSides
  cases make a.bid b.bid <;> cases a.isPoint <;> cases b.isPoint <;> simp

theorem inside_of_joinSides (ha : a.Inside a') (hb : b.Inside b') (hv : joinSides a b = .ok v)
    (hw : joinSides a' b' = .ok w) : v.Inside w := by
  obtain ⟨-, -, hmake⟩ := joinSides_eq_ok.mp hv
  obtain ⟨ha', hb', hmake'⟩ := joinSides_eq_ok.mp hw
  refine ⟨ordered_of_make hmake, within_iff.mpr ?_⟩
  obtain ⟨-, rfl⟩ := make_eq_ok.mp hmake
  obtain ⟨-, rfl⟩ := make_eq_ok.mp hmake'
  exact ⟨(ha.eq_of_isPoint ha').1.ge, (hb.eq_of_isPoint hb').1.le⟩

end Operators

mutual

/-- No spread stands in the expression before quotes take the place of its calls. -/
def Unquoted : Expr → Prop
  | .quoted _ => False
  | .binary _ left right => left.Unquoted ∧ right.Unquoted
  | .signed _ operand => operand.Unquoted
  | .tuple items => UnquotedList items
  | .literal _ => True
  | .name _ => True
  | .call _ _ => True

def UnquotedList : List Expr → Prop
  | [] => True
  | e :: es => e.Unquoted ∧ UnquotedList es

end

/-- Each quote that the first collection has for one of the calls is inside of the
quote that the second one has. -/
def QuotesInside (narrow wide : Quotes) (calls : List (String × Pair)) : Prop :=
  ∀ call ∈ calls, ∀ s t, narrow.get? call.1 call.2 = some s → wide.get? call.1 call.2 = some t →
    s.Inside t

/-- The value of an expression with narrower quotes is inside of its value with
wider ones. -/
theorem inside_of_evaluates {narrow wide : Quotes} : ∀ (e : Expr) {v w : Spread}, e.Unquoted →
    QuotesInside narrow wide e.dependencies → e.Evaluates narrow v → e.Evaluates wide w →
    v.Inside w
  | .literal d, v, w, _, _, hv, hw => by
      obtain rfl := evaluates_literal.mp hv
      obtain rfl := evaluates_literal.mp hw
      exact ⟨ordered_point d, Within.refl _⟩
  | .quoted _, _, _, hplain, _, _, _ => hplain.elim
  | .name _, _, _, _, _, hv, _ => absurd hv not_evaluates_name
  | .call callee args, v, w, _, hinside, hv, hw => by
      obtain ⟨exchange, text, pair, rfl, rfl, hmarker, hpair, hnarrow⟩ := evaluates_call.mp hv
      obtain ⟨_, _, _, ⟨⟩, ⟨⟩, -, hpair', hwide⟩ := evaluates_call.mp hw
      obtain rfl := Option.some.inj (hpair.symm.trans hpair')
      refine hinside (exchange, pair) ?_ v w hnarrow hwide
      rw [dependencies, isMarkerName, hmarker, if_neg (by decide),
        quoteOf?_eq_some.mpr ⟨text, rfl, rfl, hpair⟩]
      exact List.mem_singleton_self _
  | .binary op left right, v, w, hplain, hinside, hv, hw => by
      obtain ⟨a, b, ha, hb, hv⟩ := evaluates_binary.mp hv
      obtain ⟨a', b', ha', hb', hw⟩ := evaluates_binary.mp hw
      obtain ⟨hleft, hright⟩ := List.forall_mem_append.mp hinside
      exact inside_of_applyOp (inside_of_evaluates left hplain.1 hleft ha ha')
        (inside_of_evaluates right hplain.2 hright hb hb') hv hw
  | .signed sign operand, v, w, hplain, hinside, hv, hw => by
      obtain ⟨a, ha, hv⟩ := evaluates_signed.mp hv
      obtain ⟨a', ha', hw⟩ := evaluates_signed.mp hw
      exact inside_of_applySign (inside_of_evaluates operand hplain hinside ha ha') hv hw
  | .tuple [bid, ask], v, w, hplain, hinside, hv, hw => by
      obtain ⟨_, _, ⟨⟩, a, b, ha, hb, hv⟩ := evaluates_tuple.mp hv
      obtain ⟨_, _, ⟨⟩, a', b', ha', hb', hw⟩ := evaluates_tuple.mp hw
      obtain ⟨hbid, hrest⟩ := List.forall_mem_append.mp hinside
      obtain ⟨hask, -⟩ := List.forall_mem_append.mp hrest
      exact inside_of_joinSides (inside_of_evaluates bid hplain.1 hbid ha ha')
        (inside_of_evaluates ask hplain.2.1 hask hb hb') hv hw
  | .tuple [], _, _, _, _, hv, _ => by
      obtain ⟨_, _, ⟨⟩, _⟩ := evaluates_tuple.mp hv
  | .tuple [_], _, _, _, _, hv, _ => by
      obtain ⟨_, _, ⟨⟩, _⟩ := evaluates_tuple.mp hv
  | .tuple (_ :: _ :: _ :: _), _, _, _, _, hv, _ => by
      obtain ⟨_, _, ⟨⟩, _⟩ := evaluates_tuple.mp hv

mutual

theorem Plain.unquoted {p : String → Prop} : (e : Expr) → e.Plain p → e.Unquoted
  | .quoted _, h => h.elim
  | .binary _ left right, h => ⟨Plain.unquoted left h.1, Plain.unquoted right h.2⟩
  | .signed _ operand, h => Plain.unquoted operand h
  | .tuple items, h => PlainList.unquoted items h.2
  | .literal _, _ => trivial
  | .name _, _ => trivial
  | .call _ _, _ => trivial

theorem PlainList.unquoted {p : String → Prop} : (es : List Expr) → PlainList p es →
    UnquotedList es
  | [], _ => trivial
  | e :: es, h => ⟨Plain.unquoted e h.1, PlainList.unquoted es h.2⟩

end

section Resolve

variable {target : Pair} {inline : Pair → Resolution Expr} {inCall : Bool}

mutual

theorem Unquoted.resolve (hinline : ∀ pair, (inline pair).value.Unquoted) :
    (e : Expr) → e.Unquoted → (e.resolve target inline inCall).value.Unquoted
  | .quoted _, h => h.elim
  | .name text, _ => by
      rw [Expr.resolve]
      split
      · trivial
      · split
        · trivial
        · exact hinline _
  | .call callee args, _ => by
      rw [Expr.resolve]
      split <;> trivial
  | .binary _ left right, h => by
      rw [Expr.resolve]
      exact ⟨Unquoted.resolve hinline left h.1, Unquoted.resolve hinline right h.2⟩
  | .signed _ operand, h => by
      rw [Expr.resolve]
      exact Unquoted.resolve hinline operand h
  | .tuple items, h => by
      rw [Expr.resolve]
      exact UnquotedList.resolve hinline items h
  | .literal _, _ => trivial

theorem UnquotedList.resolve (hinline : ∀ pair, (inline pair).value.Unquoted) :
    (es : List Expr) → UnquotedList es → UnquotedList (resolveList target inline inCall es).value
  | [], _ => trivial
  | e :: es, h => ⟨Unquoted.resolve hinline e h.1, UnquotedList.resolve hinline es h.2⟩

end

end Resolve

end Expr

namespace RuleBook

/-- A book that comes from a script, with whatever spread was set since. -/
inductive Loaded : RuleBook → Prop
  | read {script : String} {book : RuleBook} (h : RuleBook.read script = .ok book) : Loaded book
  | setSpread {book next : RuleBook} {spread : Decimal} (h : Loaded book)
      (hset : book.setSpread spread = .ok next) : Loaded next

variable {book : RuleBook}

theorem Loaded.exists_read (h : book.Loaded) :
    ∃ script fresh, RuleBook.read script = .ok fresh ∧ book.rules = fresh.rules := by
  induction h with
  | read h => exact ⟨_, _, h, rfl⟩
  | setSpread _ hset ih =>
      unfold RuleBook.setSpread at hset
      split_ifs at hset
      cases hset
      exact ih

theorem Loaded.unquoted (h : book.Loaded) : ∀ rule ∈ book.rules, rule.2.Unquoted := by
  obtain ⟨script, fresh, hread, hrules⟩ := h.exists_read
  rw [hrules]
  exact fun rule hrule => Expr.Plain.unquoted _ (plain_of_read hread rule hrule)

theorem unquoted_candidate (h : ∀ rule ∈ book.rules, rule.2.Unquoted) (pair : Pair) :
    (book.candidate pair).Unquoted := by
  unfold candidate
  split
  · trivial
  · split_ifs
    · exact ⟨trivial, trivial⟩
    · split
      · next hrule => exact h _ (List.mem_of_getElem? hrule)
      · trivial

theorem unquoted_inline (h : ∀ rule ∈ book.rules, rule.2.Unquoted) (left : Nat) (pair : Pair) :
    (book.inline left pair).value.Unquoted := by
  induction left generalizing pair with
  | zero =>
      rw [inline]
      split <;> trivial
  | succ left ih =>
      rw [inline]
      split
      · trivial
      · exact (unquoted_candidate h pair).resolve ih

/-- What is resolved for a pair: one, the rule of the pair, or that with the spread of the book
around it. -/
theorem ruleFor_cases (book : RuleBook) (pair : Pair) :
    ∃ e, book.ruleFor pair = .ofResolved pair (book.resolve pair e) ∧
      (pair.isIdentity ∧ e = .literal .onePointZero ∨
        pair.isIdentity = false ∧ (e = book.candidate pair ∨
          ∃ low high, e = .binary .mul (book.candidate pair) (.tuple [.literal low, .literal high]))) := by
  unfold ruleFor
  split_ifs with hidentity hspread
  · exact ⟨_, rfl, .inl ⟨hidentity, rfl⟩⟩
  · exact ⟨_, rfl, .inr ⟨by simpa using hidentity, .inl rfl⟩⟩
  · refine ⟨_, rfl, .inr ⟨by simpa using hidentity, ?_⟩⟩
    cases hfactors : book.widening? with
    | none => exact .inl rfl
    | some factors =>
        simp only [widening?, Option.bind_eq_bind, Option.bind_eq_some_iff,
          Option.some.injEq] at hfactors
        obtain ⟨low, -, high, -, rfl⟩ := hfactors
        exact .inr ⟨low, high, rfl⟩

theorem Loaded.unquoted_ruleFor (h : book.Loaded) (pair : Pair) :
    (book.ruleFor pair).expr.Unquoted := by
  have hcandidate := unquoted_candidate h.unquoted
  have hresolve {e : Expr} (he : e.Unquoted) : (book.resolve pair e).value.Unquoted :=
    he.resolve (unquoted_inline h.unquoted maxIndirections)
  obtain ⟨e, hrule, ⟨-, rfl⟩ | ⟨-, rfl | ⟨low, high, rfl⟩⟩⟩ := book.ruleFor_cases pair
  · rw [hrule]
    exact hresolve trivial
  · rw [hrule]
    exact hresolve (hcandidate pair)
  · rw [hrule]
    exact hresolve ⟨hcandidate pair, trivial, trivial, trivial⟩

/-- What a rule of a book asks for is among the quotes that it lists, as far as
there can be a quote for it. -/
theorem exists_quote_of_mem_dependencies (book : RuleBook) (pair : Pair) {call : String × Pair}
    (hcall : call ∈ (book.ruleFor pair).expr.dependencies) (hpair : call.2.isIdentity = false) :
    ∃ q ∈ (book.ruleFor pair).quotes.toList,
      q.exchange = Text.lower call.1 ∧ q.pair = call.2 := by
  obtain ⟨r, hlists, hr⟩ := book.ruleFor_eq_ofResolved pair
  rw [hr] at hcall ⊢
  have hlisted := (Rule.contains_ofResolved pair r).mpr ⟨hpair, call, hlists hcall, rfl⟩
  obtain ⟨spread, hmem⟩ := Quotes.mem_toList_of_contains hlisted
  exact ⟨_, hmem, rfl, rfl⟩

/-- A rule gives at least as wide a rate with quotes that are at least as wide:
its bid is not higher and its ask is not lower, with all that is rounded on the way. -/
theorem Loaded.within_of_yields (hbook : book.Loaded) (pair : Pair) {narrow wide : Quotes}
    (hproper : narrow.Proper)
    (hquotes : ∀ q ∈ (book.ruleFor pair).quotes.toList, ∀ s t,
      narrow.get? q.exchange q.pair = some s → wide.get? q.exchange q.pair = some t →
        s.Ordered ∧ s.Within t)
    {v w : Spread} (hv : ((book.ruleFor pair).supply narrow).Yields v)
    (hw : ((book.ruleFor pair).supply wide).Yields w) :
    v.Within w := by
  have hinside : Expr.QuotesInside narrow wide (book.ruleFor pair).expr.dependencies := by
    intro call hcall s t hs ht
    have hpair := hproper.isIdentity_of_contains
      (Quotes.contains_of_get? (Option.isSome_iff_exists.mpr ⟨s, hs⟩))
    obtain ⟨q, hq, hexchange, hpair⟩ := book.exists_quote_of_mem_dependencies pair hcall hpair
    rw [← Quotes.get?_lower, ← hexchange, ← hpair] at hs ht
    obtain ⟨hordered, hwithin⟩ := hquotes q hq s t hs ht
    exact ⟨hordered, hwithin⟩
  obtain ⟨-, hv⟩ := Rule.yields_iff.mp hv
  obtain ⟨-, hw⟩ := Rule.yields_iff.mp hw
  exact (Expr.inside_of_evaluates _ (hbook.unquoted_ruleFor pair) hinside hv hw).within

/-- A product with a factor that may have either sign once the quotes are wider. -/
theorem within_of_widerQuotes :
    let pair : Pair := ⟨"LTC", "BTC"⟩
    let narrow := (Quotes.empty.set "kraken" pair ⟨.ofNat 2, .ofNat 3⟩).set "bittrex" pair
      ⟨.one, .one⟩
    let wide := (Quotes.empty.set "kraken" pair ⟨.one, .ofNat 4⟩).set "bittrex" pair
      ⟨.zero, .ofNat 4⟩
    let v : Spread := ⟨.ofNat 2, .ofNat 3⟩
    let w : Spread := ⟨⟨true, 8, 0, by decide, by decide⟩, .ofNat 8⟩
    ∃ book, read "LTC_BTC = kraken(LTC_BTC) * (2 - bittrex(LTC_BTC))" = .ok book ∧
      ((book.ruleFor pair).supply narrow).Yields v ∧ ((book.ruleFor pair).supply wide).Yields w ∧
      v.Within w := by
  intro pair narrow wide v w
  have hrule : (read "LTC_BTC = kraken(LTC_BTC) * (2 - bittrex(LTC_BTC))").toOption.map
      (fun book =>
        let rule := book.ruleFor pair
        (rule.quotes.toList.map fun q => (q.exchange, q.pair),
          (rule.supply narrow).reevaluate.succeeded, (rule.supply narrow).reevaluate.spread?,
          (rule.supply wide).reevaluate.succeeded, (rule.supply wide).reevaluate.spread?)) =
      some ([("bittrex", pair), ("kraken", pair)], true, some v, true, some w) := by
    decide +kernel
  cases hread : read "LTC_BTC = kraken(LTC_BTC) * (2 - bittrex(LTC_BTC))" with
  | error e => simp [hread, Except.toOption] at hrule
  | ok book =>
      rw [hread] at hrule
      simp only [Except.toOption, Option.map_some, Option.some.injEq, Prod.mk.injEq] at hrule
      obtain ⟨hlisted, hnarrow, hv, hwide, hw⟩ := hrule
      refine ⟨book, rfl, ⟨hnarrow, hv⟩, ⟨hwide, hw⟩, ?_⟩
      refine (Loaded.read hread).within_of_yields pair
        ((Quotes.Proper.empty.set _ _ _).set _ _ _) ?_ ⟨hnarrow, hv⟩ ⟨hwide, hw⟩
      intro q hq s t hs ht
      have hmem := List.mem_map_of_mem hq (f := fun q => (q.exchange, q.pair))
      rw [hlisted] at hmem
      have hknown : narrow.get? "bittrex" pair = some ⟨.one, .one⟩ ∧
          wide.get? "bittrex" pair = some ⟨.zero, .ofNat 4⟩ ∧
          narrow.get? "kraken" pair = some ⟨.ofNat 2, .ofNat 3⟩ ∧
          wide.get? "kraken" pair = some ⟨.one, .ofNat 4⟩ := by
        decide +kernel
      rcases List.mem_pair.mp hmem with hkey | hkey
      · obtain ⟨hexchange, hpair⟩ := Prod.mk.inj hkey
        rw [hexchange, hpair] at hs ht
        obtain rfl := Option.some.inj (hs.symm.trans hknown.1)
        obtain rfl := Option.some.inj (ht.symm.trans hknown.2.1)
        exact ⟨by unfold Spread.Ordered; decide, by decide, by decide⟩
      · obtain ⟨hexchange, hpair⟩ := Prod.mk.inj hkey
        rw [hexchange, hpair] at hs ht
        obtain rfl := Option.some.inj (hs.symm.trans hknown.2.2.1)
        obtain rfl := Option.some.inj (ht.symm.trans hknown.2.2.2)
        exact ⟨by unfold Spread.Ordered; decide, by decide, by decide⟩

end RuleBook

end Paydesk.Rates

import Paydesk.Proofs.Rates.Matches
import Paydesk.Proofs.Rates.Pairs
import Paydesk.Proofs.Rates.Widening

/-!
A rule that is found through the inverse of a pair: it is one divided by the rule of the
inverse, which in its turn is found as it stands.
-/

namespace Paydesk.Rates

namespace Pair

variable {pair : Pair}

theorem isIdentity_inverse (pair : Pair) : pair.inverse.isIdentity = pair.isIdentity :=
  BEq.comm

theorem hasWildcard_inverse (pair : Pair) : pair.inverse.hasWildcard = pair.hasWildcard :=
  Bool.or_comm _ _

end Pair

namespace Expr

theorem bindPair_of_not_hasWildcard {target pair : Pair} (h : pair.hasWildcard = false) :
    bindPair target pair = .of pair.left pair.right := by
  obtain ⟨hleft, hright⟩ := Bool.or_eq_false_iff.mp h
  simp [bindPair, bindSide, hleft, hright]

section Congr

variable {target : Pair} {f g : Pair → Resolution Expr}

mutual

/-- What an expression becomes rests on the pairs that it names outside of calls. -/
theorem resolve_congr : ∀ (e : Expr) (inCall : Bool),
    (inCall = false → ∀ pair ∈ e.barePairs target, f pair = g pair) →
    e.resolve target f inCall = e.resolve target g inCall
  | .name text, inCall, h => by
      rw [resolve, resolve]
      cases hpair : Pair.parse? text with
      | none => rfl
      | some pair =>
          cases inCall with
          | false => exact h rfl _ (by simp [barePairs, hpair])
          | true => rfl
  | .call callee args, _, _ => by
      rw [resolve, resolve, resolveList_congr args true (by simp)]
  | .binary op left right, inCall, h => by
      simp only [barePairs, List.forall_mem_append] at h
      rw [resolve, resolve, resolve_congr left inCall fun hcall => (h hcall).1,
        resolve_congr right inCall fun hcall => (h hcall).2]
  | .signed sign operand, inCall, h => by
      rw [resolve, resolve, resolve_congr operand inCall h]
  | .tuple items, inCall, h => by
      rw [resolve, resolve, resolveList_congr items inCall h]
  | .literal _, _, _ => rfl
  | .quoted _, _, _ => rfl

theorem resolveList_congr : ∀ (es : List Expr) (inCall : Bool),
    (inCall = false → ∀ pair ∈ barePairsList target es, f pair = g pair) →
    resolveList target f inCall es = resolveList target g inCall es
  | [], _, _ => rfl
  | e :: es, inCall, h => by
      simp only [barePairsList, List.forall_mem_append] at h
      rw [resolveList, resolveList, resolve_congr e inCall fun hcall => (h hcall).1,
        resolveList_congr es inCall fun hcall => (h hcall).2]

end

end Congr

end Expr

namespace RuleBook

variable {book : RuleBook} {pair : Pair} {m : Match}

/-- What was resolved without being cut off is the same with one indirection more allowed. -/
theorem inline_succ {left : Nat} (h : (book.inline left pair).cutOff = false) :
    book.inline (left + 1) pair = book.inline left pair := by
  induction left generalizing pair with
  | zero =>
      rw [inline] at h
      split_ifs at h with hidentity
      · rw [inline, inline, if_pos hidentity, if_pos hidentity]
      · cases h
  | succ left ih =>
      rw [inline] at h
      rw [inline, inline]
      split_ifs at h ⊢ with hidentity
      · rfl
      · refine Expr.resolve_congr _ false fun _ next hnext => ih ?_
        by_contra hcut
        refine absurd (Expr.cutOff_resolve _ |>.mpr ⟨next, hnext, ?_⟩) (ne_true_of_eq_false h)
        simpa using hcut

theorem candidate_of_inverted (h : book.bestMatch? pair = some m) (hinverted : m.inverted) :
    book.candidate pair = .binary .div (.literal .one) (.name pair.inverse.render) := by
  rw [candidate, h]
  exact if_pos hinverted

theorem resolve_quotient (hwildcard : pair.hasWildcard = false)
    (hparse : Pair.parse? pair.inverse.render = some pair.inverse) :
    book.resolve pair (.binary .div (.literal .one) (.name pair.inverse.render)) =
      ⟨.binary .div (.literal .one) (book.inline maxIndirections pair.inverse).value,
        (book.inline maxIndirections pair.inverse).calls,
        (book.inline maxIndirections pair.inverse).cutOff⟩ := by
  have hbound : Expr.bindPair pair pair.inverse = pair.inverse := by
    rw [Expr.bindPair_of_not_hasWildcard (pair.hasWildcard_inverse.trans hwildcard)]
    exact Pair.of_sides_of_parse? hparse
  rw [resolve, Expr.resolve, Expr.resolve, Expr.resolve, hparse]
  dsimp only
  rw [if_neg (by decide), hbound]
  generalize book.inline maxIndirections pair.inverse = r
  obtain ⟨value, calls, cutOff⟩ := r
  change Resolution.mk (Expr.binary .div (.literal .one) value) ([] ++ (calls ++ []))
    (false || (cutOff || false)) = _
  rw [List.append_nil, List.nil_append, Bool.or_false, Bool.false_or]

section Inverted

variable (hspread : book.spread.isZero) (hwildcard : pair.hasWildcard = false)
  (hidentity : pair.isIdentity = false)
  (hparse : Pair.parse? pair.inverse.render = some pair.inverse)
  (hbest : book.bestMatch? pair = some m) (hinverted : m.inverted)
  (hnested : .tooMuchNestedCalls ∉ (book.ruleFor pair).errors)
include hspread hwildcard hidentity hparse hbest hinverted hnested

/-- A rule that is found through the inverse differs from the rule of the inverse by the
quotient around that. -/
theorem ruleFor_of_inverted : (book.ruleFor pair).resolutionErrors = [] ∧
    book.ruleFor pair = { book.ruleFor pair.inverse with
      pair := pair
      expr := .binary .div (.literal .one) (book.ruleFor pair.inverse).expr } := by
  have hproper := pair.isIdentity_inverse.trans hidentity
  rw [ruleFor_eq hspread hidentity, candidate_of_inverted hbest hinverted,
    resolve_quotient hwildcard hparse] at hnested ⊢
  have hcut : (book.inline maxIndirections pair.inverse).cutOff = false := by
    by_contra hcut
    exact hnested (by simp [Rule.ofResolved, hcut])
  -- The rule of the inverse may go one indirection deeper, but has no need to.
  have hinline : book.resolve pair.inverse (book.candidate pair.inverse) =
      book.inline maxIndirections pair.inverse := by
    rw [← inline_succ hcut, inline, if_neg (ne_true_of_eq_false hproper), resolve]
  rw [ruleFor_eq hspread hproper, hinline]
  exact ⟨by simp [Rule.ofResolved, hcut], rfl⟩

/-- If the best rule for a pair is found through the inverse, the pair is one divided by its
inverse: with the same quotes asked for, with the quotient of one and every value of the
inverse, and with no value otherwise. The inverse is found as it stands. -/
theorem inverted_is_quotient :
    (book.ruleFor pair).expr =
      .binary .div (.literal .one) (book.ruleFor pair.inverse).expr ∧
    (book.ruleFor pair).quotes = (book.ruleFor pair.inverse).quotes ∧
    (∀ quotes,
      let rule := (book.ruleFor pair).supply quotes
      let inverse := (book.ruleFor pair.inverse).supply quotes
      (∀ v w, inverse.Yields v → (Spread.point .one).div? v = some w → rule.Yields w) ∧
      ((¬∃ v w, inverse.Yields v ∧ (Spread.point .one).div? v = some w) →
        rule.reevaluate.succeeded = false)) ∧
    book.bestMatch? pair.inverse = some ⟨m.priority - 1, m.position, false⟩ := by
  obtain ⟨hresolved, hrule⟩ :=
    ruleFor_of_inverted hspread hwildcard hidentity hparse hbest hinverted hnested
  have hyields : ∀ (quotes : Quotes) (w : Spread), ((book.ruleFor pair).supply quotes).Yields w ↔
      ∃ v, ((book.ruleFor pair.inverse).supply quotes).Yields v ∧
        (Spread.point .one).div? v = some w := by
    intro quotes w
    rw [hrule] at hresolved ⊢
    simp only [Rule.yields_iff, Rule.supply, Expr.evaluates_binary, Expr.evaluates_literal,
      Expr.applyOp_eq_ok, Spread.combine?]
    constructor
    · rintro ⟨-, _, v, rfl, hv, hw⟩
      exact ⟨v, ⟨hresolved, hv⟩, hw⟩
    · rintro ⟨v, ⟨-, hv⟩, hw⟩
      exact ⟨hresolved, _, v, rfl, hv, hw⟩
  refine ⟨by rw [hrule], by rw [hrule], fun quotes => ⟨?_, ?_⟩, bestMatch?_inverse hbest hinverted⟩
  · exact fun v w hv hw => (hyields quotes w).mpr ⟨v, hv, hw⟩
  · intro hnone
    by_contra hsucceeded
    obtain ⟨w, hw⟩ := Rule.exists_yields (by simpa using hsucceeded)
    obtain ⟨v, hv, hquotient⟩ := (hyields quotes w).mp hw
    exact hnone ⟨v, w, hv, hquotient⟩

end Inverted

/-- A wildcard of the inverse, and the quotient of a quote of it. -/
theorem inverted_through_wildcard :
    let quotes := Quotes.empty.set "bitpay" ⟨"EUR", "BTC"⟩
      ⟨⟨false, 2, 5, by decide, by decide⟩, ⟨false, 25, 6, by decide, by decide⟩⟩
    ∃ book, read "EUR_X = bitpay(EUR_X)" = .ok book ∧
      book.bestMatch? ⟨"BTC", "EUR"⟩ = some ⟨3, 0, true⟩ ∧
      book.bestMatch? ⟨"EUR", "BTC"⟩ = some ⟨2, 0, false⟩ ∧
      ((book.ruleFor ⟨"BTC", "EUR"⟩).supply quotes).Yields ⟨.ofNat 40000, .ofNat 50000⟩ := by
  intro quotes
  have hrule : (read "EUR_X = bitpay(EUR_X)").toOption.map (fun book =>
      let inverse := (book.ruleFor ⟨"EUR", "BTC"⟩).supply quotes
      (book.spread.isZero, book.bestMatch? ⟨"BTC", "EUR"⟩,
        decide (.tooMuchNestedCalls ∈ (book.ruleFor ⟨"BTC", "EUR"⟩).errors),
        inverse.reevaluate.succeeded, inverse.reevaluate.spread?)) =
      some (true, some ⟨3, 0, true⟩, false, true, some
        ⟨⟨false, 2, 5, by decide, by decide⟩, ⟨false, 25, 6, by decide, by decide⟩⟩) := by
    decide +kernel
  cases hread : read "EUR_X = bitpay(EUR_X)" with
  | error e => simp [hread, Except.toOption] at hrule
  | ok book =>
      rw [hread] at hrule
      simp only [Except.toOption, Option.map_some, Option.some.injEq, Prod.mk.injEq,
        decide_eq_false_iff_not] at hrule
      obtain ⟨hspread, hbest, hnested, hsucceeded, hvalue⟩ := hrule
      obtain ⟨-, -, houtcome, hturned⟩ := inverted_is_quotient hspread (by decide) (by decide)
        (by decide +kernel) hbest rfl hnested
      refine ⟨book, rfl, hbest, hturned, (houtcome quotes).1 _ _ ⟨hsucceeded, hvalue⟩ ?_⟩
      decide +kernel

end RuleBook

end Paydesk.Rates

import Paydesk.Proofs.Rates.Dependencies

/-!
Rules refer to each other too deeply exactly if there is a chain of pairs that long, each
named outside of a call by the rule of the one before.
-/

namespace Paydesk.Rates

namespace Resolution

variable {α β : Type}

@[simp] theorem cutOff_pure (a : α) : (pure a : Resolution α).cutOff = false := rfl

@[simp] theorem cutOff_bind (r : Resolution α) (f : α → Resolution β) :
    (r >>= f).cutOff = (r.cutOff || (f r.value).cutOff) := rfl

@[simp] theorem cutOff_asks (call? : Option (String × Pair)) : (asks call?).cutOff = false := rfl

end Resolution

namespace Expr

mutual

/-- The pairs that an expression names outside of calls, in a rule for a target. -/
def barePairs (target : Pair) : Expr → List Pair
  | .name text => (Pair.parse? text).toList.map (bindPair target)
  | .call _ _ => []
  | .binary _ left right => left.barePairs target ++ right.barePairs target
  | .signed _ operand => operand.barePairs target
  | .tuple items => barePairsList target items
  | .literal _ => []
  | .quoted _ => []

def barePairsList (target : Pair) : List Expr → List Pair
  | [] => []
  | e :: es => e.barePairs target ++ barePairsList target es

end

section Resolve

variable {inline : Pair → Resolution Expr} {target : Pair}

mutual

theorem cutOff_resolve_inCall : ∀ e : Expr, (e.resolve target inline true).cutOff = false
  | .name text => by
      rw [resolve]
      split
      · rfl
      · rfl
  | .call callee args => by
      rw [resolve]
      split
      · rfl
      · simp [cutOff_resolveList_inCall args]
  | .binary _ left right => by
      simp [resolve, cutOff_resolve_inCall left, cutOff_resolve_inCall right]
  | .signed _ operand => by simp [resolve, cutOff_resolve_inCall operand]
  | .tuple items => by simp [resolve, cutOff_resolveList_inCall items]
  | .literal _ => rfl
  | .quoted _ => rfl

theorem cutOff_resolveList_inCall : ∀ es : List Expr,
    (resolveList target inline true es).cutOff = false
  | [] => rfl
  | e :: es => by
      simp [resolveList, cutOff_resolve_inCall e, cutOff_resolveList_inCall es]

end

mutual

theorem cutOff_resolve : ∀ e : Expr, (e.resolve target inline false).cutOff ↔
    ∃ pair ∈ e.barePairs target, (inline pair).cutOff
  | .name text => by
      rw [resolve, barePairs]
      cases Pair.parse? text with
      | none => simp
      | some pair => simp
  | .call callee args => by
      rw [resolve]
      split
      · simp [barePairs]
      · simp [barePairs, cutOff_resolveList_inCall args]
  | .binary _ left right => by
      simp only [resolve, Resolution.cutOff_bind, Resolution.cutOff_pure, Bool.or_false,
        Bool.or_eq_true, cutOff_resolve left, cutOff_resolve right, barePairs, List.mem_append,
        or_and_right, exists_or]
  | .signed _ operand => by
      simp only [resolve, Resolution.cutOff_bind, Resolution.cutOff_pure, Bool.or_false,
        cutOff_resolve operand, barePairs]
  | .tuple items => by
      simp only [resolve, Resolution.cutOff_bind, Resolution.cutOff_pure, Bool.or_false,
        cutOff_resolveList items, barePairs]
  | .literal _ => by simp [resolve, barePairs]
  | .quoted _ => by simp [resolve, barePairs]

theorem cutOff_resolveList : ∀ es : List Expr, (resolveList target inline false es).cutOff ↔
    ∃ pair ∈ barePairsList target es, (inline pair).cutOff
  | [] => by simp [resolveList, barePairsList]
  | e :: es => by
      simp only [resolveList, Resolution.cutOff_bind, Resolution.cutOff_pure, Bool.or_false,
        Bool.or_eq_true, cutOff_resolve e, cutOff_resolveList es, barePairsList, List.mem_append,
        or_and_right, exists_or]

end

end Resolve

end Expr

namespace RuleBook

variable {book : RuleBook} {pair : Pair} {m n : Nat}

/-- That so many indirections follow each other from a pair on, none of them from or to a
pair of a currency with itself. -/
inductive Chain (book : RuleBook) : Nat → Pair → Prop
  | here {pair : Pair} (h : pair.isIdentity = false) : Chain book 0 pair
  | step {n : Nat} {pair next : Pair} (h : pair.isIdentity = false)
      (hnext : next ∈ (book.candidate pair).barePairs pair) (hrest : Chain book n next) :
      Chain book (n + 1) pair

theorem Chain.shorten (hmn : m ≤ n) (h : book.Chain n pair) : book.Chain m pair := by
  induction h generalizing m with
  | here h =>
      obtain rfl := Nat.le_zero.mp hmn
      exact .here h
  | step h hnext _ ih =>
      cases m with
      | zero => exact .here h
      | succ m => exact .step h hnext (ih (Nat.le_of_succ_le_succ hmn))

theorem cutOff_inline (left : Nat) (pair : Pair) :
    (book.inline left pair).cutOff ↔ book.Chain left pair := by
  induction left generalizing pair with
  | zero =>
      rw [inline]
      split
      · next hidentity =>
        refine iff_of_false (by simp) ?_
        rintro ⟨h⟩
        simp [hidentity] at h
      · next hidentity => exact iff_of_true rfl (.here (by simpa using hidentity))
  | succ left ih =>
      rw [inline]
      split
      · next hidentity =>
        refine iff_of_false (by simp) ?_
        rintro (_ | ⟨h, -, -⟩)
        simp [hidentity] at h
      · next hidentity =>
        rw [Expr.cutOff_resolve]
        constructor
        · rintro ⟨next, hnext, hcut⟩
          exact .step (by simpa using hidentity) hnext ((ih next).mp hcut)
        · rintro (_ | ⟨-, hnext, hrest⟩)
          exact ⟨_, hnext, (ih _).mpr hrest⟩

/-- A rule is cut off if and only if some chain is longer than is allowed. -/
theorem cutOff_resolve_candidate (hpair : pair.isIdentity = false) :
    (book.resolve pair (book.candidate pair)).cutOff ↔
      ∃ n, maxIndirections < n ∧ book.Chain n pair := by
  rw [resolve, Expr.cutOff_resolve]
  constructor
  · rintro ⟨next, hnext, hcut⟩
    exact ⟨_, Nat.lt_succ_self _, .step hpair hnext ((cutOff_inline _ next).mp hcut)⟩
  · rintro ⟨n, hlong, hchain⟩
    have hshort : book.Chain (maxIndirections + 1) pair := hchain.shorten hlong
    cases hshort with
    | step _ hnext hrest => exact ⟨_, hnext, (cutOff_inline _ _).mpr hrest⟩

end RuleBook

end Paydesk.Rates

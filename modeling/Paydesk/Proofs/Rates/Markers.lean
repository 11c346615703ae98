import Paydesk.Proofs.Rates.Factors
import Paydesk.Proofs.Rates.Matches
import Paydesk.Proofs.Text.Segments

/-!
The calls that stand where a rule could not be resolved. No rule of a script contains one,
whatever its exchanges are called, so that they tell exactly which pairs were reached: one
without a rule, or one behind too many indirections.
-/

namespace Paydesk.Rates

namespace Expr

mutual

/-- The calls of an expression, but for those among the arguments of another one. -/
def outerCalls : Expr → List (Expr × List Expr)
  | .call callee args => [(callee, args)]
  | .binary _ left right => left.outerCalls ++ right.outerCalls
  | .signed _ operand => operand.outerCalls
  | .tuple items => outerCallsList items
  | .literal _ => []
  | .name _ => []
  | .quoted _ => []

def outerCallsList : List Expr → List (Expr × List Expr)
  | [] => []
  | e :: es => e.outerCalls ++ outerCallsList es

end

section QuoteErrors

variable (quotes : Quotes)

mutual

theorem quoteErrors_eq_flatMap : ∀ e : Expr,
    e.quoteErrors quotes = e.outerCalls.flatMap fun call => callErrors quotes call.1 call.2
  | .call callee args => by simp [quoteErrors, outerCalls]
  | .binary _ left right => by
      rw [quoteErrors, outerCalls, List.flatMap_append, quoteErrors_eq_flatMap left,
        quoteErrors_eq_flatMap right]
  | .signed _ operand => by rw [quoteErrors, outerCalls, quoteErrors_eq_flatMap operand]
  | .tuple items => by rw [quoteErrors, outerCalls, quoteErrorsList_eq_flatMap items]
  | .literal _ => rfl
  | .name _ => rfl
  | .quoted _ => rfl

theorem quoteErrorsList_eq_flatMap : ∀ es : List Expr, quoteErrorsList quotes es =
    (outerCallsList es).flatMap fun call => callErrors quotes call.1 call.2
  | [] => rfl
  | e :: es => by
      rw [quoteErrorsList, outerCallsList, List.flatMap_append, quoteErrors_eq_flatMap e,
        quoteErrorsList_eq_flatMap es]

end

variable {quotes}

theorem preprocessError_mem_callErrors {callee : Expr} {args : List Expr} :
    .preprocessError ∈ callErrors quotes callee args ↔ callee.isMarkerName := by
  cases callee with
  | name exchange =>
      rw [callErrors, isMarkerName]
      split_ifs with hmarker
      · simp [hmarker]
      · refine iff_of_false ?_ hmarker
        split
        · decide
        · split_ifs <;> decide
  | _ => simp [callErrors, isMarkerName]

/-- What can be wrong with a call. -/
def callFailures : List RuleError := .invalidExchangeName :: quoteFailures

theorem mem_callFailures {callee : Expr} {args : List Expr} :
    ∀ error ∈ callErrors quotes callee args, error ∈ callFailures := by
  cases callee with
  | name exchange => exact fun error herror => List.mem_cons_of_mem _ (mem_quoteFailures herror)
  | _ => simp [callErrors, callFailures]

theorem mem_callFailures_of_quoteErrors {e : Expr} :
    ∀ error ∈ e.quoteErrors quotes, error ∈ callFailures := by
  intro error herror
  rw [quoteErrors_eq_flatMap] at herror
  obtain ⟨call, -, herror⟩ := List.mem_flatMap.mp herror
  exact mem_callFailures error herror

end QuoteErrors

/-- That some of the calls mark where a rule could not be resolved. -/
def AnyMarker (calls : List (Expr × List Expr)) : Prop := ∃ call ∈ calls, call.1.isMarkerName

def Marked (e : Expr) : Prop := AnyMarker e.outerCalls

theorem not_anyMarker_nil : ¬AnyMarker [] := by simp [AnyMarker]

theorem anyMarker_append {calls others : List (Expr × List Expr)} :
    AnyMarker (calls ++ others) ↔ AnyMarker calls ∨ AnyMarker others := by
  simp only [AnyMarker, List.mem_append, or_and_right, exists_or]

theorem anyMarker_singleton {callee : Expr} {args : List Expr} :
    AnyMarker [(callee, args)] ↔ callee.isMarkerName := by
  simp [AnyMarker]

theorem preprocessError_mem_quoteErrors {quotes : Quotes} {e : Expr} :
    .preprocessError ∈ e.quoteErrors quotes ↔ e.Marked := by
  simp only [quoteErrors_eq_flatMap, List.mem_flatMap, preprocessError_mem_callErrors]
  rfl

theorem tooMuchNestedCalls_not_mem_quoteErrors (quotes : Quotes) (e : Expr) :
    .tooMuchNestedCalls ∉ e.quoteErrors quotes := fun h =>
  absurd (mem_callFailures_of_quoteErrors _ h) (by decide)

section Resolve

variable {target : Pair} {inline : Pair → Resolution Expr}

mutual

/-- Resolving adds the markers of what the pairs are replaced by, and no other ones. -/
theorem marked_resolve : ∀ e : Expr, (e.resolve target inline false).value.Marked ↔
    e.Marked ∨ ∃ pair ∈ e.barePairs target, (inline pair).value.Marked
  | .name text => by
      rw [resolve, barePairs]
      cases Pair.parse? text with
      | none => simp [Marked, outerCalls, not_anyMarker_nil]
      | some pair => simp [Marked, outerCalls, not_anyMarker_nil]
  | .call callee args => by
      rw [resolve]
      split <;> simp [Marked, outerCalls, anyMarker_singleton, barePairs]
  | .binary _ left right => by
      have hleft := marked_resolve left
      have hright := marked_resolve right
      simp only [Marked] at hleft hright
      simp only [resolve, Resolution.value_bind, Resolution.value_pure, Marked, outerCalls,
        anyMarker_append, hleft, hright, barePairs, List.mem_append, or_and_right, exists_or]
      exact or_or_or_comm
  | .signed _ operand => marked_resolve operand
  | .tuple items => anyMarker_resolveList items
  | .literal _ => by simp [resolve, Marked, outerCalls, not_anyMarker_nil, barePairs]
  | .quoted _ => by simp [resolve, Marked, outerCalls, not_anyMarker_nil, barePairs]

theorem anyMarker_resolveList : ∀ es : List Expr,
    AnyMarker (outerCallsList (resolveList target inline false es).value) ↔
      AnyMarker (outerCallsList es) ∨
        ∃ pair ∈ barePairsList target es, (inline pair).value.Marked
  | [] => by simp [resolveList, outerCallsList, not_anyMarker_nil, barePairsList]
  | e :: es => by
      have hfirst := marked_resolve e
      have hrest := anyMarker_resolveList es
      simp only [Marked] at hfirst hrest
      simp only [resolveList, Resolution.value_bind, Resolution.value_pure, Marked,
        outerCallsList, anyMarker_append, hfirst, hrest, barePairsList, List.mem_append,
        or_and_right, exists_or]
      exact or_or_or_comm

end

end Resolve

/-- In lower case no name of an exchange begins as the markers do. -/
theorem isMarker_lower (exchange : String) : isMarker (Text.lower exchange) = false := by
  have hlower : ∀ c : Char, ('E' == c.toLower) = false := by
    intro c
    rw [beq_eq_false_iff_ne, ne_eq, ← Char.toNat_inj, Text.toNat_toLower]
    change ¬0x45 = _
    split_ifs <;> omega
  rw [isMarker, Text.lower, String.toList_ofList]
  change List.isPrefixOf ['E', 'R', 'R', '_'] _ = false
  cases exchange.toList with
  | nil => rfl
  | cons c cs => rw [List.map_cons, List.isPrefixOf, hlower, Bool.false_and]

mutual

theorem not_marked_normalize : ∀ e : Expr, ¬e.normalize.Marked
  | .name text => by
      unfold normalize
      split <;> exact not_anyMarker_nil
  | .call callee args => by
      cases callee with
      | name exchange =>
          rw [normalize, Marked, outerCalls, anyMarker_singleton, isMarkerName, isMarker_lower]
          decide
      | _ => simp [normalize, Marked, outerCalls, anyMarker_singleton, isMarkerName]
  | .binary _ left right => by
      rw [normalize, Marked, outerCalls, anyMarker_append, not_or]
      exact ⟨not_marked_normalize left, not_marked_normalize right⟩
  | .signed _ operand => not_marked_normalize operand
  | .tuple items => not_anyMarker_normalizeList items
  | .literal _ => not_anyMarker_nil
  | .quoted _ => not_anyMarker_nil

theorem not_anyMarker_normalizeList : ∀ es : List Expr,
    ¬AnyMarker (outerCallsList (normalizeList es))
  | [] => not_anyMarker_nil
  | e :: es => by
      rw [normalizeList, outerCallsList, anyMarker_append, not_or]
      exact ⟨not_marked_normalize e, not_anyMarker_normalizeList es⟩

end

end Expr

namespace RuleBook

variable {book : RuleBook} {pair reached : Pair} {n : Nat}

/-- That a pair is reached from another one by so many indirections, none of them from or to
a pair of a currency with itself. -/
inductive Reaches (book : RuleBook) : Nat → Pair → Pair → Prop
  | here {pair : Pair} (h : pair.isIdentity = false) : Reaches book 0 pair pair
  | step {n : Nat} {pair next reached : Pair} (h : pair.isIdentity = false)
      (hnext : next ∈ (book.candidate pair).barePairs pair)
      (hrest : Reaches book n next reached) : Reaches book (n + 1) pair reached

theorem chain_iff_reaches : book.Chain n pair ↔ ∃ reached, book.Reaches n pair reached := by
  constructor
  · intro h
    induction h with
    | here h => exact ⟨_, .here h⟩
    | step h hnext _ ih =>
        obtain ⟨reached, hrest⟩ := ih
        exact ⟨reached, .step h hnext hrest⟩
  · rintro ⟨reached, h⟩
    induction h with
    | here h => exact .here h
    | step h hnext _ ih => exact .step h hnext ih

/-- No rule of a script calls an exchange that is taken for a marker. -/
theorem Loaded.not_marked (h : book.Loaded) : ∀ rule ∈ book.rules, ¬rule.2.Marked := by
  obtain ⟨script, fresh, hread, hrules⟩ := h.exists_read
  rw [hrules]
  intro rule hrule
  obtain ⟨ss, -, s, -, hvalue⟩ := exists_statement_of_read hread hrule
  rw [hvalue]
  exact Expr.not_marked_normalize _

theorem marked_candidate (h : book.Loaded) :
    (book.candidate pair).Marked ↔ book.Unmatched pair := by
  rw [candidate, ← bestMatch?_eq_none]
  cases hmatch : book.bestMatch? pair with
  | none => exact iff_of_true (Expr.anyMarker_singleton.mpr (by decide)) rfl
  | some m =>
      refine iff_of_false ?_ (by simp)
      have hbest := book.isBest_bestMatch? pair
      rw [hmatch] at hbest
      obtain ⟨rule, hrule, hposition⟩ := exists_rule_of_mem_found hbest.1
      dsimp only
      rw [hposition]
      split_ifs
      · simp [Expr.Marked, Expr.outerCalls, Expr.not_anyMarker_nil]
      · exact h.not_marked rule hrule

/-- That resolving a pair leads to one without a rule, or too deep. -/
def Unresolvable (book : RuleBook) (left : Nat) (pair : Pair) : Prop :=
  (∃ n, n < left ∧ ∃ reached, book.Reaches n pair reached ∧ book.Unmatched reached) ∨
    ∃ reached, book.Reaches left pair reached

theorem not_unresolvable (h : pair.isIdentity) (left : Nat) : ¬book.Unresolvable left pair := by
  have hnone : ∀ n reached, ¬book.Reaches n pair reached := by
    rintro n reached (⟨hproper⟩ | ⟨hproper, -, -⟩) <;> simp [h] at hproper
  rintro (⟨n, -, reached, hreached, -⟩ | ⟨reached, hreached⟩)
  · exact hnone n reached hreached
  · exact hnone left reached hreached

theorem unresolvable_succ_iff (h : pair.isIdentity = false) (left : Nat) :
    book.Unresolvable (left + 1) pair ↔ book.Unmatched pair ∨
      ∃ next ∈ (book.candidate pair).barePairs pair, book.Unresolvable left next := by
  constructor
  · rintro (⟨n, hn, reached, hreached, hunmatched⟩ | ⟨reached, hreached⟩)
    · cases hreached with
      | here => exact .inl hunmatched
      | step _ hnext hrest =>
          exact .inr ⟨_, hnext, .inl ⟨_, Nat.lt_of_succ_lt_succ hn, _, hrest, hunmatched⟩⟩
    · cases hreached with
      | step _ hnext hrest => exact .inr ⟨_, hnext, .inr ⟨reached, hrest⟩⟩
  · rintro (hunmatched | ⟨next, hnext, ⟨n, hn, reached, hrest, hunmatched⟩ | ⟨reached, hrest⟩⟩)
    · exact .inl ⟨0, Nat.succ_pos _, pair, .here h, hunmatched⟩
    · exact .inl ⟨n + 1, Nat.succ_lt_succ hn, reached, .step h hnext hrest, hunmatched⟩
    · exact .inr ⟨reached, .step h hnext hrest⟩

theorem marked_inline (h : book.Loaded) (left : Nat) (pair : Pair) :
    (book.inline left pair).value.Marked ↔ book.Unresolvable left pair := by
  induction left generalizing pair with
  | zero =>
      rw [inline]
      split_ifs with hidentity
      · exact iff_of_false Expr.not_anyMarker_nil (not_unresolvable hidentity 0)
      · exact iff_of_true (Expr.anyMarker_singleton.mpr (by decide))
          (.inr ⟨pair, .here (by simpa using hidentity)⟩)
  | succ left ih =>
      rw [inline]
      split_ifs with hidentity
      · exact iff_of_false Expr.not_anyMarker_nil (not_unresolvable hidentity _)
      · rw [unresolvable_succ_iff (by simpa using hidentity), Expr.marked_resolve,
          marked_candidate h]
        simp only [ih]

/-- The rule of a pair is marked, and cut off, where inlining that pair would be. -/
theorem exists_resolution (book : RuleBook) (pair : Pair) : ∃ r,
    book.ruleFor pair = .ofResolved pair r ∧
      (r.value.Marked ↔ (book.inline (maxIndirections + 1) pair).value.Marked) ∧
      r.cutOff = (book.inline (maxIndirections + 1) pair).cutOff := by
  obtain ⟨e, hrule, ⟨hidentity, rfl⟩ | ⟨hidentity, rfl | ⟨low, high, rfl⟩⟩⟩ :=
    book.ruleFor_cases pair
  · refine ⟨_, hrule, ?_⟩
    rw [inline, if_pos hidentity]
    exact ⟨Iff.rfl, rfl⟩
  · refine ⟨_, hrule, ?_⟩
    rw [inline, if_neg (by simp [hidentity])]
    exact ⟨Iff.rfl, rfl⟩
  · -- The factors around the rule neither mark it nor refer to another one.
    have htimes : book.resolve pair (.binary .mul (book.candidate pair) (.factors low high)) = _ :=
      resolve_times book book.spread pair (book.candidate pair)
    refine ⟨_, hrule, ?_⟩
    rw [Expr.factors] at htimes
    rw [htimes, inline, if_neg (by simp [hidentity]), Expr.Marked, Expr.outerCalls,
      Expr.anyMarker_append]
    exact ⟨or_iff_left Expr.not_anyMarker_nil, rfl⟩

/-- A rule reports that it could not be resolved if and only if the resolution reached a pair
without a rule or one behind too many indirections, and in the latter case it reports that as
well. No exchange of a script can be called such that it makes a difference. -/
theorem Loaded.preprocessError_iff (h : book.Loaded) (pair : Pair) (quotes : Quotes) :
    let errors := ((book.ruleFor pair).supply quotes).reevaluate.errors
    (.preprocessError ∈ errors ↔
      (∃ n ≤ maxIndirections, ∃ reached, book.Reaches n pair reached ∧ book.Unmatched reached) ∨
        ∃ reached, book.Reaches (maxIndirections + 1) pair reached) ∧
    (.tooMuchNestedCalls ∈ errors ↔ ∃ reached, book.Reaches (maxIndirections + 1) pair reached) ∧
    ∀ rule ∈ book.rules, ¬rule.2.Marked := by
  obtain ⟨r, hrule, hmarked, hcut⟩ := book.exists_resolution pair
  have hresolution : (Rule.ofResolved pair r).resolutionErrors =
      if r.cutOff then [.tooMuchNestedCalls] else [] := rfl
  intro errors
  refine ⟨?_, ?_, h.not_marked⟩
  · rw [Rule.mem_errors_reevaluate_of_not_operator (by decide), hrule]
    have hnot : .preprocessError ∉ (Rule.ofResolved pair r).resolutionErrors := by
      rw [hresolution]
      split_ifs <;> decide
    refine (or_iff_right hnot).trans (Expr.preprocessError_mem_quoteErrors.trans ?_)
    refine (hmarked.trans (marked_inline h _ pair)).trans ?_
    simp only [Unresolvable, Nat.lt_succ_iff]
  · rw [Rule.mem_errors_reevaluate_of_not_operator (by decide), hrule]
    refine (or_iff_left (Expr.tooMuchNestedCalls_not_mem_quoteErrors _ _)).trans ?_
    change .tooMuchNestedCalls ∈ (Rule.ofResolved pair r).resolutionErrors ↔ _
    rw [hresolution, ← chain_iff_reaches, ← cutOff_inline, ← hcut]
    cases r.cutOff <;> simp

/-- Exchanges called like markers, a pair without a rule behind one of them, and a rule that
refers to itself. -/
theorem preprocessError_unless_resolved :
    let script := "BTC_USD = ERR_A(BTC_USD); LTC_USD = Err_B(LTC_USD) * ETH_CHF; X_EUR = X_EUR"
    let errors := fun (book : RuleBook) pair =>
      ((book.ruleFor pair).supply .empty).reevaluate.errors
    ∃ book, read script = .ok book ∧
      .preprocessError ∉ errors book ⟨"BTC", "USD"⟩ ∧
      .preprocessError ∈ errors book ⟨"LTC", "USD"⟩ ∧
      .tooMuchNestedCalls ∉ errors book ⟨"LTC", "USD"⟩ ∧
      ∃ reached, book.Reaches (maxIndirections + 1) ⟨"XMR", "EUR"⟩ reached := by
  intro script errors
  have hrules : (read script).toOption.map (fun book =>
      ((book.candidate ⟨"LTC", "USD"⟩).barePairs ⟨"LTC", "USD"⟩, book.bestMatch? ⟨"ETH", "CHF"⟩,
        errors book ⟨"BTC", "USD"⟩,
        decide (.tooMuchNestedCalls ∈ errors book ⟨"LTC", "USD"⟩),
        errors book ⟨"XMR", "EUR"⟩)) =
      some ([⟨"ETH", "CHF"⟩], none, [.rateUnavailable], false,
        [.tooMuchNestedCalls, .preprocessError]) := by
    decide +kernel
  cases hread : read script with
  | error e => simp [hread, Except.toOption] at hrules
  | ok book =>
      rw [hread] at hrules
      simp only [Except.toOption, Option.map_some, Option.some.injEq, Prod.mk.injEq,
        decide_eq_false_iff_not] at hrules
      obtain ⟨hbare, hmatch, hnamed, hshallow, hdeep⟩ := hrules
      have hiff (pair : Pair) := (Loaded.read hread).preprocessError_iff pair .empty
      refine ⟨book, rfl, ?_, (hiff ⟨"LTC", "USD"⟩).1.mpr ?_, hshallow,
        (hiff ⟨"XMR", "EUR"⟩).2.1.mp ?_⟩
      · rw [hnamed]
        decide
      · refine .inl ⟨1, by decide, ⟨"ETH", "CHF"⟩, .step (by decide) ?_ (.here (by decide)),
          bestMatch?_eq_none.mp hmatch⟩
        rw [hbare]
        exact List.mem_singleton_self _
      · change .tooMuchNestedCalls ∈ errors book ⟨"XMR", "EUR"⟩
        rw [hdeep]
        decide

end RuleBook

end Paydesk.Rates

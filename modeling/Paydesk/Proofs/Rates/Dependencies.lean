import Paydesk.Proofs.Rates.Evaluation
import Paydesk.Proofs.Rates.Quotes
import Paydesk.Rates.Rule

/-!
The quotes that a rule lists, against those that its evaluation looks up.
-/

namespace Paydesk.Rates

namespace RuleError

theorem mem_collect {error : RuleError} {errors : List RuleError} :
    error ∈ collect errors ↔ error ∈ errors := by
  have hall : error ∈ all := by cases error <;> decide
  simp [collect, hall]

end RuleError

namespace Expr

mutual

/-- The quotes that an expression asks for where it stands, without those inside of
the arguments of its calls. -/
def dependencies : Expr → List (String × Pair)
  | .call callee args => if callee.isMarkerName then [] else (quoteOf? callee args).toList
  | .binary _ left right => left.dependencies ++ right.dependencies
  | .signed _ operand => operand.dependencies
  | .tuple items => dependenciesList items
  | .literal _ => []
  | .name _ => []
  | .quoted _ => []

def dependenciesList : List Expr → List (String × Pair)
  | [] => []
  | e :: es => e.dependencies ++ dependenciesList es

end

/-- How operators and operands fail. -/
def operatorErrors : List RuleError :=
  [.unsupportedOperator, .missingArgument, .divideByZero, .invalidNegative]

/-- A result that, if it is not there, an operator failed to give. -/
def OfOperators {α : Type} (r : Except RuleError α) : Prop :=
  ∀ error, r = .error error → error ∈ operatorErrors

theorem evaluate_ofOperators (e : Expr) : OfOperators e.evaluate := by
  have hsubset : ∀ error ∈ nodeErrors, error ∈ operatorErrors := by decide
  intro error herror
  rw [evaluate_eq_value] at herror
  exact hsubset error (mem_nodeErrors_of_value e herror)

/-- What can be wrong with a quote that is asked for by the name of an exchange. -/
def quoteFailures : List RuleError := [.preprocessError, .unsupportedOperator, .rateUnavailable]

theorem mem_quoteFailures {quotes : Quotes} {exchange : String} {args : List Expr}
    {error : RuleError} (h : error ∈ callErrors quotes (.name exchange) args) :
    error ∈ quoteFailures := by
  simp only [callErrors] at h
  split_ifs at h
  · exact List.mem_singleton.mp h ▸ by decide
  · split at h
    · exact List.mem_singleton.mp h ▸ by decide
    · split_ifs at h
      · cases h
      · exact List.mem_singleton.mp h ▸ by decide

section Missing

variable (quotes : Quotes)

theorem mem_callErrors (callee : Expr) (args : List Expr) :
    .rateUnavailable ∈ callErrors quotes callee args ↔
      quotes.Misses (Expr.call callee args).dependencies := by
  cases callee with
  | name exchange =>
      rw [callErrors, dependencies, isMarkerName]
      cases isMarker exchange with
      | true => simp [Quotes.Misses]
      | false =>
          cases quoteOf? (.name exchange) args with
          | none => simp [Quotes.Misses]
          | some call => cases hquote : quotes.get? call.1 call.2 <;> simp [Quotes.Misses, hquote]
  | _ => simp [callErrors, dependencies, isMarkerName, quoteOf?, Quotes.Misses]

mutual

theorem mem_quoteErrors : ∀ e : Expr,
    .rateUnavailable ∈ e.quoteErrors quotes ↔ quotes.Misses e.dependencies
  | .call callee args => by
      rw [quoteErrors, mem_callErrors]
  | .binary _ left right => by
      rw [quoteErrors, dependencies, List.mem_append, Quotes.misses_append, mem_quoteErrors left,
        mem_quoteErrors right]
  | .signed _ operand => by
      rw [quoteErrors, dependencies, mem_quoteErrors operand]
  | .tuple items => by
      rw [quoteErrors, dependencies, mem_quoteErrorsList items]
  | .literal _ => by simp [quoteErrors, dependencies, Quotes.not_misses_nil]
  | .name _ => by simp [quoteErrors, dependencies, Quotes.not_misses_nil]
  | .quoted _ => by simp [quoteErrors, dependencies, Quotes.not_misses_nil]

theorem mem_quoteErrorsList : ∀ es : List Expr,
    .rateUnavailable ∈ quoteErrorsList quotes es ↔ quotes.Misses (dependenciesList es)
  | [] => by simp [quoteErrorsList, dependenciesList, Quotes.not_misses_nil]
  | e :: es => by
      rw [quoteErrorsList, dependenciesList, List.mem_append, Quotes.misses_append,
        mem_quoteErrors e, mem_quoteErrorsList es]

end

end Missing

end Expr

namespace Resolution

variable {α β : Type}

@[simp] theorem value_pure (a : α) : (pure a : Resolution α).value = a := rfl

@[simp] theorem calls_pure (a : α) : (pure a : Resolution α).calls = [] := rfl

@[simp] theorem value_bind (r : Resolution α) (f : α → Resolution β) :
    (r >>= f).value = (f r.value).value := rfl

@[simp] theorem calls_bind (r : Resolution α) (f : α → Resolution β) :
    (r >>= f).calls = r.calls ++ (f r.value).calls := rfl

theorem append_subset {asked others calls calls' : List (String × Pair)} (h : asked ⊆ calls)
    (h' : others ⊆ calls') : asked ++ others ⊆ calls ++ calls' :=
  List.append_subset.mpr
    ⟨List.subset_append_of_subset_left _ h, List.subset_append_of_subset_right _ h'⟩

/-- Whatever an expression asks for was noted down when it was resolved. -/
def Lists (r : Resolution Expr) : Prop := r.value.dependencies ⊆ r.calls

end Resolution

namespace Expr

mutual

theorem resolve_lists {inline : Pair → Resolution Expr} (hinline : ∀ pair, (inline pair).Lists)
    (target : Pair) : ∀ (e : Expr) (inCall : Bool), (e.resolve target inline inCall).Lists
  | .name text, inCall => by
      rw [resolve]
      split
      · exact List.nil_subset _
      · split
        · exact List.nil_subset _
        · exact hinline _
  | .call callee args, inCall => by
      rw [resolve]
      split
      · rename_i hmarker
        simp [Resolution.Lists, dependencies, hmarker]
      · rename_i hplain
        simp [Resolution.Lists, Resolution.asks, dependencies, hplain]
  | .binary op left right, inCall => by
      rw [resolve]
      simp only [Resolution.Lists, Resolution.value_bind, Resolution.calls_bind,
        Resolution.value_pure, Resolution.calls_pure, dependencies, List.append_nil]
      exact Resolution.append_subset (resolve_lists hinline target left inCall)
        (resolve_lists hinline target right inCall)
  | .signed sign operand, inCall => by
      rw [resolve]
      simpa [Resolution.Lists, dependencies] using
        resolve_lists hinline target operand inCall
  | .tuple items, inCall => by
      rw [resolve]
      simpa [Resolution.Lists, dependencies] using
        resolveList_lists hinline target items inCall
  | .literal value, _ => List.nil_subset _
  | .quoted spread, _ => List.nil_subset _

theorem resolveList_lists {inline : Pair → Resolution Expr}
    (hinline : ∀ pair, (inline pair).Lists) (target : Pair) : ∀ (es : List Expr) (inCall : Bool),
    dependenciesList (resolveList target inline inCall es).value ⊆
      (resolveList target inline inCall es).calls
  | [], _ => List.nil_subset _
  | e :: es, inCall => by
      rw [resolveList]
      simp only [Resolution.value_bind, Resolution.calls_bind, Resolution.value_pure,
        Resolution.calls_pure, dependenciesList, List.append_nil]
      exact Resolution.append_subset (resolve_lists hinline target e inCall)
        (resolveList_lists hinline target es inCall)

end

end Expr

namespace Rule

/-- The same rule with other quotes. -/
def supply (r : Rule) (quotes : Quotes) : Rule := { r with quotes }

/-- Errors that an evaluation does not end with were there when the rule was resolved, or are
about its quotes. -/
theorem mem_errors_reevaluate_of_ne {r : Rule} {error : RuleError}
    (h : (r.expr.withQuotes r.quotes).evaluate ≠ .error error) : error ∈ r.reevaluate.errors ↔
      error ∈ r.resolutionErrors ∨ error ∈ r.expr.quoteErrors r.quotes := by
  have hcollected : error ∈ RuleError.collect (r.resolutionErrors ++ r.expr.quoteErrors r.quotes) ↔
      error ∈ r.resolutionErrors ∨ error ∈ r.expr.quoteErrors r.quotes := by
    rw [RuleError.mem_collect, List.mem_append]
  rw [← hcollected]
  simp only [reevaluate]
  split
  · rename_i hempty
    rw [List.isEmpty_iff.mp hempty]
    split
    · rfl
    · rename_i failure hfailure
      refine iff_of_false (fun hmem => h ?_) List.not_mem_nil
      rw [hfailure, List.mem_singleton.mp hmem]
  · rfl

/-- In particular those that no operator gives. -/
theorem mem_errors_reevaluate_of_not_operator {r : Rule} {error : RuleError}
    (h : error ∉ Expr.operatorErrors) : error ∈ r.reevaluate.errors ↔
      error ∈ r.resolutionErrors ∨ error ∈ r.expr.quoteErrors r.quotes :=
  mem_errors_reevaluate_of_ne fun hfailure => h (Expr.evaluate_ofOperators _ error hfailure)

theorem mem_errors_reevaluate {r : Rule} (h : .rateUnavailable ∉ r.resolutionErrors) :
    .rateUnavailable ∈ r.reevaluate.errors ↔ r.quotes.Misses r.expr.dependencies := by
  rw [mem_errors_reevaluate_of_not_operator (by decide), Expr.mem_quoteErrors]
  exact or_iff_right h

theorem resolutionErrors_ofResolved_subset (pair : Pair) (r : Resolution Expr) :
    (ofResolved pair r).resolutionErrors ⊆ [.tooMuchNestedCalls] := by
  simp only [ofResolved]
  split
  · exact List.Subset.refl _
  · exact List.nil_subset _

theorem resolutionErrors_ofResolved (pair : Pair) (r : Resolution Expr) :
    .rateUnavailable ∉ (ofResolved pair r).resolutionErrors := fun h =>
  absurd (resolutionErrors_ofResolved_subset pair r h) (by decide)

/-- A rule lists every quote that was asked for when it was resolved, unless that is for
a pair of a currency with itself. -/
theorem contains_ofResolved (pair : Pair) (r : Resolution Expr) {exchange : String}
    {quoted : Pair} :
    (ofResolved pair r).quotes.contains exchange quoted ↔ quoted.isIdentity = false ∧
      ∃ call ∈ r.calls, QuoteKey.of exchange quoted = .of call.1 call.2 := by
  rw [ofResolved, Quotes.contains_ofList]
  constructor
  · rintro ⟨q, hq, hidentity, hkey⟩
    obtain ⟨call, hcall, rfl⟩ := List.mem_map.mp hq
    obtain rfl : quoted = call.2 := congrArg QuoteKey.pair hkey
    exact ⟨hidentity, call, hcall, hkey⟩
  · rintro ⟨hidentity, call, hcall, hkey⟩
    obtain rfl : quoted = call.2 := congrArg QuoteKey.pair hkey
    exact ⟨_, List.mem_map_of_mem hcall, hidentity, hkey⟩

end Rule

namespace RuleBook

theorem inline_lists (book : RuleBook) (left : Nat) (pair : Pair) :
    (book.inline left pair).Lists := by
  induction left generalizing pair with
  | zero =>
      rw [inline]
      split
      · exact List.nil_subset _
      · exact List.nil_subset _
  | succ left ih =>
      rw [inline]
      split
      · exact List.nil_subset _
      · exact Expr.resolve_lists ih pair _ false

theorem resolve_lists (book : RuleBook) (pair : Pair) (e : Expr) : (book.resolve pair e).Lists :=
  Expr.resolve_lists (book.inline_lists maxIndirections) pair e false

theorem ruleFor_eq_ofResolved (book : RuleBook) (pair : Pair) :
    ∃ r : Resolution Expr, r.Lists ∧ book.ruleFor pair = .ofResolved pair r := by
  unfold ruleFor
  split
  · exact ⟨_, book.resolve_lists pair _, rfl⟩
  · exact ⟨_, book.resolve_lists pair _, rfl⟩

/-- Where every listed quote is known, a rate is unavailable exactly if the rule asks
for a pair of a currency with itself: no quote can be given for that. -/
theorem rateUnavailable_iff_identity (book : RuleBook) (pair : Pair) {quotes : Quotes}
    (hproper : quotes.Proper)
    (hknown : ∀ q ∈ (book.ruleFor pair).quotes.toList, (quotes.get? q.exchange q.pair).isSome) :
    .rateUnavailable ∈ ((book.ruleFor pair).supply quotes).reevaluate.errors ↔
      ∃ call ∈ (book.ruleFor pair).expr.dependencies, call.2.isIdentity := by
  obtain ⟨r, hlists, hr⟩ := book.ruleFor_eq_ofResolved pair
  rw [hr] at hknown ⊢
  refine (Rule.mem_errors_reevaluate (r := (Rule.ofResolved pair r).supply quotes)
    (Rule.resolutionErrors_ofResolved pair r)).trans ?_
  refine exists_congr fun call => and_congr_right fun hcall => ?_
  cases hidentity : call.2.isIdentity with
  | true =>
      refine iff_of_true ?_ rfl
      by_contra hsome
      have hcontains := Quotes.contains_of_get? (Option.isSome_iff_ne_none.mpr hsome)
      simp [hproper.isIdentity_of_contains hcontains] at hidentity
  | false =>
      refine iff_of_false ?_ (by simp)
      have hlisted := (Rule.contains_ofResolved pair r).mpr
        ⟨hidentity, call, hlists hcall, rfl⟩
      obtain ⟨spread, hmem⟩ := Quotes.mem_toList_of_contains hlisted
      have hsome := hknown _ hmem
      rw [Quotes.get?_lower] at hsome
      exact Option.isSome_iff_ne_none.mp hsome

theorem rateUnavailable_of_identity : ∃ book,
    read "LTC_X = bittrex(LTC_X) * kraken(BTC_X)" = .ok book ∧
    .rateUnavailable ∈ ((book.ruleFor ⟨"LTC", "BTC"⟩).supply
      (Quotes.empty.set "bittrex" ⟨"LTC", "BTC"⟩ (.point .one))).reevaluate.errors := by
  have hrule : (read "LTC_X = bittrex(LTC_X) * kraken(BTC_X)").toOption.map
      (fun book => ((book.ruleFor ⟨"LTC", "BTC"⟩).quotes.toList,
        (book.ruleFor ⟨"LTC", "BTC"⟩).expr.dependencies)) =
      some ([⟨"bittrex", ⟨"LTC", "BTC"⟩, none⟩],
        [("bittrex", ⟨"LTC", "BTC"⟩), ("kraken", ⟨"BTC", "BTC"⟩)]) := by
    decide +kernel
  cases hread : read "LTC_X = bittrex(LTC_X) * kraken(BTC_X)" with
  | error e => simp [hread, Except.toOption] at hrule
  | ok book =>
      rw [hread] at hrule
      obtain ⟨hlisted, hasked⟩ := Prod.mk.inj (Option.some.inj hrule)
      refine ⟨book, rfl, (rateUnavailable_iff_identity book _
        (Quotes.Proper.empty.set _ _ _) ?_).mpr ?_⟩
      · rw [hlisted]
        intro q hq
        obtain rfl := List.mem_singleton.mp hq
        decide +kernel
      · rw [hasked]
        exact ⟨("kraken", ⟨"BTC", "BTC"⟩), by simp, by decide⟩

end RuleBook

end Paydesk.Rates

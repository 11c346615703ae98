import Paydesk.Proofs.Rates.Factors

/-!
What remains of the past of a rule: the quotes that it holds, and the errors that were found
when it was resolved. Nothing of an evaluation is left for the next one.
-/

namespace Paydesk.Rates.Rule

/-- A change of the quotes that a rule holds. -/
inductive Update
  | set (exchange : String) (pair : Pair) (spread : Spread)
  | add (q : Quote)
  | extend (other : Quotes)
  | fetch (source : String → Pair → Option Spread)

def Update.apply (quotes : Quotes) : Update → Quotes
  | .set exchange pair spread => quotes.set exchange pair spread
  | .add q => quotes.add q
  | .extend other => quotes.extend other
  | .fetch source => quotes.fetchFrom source

/-- What is done to a rule. -/
inductive Event
  | update (u : Update)
  | evaluation

def Event.update? : Event → Option Update
  | .update u => some u
  | .evaluation => none

def step (r : Rule) : Event → Rule
  | .update u => r.supply (u.apply r.quotes)
  | .evaluation => r.reevaluate

/-- A rule after all that was done to it. -/
def after (r : Rule) (events : List Event) : Rule := events.foldl step r

/-- An evaluation does not look at the errors and the value of an earlier one. -/
theorem reevaluate_outcome (r : Rule) (errors : List RuleError) (value : Option Spread) :
    { r with errors, value }.reevaluate = r.reevaluate := rfl

theorem exists_reevaluate_eq (r : Rule) :
    ∃ errors value, r.reevaluate = { r with errors, value } := by
  rw [reevaluate_eq]
  split_ifs
  · split <;> exact ⟨_, _, rfl⟩
  · exact ⟨_, _, rfl⟩

theorem reevaluate_reevaluate (r : Rule) : r.reevaluate.reevaluate = r.reevaluate := by
  obtain ⟨errors, value, h⟩ := r.exists_reevaluate_eq
  rw [h, reevaluate_outcome, h]

theorem value_isSome_iff (r : Rule) : r.reevaluate.value.isSome ↔ r.reevaluate.errors = [] := by
  rw [reevaluate_eq]
  split_ifs with hnone
  · cases (r.expr.withQuotes r.quotes).value <;> simp
  · simpa using fun hcollected => hnone (by simp [hcollected])

theorem succeeded_iff_errors (r : Rule) : r.reevaluate.succeeded ↔ r.reevaluate.errors = [] := by
  rw [succeeded, Bool.and_eq_true, value_isSome_iff, List.isEmpty_iff, and_self]

theorem succeeded_iff_spread? (r : Rule) :
    r.reevaluate.succeeded ↔ r.reevaluate.spread?.isSome := by
  rw [succeeded, spread?, Bool.and_eq_true]
  split_ifs with hnone <;> simp [hnone]

theorem spread?_eq_some_iff (r : Rule) {v : Spread} : r.reevaluate.spread? = some v ↔
    r.resolutionErrors = [] ∧ r.expr.Evaluates r.quotes v := by
  rw [← yields_iff, Yields, succeeded_iff_spread?]
  exact (and_iff_right_of_imp fun h => Option.isSome_iff_exists.mpr ⟨v, h⟩).symm

theorem resolutionErrors_subset (r : Rule) : r.resolutionErrors ⊆ r.reevaluate.errors := by
  intro error herror
  have hcollected : error ∈ RuleError.collect r.faults :=
    RuleError.mem_collect.mpr (List.mem_append_left _ herror)
  rw [reevaluate_eq]
  split_ifs with hnone
  · rw [List.isEmpty_iff.mp hnone] at hcollected
    cases hcollected
  · exact hcollected

/-- What stays of a rule as it was resolved, whatever is done to it. -/
structure StaysResolved (fresh r : Rule) : Prop where
  same : ∃ errors value, r = { fresh.supply r.quotes with errors, value }
  kept : fresh.resolutionErrors ⊆ r.errors

variable {fresh r : Rule}

theorem StaysResolved.step (h : StaysResolved fresh r) (event : Event) :
    StaysResolved fresh (r.step event) := by
  obtain ⟨⟨errors, value, hr⟩, hkept⟩ := h
  cases event with
  | update u =>
      refine ⟨⟨errors, value, ?_⟩, hkept⟩
      rw [Rule.step, hr]
      rfl
  | evaluation =>
      -- What was found when the rule was resolved is collected again by every evaluation.
      have hresolved : r.resolutionErrors = fresh.resolutionErrors := by rw [hr]; rfl
      obtain ⟨errors', value', hevaluated⟩ := r.exists_reevaluate_eq
      refine ⟨⟨errors', value', ?_⟩, ?_⟩
      · rw [Rule.step, hevaluated, hr]
        rfl
      · rw [← hresolved]
        exact r.resolutionErrors_subset

theorem quotes_step (r : Rule) (event : Event) :
    (r.step event).quotes = event.update?.toList.foldl Update.apply r.quotes := by
  cases event with
  | update u => rfl
  | evaluation =>
      obtain ⟨errors, value, h⟩ := r.exists_reevaluate_eq
      rw [step, h]
      rfl

theorem StaysResolved.after (h : StaysResolved fresh r) (events : List Event) :
    StaysResolved fresh (r.after events) := by
  induction events generalizing r with
  | nil => exact h
  | cons event events ih => exact ih (h.step event)

theorem quotes_after (r : Rule) (events : List Event) :
    (r.after events).quotes = (events.filterMap Event.update?).foldl Update.apply r.quotes := by
  induction events generalizing r with
  | nil => rfl
  | cons event events ih =>
      have hrest := ih (r.step event)
      rw [quotes_step] at hrest
      cases event <;> exact hrest

/-- The evaluation of a rule with a past is that of the rule as it was resolved, with the
quotes held now. -/
theorem StaysResolved.reevaluate (h : StaysResolved fresh r) :
    r.reevaluate = (fresh.supply r.quotes).reevaluate := by
  obtain ⟨errors, value, hr⟩ := h.same
  generalize r.quotes = quotes at hr
  rw [hr, reevaluate_outcome]

theorem errors_ruleFor (book : RuleBook) (pair : Pair) :
    (book.ruleFor pair).errors = (book.ruleFor pair).resolutionErrors := by
  obtain ⟨resolved, -, hrule⟩ := book.ruleFor_eq_ofResolved pair
  rw [hrule]
  rfl

theorem staysResolved_ruleFor (book : RuleBook) (pair : Pair) :
    StaysResolved (book.ruleFor pair) (book.ruleFor pair) :=
  ⟨⟨_, _, rfl⟩, List.subset_def.mpr fun herror => (errors_ruleFor book pair).symm ▸ herror⟩

/-- An evaluation rests on the resolved rule and the quotes held now, whatever was done
before. It succeeds exactly if there are no errors and exactly if there is a rate; another one
changes nothing. The errors found when the rule was resolved are never dropped. -/
theorem evaluation_forgets (book : RuleBook) (pair : Pair) (events : List Event) :
    let fresh := book.ruleFor pair
    let r := fresh.after events
    let outcome := r.reevaluate
    r.quotes = (events.filterMap Event.update?).foldl Update.apply fresh.quotes ∧
    outcome = (fresh.supply r.quotes).reevaluate ∧
    (∀ v, outcome.spread? = some v ↔
      fresh.resolutionErrors = [] ∧ fresh.expr.Evaluates r.quotes v) ∧
    (outcome.succeeded ↔ outcome.errors = []) ∧
    (outcome.succeeded ↔ outcome.spread?.isSome) ∧
    outcome.reevaluate = outcome ∧
    ∀ error ∈ fresh.errors, error ∈ r.errors ∧ error ∈ outcome.errors := by
  intro fresh r outcome
  have hstays : StaysResolved fresh r := (staysResolved_ruleFor book pair).after events
  have houtcome : outcome = (fresh.supply r.quotes).reevaluate := hstays.reevaluate
  refine ⟨quotes_after fresh events, houtcome, fun v => ?_, succeeded_iff_errors r,
    succeeded_iff_spread? r, reevaluate_reevaluate r, fun error herror => ?_⟩
  · rw [houtcome, spread?_eq_some_iff]
    rfl
  · rw [errors_ruleFor] at herror
    exact ⟨hstays.kept herror, (hstays.step .evaluation).kept herror⟩

end Paydesk.Rates.Rule

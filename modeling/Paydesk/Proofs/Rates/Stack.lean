import Paydesk.Proofs.Rates.Markers
import Paydesk.Proofs.Rates.Updates
import Paydesk.Proofs.Rates.Violations

/-!
The stack of an evaluation. What an operator takes off it are the values of its own operands,
so that none is ever missing, and the values below stay where they are.
-/

namespace Paydesk.Rates

namespace Expr

/-- That while an expression is evaluated on a stack, some number of values is taken off what
the stack has become: two by an operator between operands and by a tuple, one by a sign. -/
inductive Pops : Expr → List Spread → Nat → List Spread → Prop
  | binary {op : BinaryOp} {left right : Expr} {stack s t : List Spread}
      (hleft : left.run stack = .ok s) (hright : right.run s = .ok t) :
      Pops (.binary op left right) stack 2 t
  | left {op : BinaryOp} {left right : Expr} {stack s : List Spread} {n : Nat}
      (h : Pops left stack n s) : Pops (.binary op left right) stack n s
  | right {op : BinaryOp} {left right : Expr} {stack s t : List Spread} {n : Nat}
      (hleft : left.run stack = .ok s) (h : Pops right s n t) :
      Pops (.binary op left right) stack n t
  | signed {sign : Sign} {operand : Expr} {stack s : List Spread}
      (hoperand : operand.run stack = .ok s) : Pops (.signed sign operand) stack 1 s
  | operand {sign : Sign} {operand : Expr} {stack s : List Spread} {n : Nat}
      (h : Pops operand stack n s) : Pops (.signed sign operand) stack n s
  | tuple {items : List Expr} {stack s : List Spread} (hlength : items.length = 2)
      (hitems : runList items stack = .ok s) : Pops (.tuple items) stack 2 s
  | item {before behind : List Expr} {item : Expr} {stack s t : List Spread} {n : Nat}
      (hlength : (before ++ item :: behind).length = 2) (hbefore : runList before stack = .ok s)
      (h : Pops item s n t) : Pops (.tuple (before ++ item :: behind)) stack n t

section Stack

variable {e : Expr} {es : List Expr} {stack s : List Spread} {n : Nat}

theorem run_eq_ok_iff : e.run stack = .ok s ↔ ∃ v, e.value = .ok v ∧ v :: stack = s := by
  rw [run_eq_map_value]
  cases e.value <;> simp [Except.map]

/-- Items leave a value each, the last one on top. -/
theorem exists_of_runList (h : runList es stack = .ok s) :
    ∃ values, values.length = es.length ∧ s = values ++ stack := by
  induction es generalizing stack with
  | nil =>
      obtain rfl := Except.ok.inj h
      exact ⟨[], rfl, rfl⟩
  | cons e es ih =>
      obtain ⟨between, hfirst, hrest⟩ := bind_eq_ok.mp h
      obtain ⟨v, -, rfl⟩ := run_eq_ok_iff.mp hfirst
      obtain ⟨values, hlength, rfl⟩ := ih hrest
      exact ⟨values ++ [v], by simp [hlength], by simp⟩

/-- Enough values for an operator lie above those that were there when the evaluation began. -/
theorem Pops.finds_operands (h : e.Pops stack n s) :
    ∃ operands rest, operands.length = n ∧ s = operands ++ rest ++ stack := by
  -- Inside of an operand, the values of those before it join what lies below.
  induction h with
  | binary hleft hright =>
      obtain ⟨a, -, rfl⟩ := run_eq_ok_iff.mp hleft
      obtain ⟨b, -, rfl⟩ := run_eq_ok_iff.mp hright
      exact ⟨[b, a], [], rfl, rfl⟩
  | left _ ih => exact ih
  | right hleft _ ih =>
      obtain ⟨a, -, rfl⟩ := run_eq_ok_iff.mp hleft
      obtain ⟨operands, rest, hlength, rfl⟩ := ih
      exact ⟨operands, rest ++ [a], hlength, by simp⟩
  | signed hoperand =>
      obtain ⟨a, -, rfl⟩ := run_eq_ok_iff.mp hoperand
      exact ⟨[a], [], rfl, rfl⟩
  | operand _ ih => exact ih
  | tuple hlength hitems =>
      obtain ⟨values, hvalues, rfl⟩ := exists_of_runList hitems
      exact ⟨values, [], hvalues.trans hlength, by simp⟩
  | item _ hbefore _ ih =>
      obtain ⟨values, -, rfl⟩ := exists_of_runList hbefore
      obtain ⟨operands, rest, hlength, rfl⟩ := ih
      exact ⟨operands, rest ++ values, hlength, by simp⟩

theorem value_ne_missingArgument (e : Expr) : e.value ≠ .error .missingArgument := fun h =>
  absurd (mem_nodeErrors_of_value e h) (by decide)

theorem run_ne_missingArgument (e : Expr) (stack : List Spread) :
    e.run stack ≠ .error .missingArgument := by
  rw [run_eq_map_value]
  cases hvalue : e.value with
  | ok v => simp [Except.map]
  | error err =>
      have hne := e.value_ne_missingArgument
      rw [hvalue] at hne
      simpa [Except.map] using hne

end Stack

end Expr

namespace Rule

/-- An evaluation reports no missing operand unless that was known before. -/
theorem missingArgument_mem_errors_iff (r : Rule) :
    .missingArgument ∈ r.reevaluate.errors ↔ .missingArgument ∈ r.resolutionErrors := by
  have hquotes : .missingArgument ∉ r.expr.quoteErrors r.quotes := fun h =>
    absurd (Expr.mem_callFailures_of_quoteErrors _ h) (by decide)
  refine (mem_errors_reevaluate_of_ne ?_).trans (or_iff_left hquotes)
  rw [Expr.evaluate_eq_value]
  exact Expr.value_ne_missingArgument _

theorem resolutionErrors_reevaluate (r : Rule) :
    r.reevaluate.resolutionErrors = r.resolutionErrors := by
  obtain ⟨errors, value, h⟩ := r.exists_reevaluate_eq
  rw [h]

/-- All that can be wrong with a rule before it is evaluated is that it goes too deep. -/
theorem Reached.resolutionErrors_subset {book : RuleBook} {r : Rule} (h : Reached book r) :
    r.resolutionErrors ⊆ [.tooMuchNestedCalls] := by
  induction h with
  | resolved pair =>
      obtain ⟨resolved, -, hrule⟩ := book.ruleFor_eq_ofResolved pair
      exact hrule ▸ resolutionErrors_ofResolved_subset pair resolved
  | supplied quotes _ ih => exact ih
  | evaluated _ ih => exact (resolutionErrors_reevaluate _).symm ▸ ih

end Rule

/-- On any stack an evaluation fails, or leaves one more value there, as the expression without
a stack has it. Every operator finds its operands above the values that were there before, and
so no operand is ever missing, whatever the rule and its quotes. -/
theorem evaluation_pushes_value :
    (∀ (e : Expr) (stack : List Spread), e.run stack = e.value.map (· :: stack)) ∧
    (∀ (e : Expr) (stack s : List Spread) (n : Nat), e.Pops stack n s →
      ∃ operands rest, operands.length = n ∧ s = operands ++ rest ++ stack) ∧
    (∀ (e : Expr) (stack : List Spread), e.run stack ≠ .error .missingArgument) ∧
    ∀ (book : RuleBook) (r : Rule), Rule.Reached book r →
      .missingArgument ∉ r.reevaluate.errors := by
  refine ⟨Expr.run_eq_map_value, fun e stack s n h => h.finds_operands,
    Expr.run_ne_missingArgument, fun book r hr hmissing => ?_⟩
  have hresolution := (Rule.missingArgument_mem_errors_iff r).mp hmissing
  exact absurd (hr.resolutionErrors_subset hresolution) (by decide)

/-- The sides of a spread that is added to one, on a stack with a value below, and a rule that
fails because such a spread has no opposite. -/
theorem evaluation_pushes_sum :
    let below := [Spread.point .zero]
    let one : Spread := .point .one
    let two : Spread := .point (.ofNat 2)
    let three : Spread := .point (.ofNat 3)
    let sides : Expr := .tuple [.literal (.ofNat 2), .literal (.ofNat 3)]
    let sum : Expr := .binary .add (.literal .one) sides
    let book : RuleBook := ⟨[], [(⟨"BTC", "USD"⟩, .signed .minus sum)], .zero⟩
    let r := (book.ruleFor ⟨"BTC", "USD"⟩).supply .empty
    sum.Pops below 2 ([three, two, one] ++ below) ∧
    (∃ operands rest, operands.length = 2 ∧
      [three, two, one] ++ below = operands ++ rest ++ below) ∧
    sum.run below = .ok (⟨.ofNat 3, .ofNat 4⟩ :: below) ∧
    Rule.Reached book r ∧ r.reevaluate.errors = [.invalidNegative] ∧
    .missingArgument ∉ r.reevaluate.errors := by
  intro below one two three sides sum book r
  obtain ⟨hpush, hpops, -, hrule⟩ := evaluation_pushes_value
  have htaken : sum.Pops below 2 ([three, two, one] ++ below) := .right rfl (.tuple rfl rfl)
  have hreached : Rule.Reached book r := .supplied _ (.resolved _)
  refine ⟨htaken, hpops _ _ _ _ htaken, ?_, hreached, by decide +kernel, hrule book r hreached⟩
  rw [hpush]
  rfl

end Paydesk.Rates

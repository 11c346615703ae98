import Mathlib.Data.List.Basic
import Paydesk.Proofs.Outcome
import Paydesk.Rates.Evaluation

/-!
The evaluation of an expression without a stack, and when it succeeds with given quotes.
-/

namespace Paydesk.Rates.Expr

/-- The value of an expression by its structure. -/
def value : Expr → Except RuleError Spread
  | .literal d => .ok (.point d)
  | .quoted spread => .ok spread
  | .tuple [bid, ask] => do joinSides (← bid.value) (← ask.value)
  | .tuple _ => .error .unsupportedOperator
  | .binary op left right => do applyOp op (← left.value) (← right.value)
  | .signed sign operand => do applySign sign (← operand.value)
  | .name _ => .error .unsupportedOperator
  | .call _ _ => .error .unsupportedOperator

/-- An evaluation pushes the value and leaves the stack below as it was. -/
theorem run_eq_map_value : ∀ (e : Expr) (stack : List Spread),
    e.run stack = e.value.map (· :: stack)
  | .literal _, _ => rfl
  | .quoted _, _ => rfl
  | .tuple [], _ => rfl
  | .tuple [_], _ => rfl
  | .tuple [bid, ask], stack => by
      rw [run, value]
      simp only [runList, run_eq_map_value bid, run_eq_map_value ask]
      cases bid.value with
      | error => rfl
      | ok b =>
          cases ask.value with
          | error => rfl
          | ok a =>
              change (do .ok ((← joinSides b a) :: stack)) = (joinSides b a).map (· :: stack)
              cases joinSides b a <;> rfl
  | .tuple (_ :: _ :: _ :: _), _ => by
      rw [run, value]
      · rfl
      · simp
  | .binary op left right, stack => by
      rw [run, value, run_eq_map_value left]
      cases left.value with
      | error => rfl
      | ok a =>
          simp only [Except.map, bind, Except.bind, run_eq_map_value right]
          cases right.value with
          | error => rfl
          | ok b =>
              change (do .ok ((← applyOp op a b) :: stack)) = (applyOp op a b).map (· :: stack)
              cases applyOp op a b <;> rfl
  | .signed sign operand, stack => by
      rw [run, value, run_eq_map_value operand]
      cases operand.value with
      | error => rfl
      | ok a =>
          change (do .ok ((← applySign sign a) :: stack)) = (applySign sign a).map (· :: stack)
          cases applySign sign a <;> rfl
  | .name _, _ => rfl
  | .call _ _, _ => rfl

theorem evaluate_eq_value (e : Expr) : e.evaluate = e.value := by
  rw [evaluate, run_eq_map_value]
  cases e.value <;> rfl

/-- How a node fails of itself: nothing of its kind has a value, or its operands have no
result. -/
def nodeErrors : List RuleError := [.unsupportedOperator, .divideByZero, .invalidNegative]

section NodeErrors

variable {err : RuleError} {a b : Spread}

theorem mem_nodeErrors_of_applyOp {op : BinaryOp} (h : applyOp op a b = .error err) :
    err ∈ nodeErrors := by
  have horElse (result : Option Spread) {e : RuleError} (he : e ∈ nodeErrors)
      (h : applyOp.orElse result e = .error err) : err ∈ nodeErrors := by
    cases result with
    | none => exact Except.error.inj h ▸ he
    | some v => cases h
  cases op <;> exact horElse _ (by decide) h

theorem mem_nodeErrors_of_applySign {sign : Sign} (h : applySign sign a = .error err) :
    err ∈ nodeErrors := by
  unfold applySign at h
  split at h
  · cases h
  · split_ifs at h
    cases h
    decide

theorem mem_nodeErrors_of_joinSides (h : joinSides a b = .error err) : err ∈ nodeErrors := by
  unfold joinSides at h
  split_ifs at h
  · split at h
    · cases h
    · cases h
      decide
  · cases h
    decide

/-- An expression has no value because some node fails of itself, and never for want of an
operand. -/
theorem mem_nodeErrors_of_value : ∀ (e : Expr), e.value = .error err → err ∈ nodeErrors
  | .literal _, h => by cases h
  | .quoted _, h => by cases h
  | .tuple [bid, ask], h => by
      rcases bind_eq_error.mp h with h | ⟨a, -, h⟩
      · exact mem_nodeErrors_of_value bid h
      · rcases bind_eq_error.mp h with h | ⟨b, -, h⟩
        · exact mem_nodeErrors_of_value ask h
        · exact mem_nodeErrors_of_joinSides h
  | .binary op left right, h => by
      rcases bind_eq_error.mp h with h | ⟨a, -, h⟩
      · exact mem_nodeErrors_of_value left h
      · rcases bind_eq_error.mp h with h | ⟨b, -, h⟩
        · exact mem_nodeErrors_of_value right h
        · exact mem_nodeErrors_of_applyOp h
  | .signed sign operand, h => by
      rcases bind_eq_error.mp h with h | ⟨a, -, h⟩
      · exact mem_nodeErrors_of_value operand h
      · exact mem_nodeErrors_of_applySign h
  | .tuple [], h => Except.error.inj h ▸ by decide
  | .tuple [_], h => Except.error.inj h ▸ by decide
  | .tuple (_ :: _ :: _ :: _), h => Except.error.inj h ▸ by decide
  | .name _, h => Except.error.inj h ▸ by decide
  | .call _ _, h => Except.error.inj h ▸ by decide

end NodeErrors

/-- That all quotes an expression asks for are known, and its value with them. -/
def Evaluates (quotes : Quotes) (e : Expr) (v : Spread) : Prop :=
  e.quoteErrors quotes = [] ∧ (e.withQuotes quotes).value = .ok v

section Evaluates

variable {quotes : Quotes} {v : Spread}

attribute [local simp] quoteErrors quoteErrorsList withQuotes withQuotesList value

theorem evaluates_literal {d : Decimal} : (literal d).Evaluates quotes v ↔ v = .point d := by
  simp [Evaluates, eq_comm]

theorem evaluates_quoted {spread : Spread} : (quoted spread).Evaluates quotes v ↔ v = spread := by
  simp [Evaluates, eq_comm]

theorem not_evaluates_name {text : String} : ¬(name text).Evaluates quotes v := by
  simp [Evaluates]

theorem evaluates_binary {op : BinaryOp} {left right : Expr} :
    (binary op left right).Evaluates quotes v ↔
      ∃ a b, left.Evaluates quotes a ∧ right.Evaluates quotes b ∧ applyOp op a b = .ok v := by
  simp only [Evaluates, quoteErrors, withQuotes, value, List.append_eq_nil_iff, bind_eq_ok]
  constructor
  · rintro ⟨⟨hleft, hright⟩, a, ha, b, hb, hv⟩
    exact ⟨a, b, ⟨hleft, ha⟩, ⟨hright, hb⟩, hv⟩
  · rintro ⟨a, b, ⟨hleft, ha⟩, ⟨hright, hb⟩, hv⟩
    exact ⟨⟨hleft, hright⟩, a, ha, b, hb, hv⟩

theorem evaluates_signed {sign : Sign} {operand : Expr} :
    (signed sign operand).Evaluates quotes v ↔
      ∃ a, operand.Evaluates quotes a ∧ applySign sign a = .ok v := by
  simp only [Evaluates, quoteErrors, withQuotes, value, bind_eq_ok]
  constructor
  · rintro ⟨hoperand, a, ha, hv⟩
    exact ⟨a, ⟨hoperand, ha⟩, hv⟩
  · rintro ⟨a, ⟨hoperand, ha⟩, hv⟩
    exact ⟨hoperand, a, ha, hv⟩

theorem evaluates_tuple {items : List Expr} : (tuple items).Evaluates quotes v ↔
    ∃ bid ask, items = [bid, ask] ∧ ∃ a b, bid.Evaluates quotes a ∧ ask.Evaluates quotes b ∧
      joinSides a b = .ok v := by
  match items with
  | [] | [_] | _ :: _ :: _ :: _ => simp [Evaluates]
  | [bid, ask] =>
      simp only [Evaluates, quoteErrors, quoteErrorsList, withQuotes, withQuotesList, value,
        List.append_nil, List.append_eq_nil_iff, bind_eq_ok, List.cons.injEq, and_true]
      constructor
      · rintro ⟨⟨hbid, hask⟩, a, ha, b, hb, hv⟩
        exact ⟨bid, ask, ⟨rfl, rfl⟩, a, b, ⟨hbid, ha⟩, ⟨hask, hb⟩, hv⟩
      · rintro ⟨_, _, ⟨rfl, rfl⟩, a, b, ⟨hbid, ha⟩, ⟨hask, hb⟩, hv⟩
        exact ⟨⟨hbid, hask⟩, a, ha, b, hb, hv⟩

theorem quoteOf?_eq_some {callee : Expr} {args : List Expr} {exchange : String} {pair : Pair} :
    quoteOf? callee args = some (exchange, pair) ↔
      ∃ text, callee = .name exchange ∧ args = [.name text] ∧ Pair.parse? text = some pair := by
  unfold quoteOf?
  split
  · next exchange' text =>
    simp only [Option.map_eq_some_iff, Prod.mk.injEq, name.injEq, List.cons.injEq, and_true]
    constructor
    · rintro ⟨pair', hpair, rfl, rfl⟩
      exact ⟨text, rfl, rfl, hpair⟩
    · rintro ⟨_, rfl, rfl, hpair⟩
      exact ⟨pair, hpair, rfl, rfl⟩
  · next hne =>
    simp only [reduceCtorEq, false_iff]
    rintro ⟨text, rfl, rfl, -⟩
    exact hne exchange text rfl rfl

/-- A call has a value if it asks an exchange for one pair whose quote is known. -/
theorem evaluates_call {callee : Expr} {args : List Expr} :
    (call callee args).Evaluates quotes v ↔
      ∃ exchange text pair, callee = .name exchange ∧ args = [.name text] ∧
        isMarker exchange = false ∧ Pair.parse? text = some pair ∧
        quotes.get? exchange pair = some v := by
  constructor
  · rintro ⟨herrors, hvalue⟩
    rw [quoteErrors] at herrors
    unfold callErrors at herrors
    split at herrors
    · next exchange =>
      split_ifs at herrors with hmarker
      split at herrors
      · cases herrors
      · next exchange' pair hquote =>
        obtain ⟨text, ⟨⟩, rfl, hpair⟩ := quoteOf?_eq_some.mp hquote
        split_ifs at herrors with hsome
        obtain ⟨spread, hspread⟩ := Option.isSome_iff_exists.mp hsome
        rw [withQuotes, hquote] at hvalue
        simp only [hmarker, hspread, Bool.false_eq_true, if_false, value, Except.ok.injEq] at hvalue
        exact ⟨exchange, text, pair, rfl, rfl, by simpa using hmarker, hpair, hvalue ▸ hspread⟩
    · cases herrors
  · rintro ⟨exchange, text, pair, rfl, rfl, hmarker, hpair, hknown⟩
    have hquote : quoteOf? (.name exchange) [.name text] = some (exchange, pair) :=
      quoteOf?_eq_some.mpr ⟨text, rfl, rfl, hpair⟩
    constructor
    · simp [callErrors, hmarker, hquote, hknown]
    · simp [hmarker, hquote, hknown]

end Evaluates

end Paydesk.Rates.Expr

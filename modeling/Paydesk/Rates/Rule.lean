import Paydesk.Rates.Evaluation

namespace Paydesk.Rates

namespace Expr

/-- A side of a pair, with the wildcard standing for a given code. -/
def bindSide (code side : String) : String := if side == Pair.wildcard then code else side

/-- A pair whose wildcards stand for the sides of a target. -/
def bindPair (target pair : Pair) : Pair :=
  .of (bindSide target.left pair.left) (bindSide target.right pair.right)

end Expr

/-- What comes of resolving something: the quotes that are asked for on the way,
and whether rules refer to each other too deeply. -/
structure Resolution (α : Type) where
  value : α
  calls : List (String × Pair)
  cutOff : Bool

namespace Resolution

instance : Monad Resolution where
  pure value := ⟨value, [], false⟩
  bind r f :=
    match r with
    | ⟨value, calls, cutOff⟩ =>
        match f value with
        | ⟨value, calls', cutOff'⟩ => ⟨value, calls ++ calls', cutOff || cutOff'⟩

def asks (call? : Option (String × Pair)) : Resolution Unit := ⟨(), call?.toList, false⟩

def tooDeep (pair : Pair) : Resolution Expr := ⟨.tooDeep pair, [], true⟩

end Resolution

namespace Expr

mutual

/-- The expression for a target: its wildcards are bound, and a pair outside of
a call is replaced by what `inline` gives for it. -/
def resolve (target : Pair) (inline : Pair → Resolution Expr) (inCall : Bool) :
    Expr → Resolution Expr
  | .name text =>
      match Pair.parse? text with
      | none => return .name text
      | some pair =>
          if inCall then return .name (bindPair target pair).render
          else inline (bindPair target pair)
  | .call callee args =>
      if callee.isMarkerName then return .call callee args
      else do
        let args ← resolveList target inline true args
        .asks (quoteOf? callee args)
        return .call callee args
  | .binary op left right => do
      return .binary op (← left.resolve target inline inCall)
        (← right.resolve target inline inCall)
  | .signed sign operand => return .signed sign (← operand.resolve target inline inCall)
  | .tuple items => return .tuple (← resolveList target inline inCall items)
  | .literal value => return .literal value
  | .quoted spread => return .quoted spread

def resolveList (target : Pair) (inline : Pair → Resolution Expr) (inCall : Bool) :
    List Expr → Resolution (List Expr)
  | [] => return []
  | e :: es => do
      let first ← e.resolve target inline inCall
      return first :: (← resolveList target inline inCall es)

end

end Expr

namespace RuleBook

/-- How many pairs in a row may each be replaced by its rule. -/
def maxIndirections : Nat := 8

/-- The resolved rule of a pair that stands in another rule, with a number of
further indirections allowed. -/
def inline (book : RuleBook) : Nat → Pair → Resolution Expr
  | 0, pair => if pair.isIdentity then return .literal .one else .tooDeep pair
  | left + 1, pair =>
      if pair.isIdentity then return .literal .one
      else (book.candidate pair).resolve pair (inline book left) false

/-- An expression for a pair with everything in it resolved. -/
def resolve (book : RuleBook) (pair : Pair) (e : Expr) : Resolution Expr :=
  e.resolve pair (book.inline maxIndirections) false

/-- The two factors by which the spread of the book widens a rate, if they are
numbers that fit. -/
def widening? (book : RuleBook) : Option Expr := do
  some (.tuple [.literal (← Decimal.one.sub? book.spread),
    .literal (← Decimal.one.add? book.spread)])

end RuleBook

/-- A rule resolved for one pair: what it evaluates, the quotes it depends on,
and the outcome of the last evaluation. -/
structure Rule where
  pair : Pair
  expr : Expr
  quotes : Quotes
  resolutionErrors : List RuleError
  errors : List RuleError
  value : Option Spread
deriving Inhabited

namespace Rule

/-- The rule that consists of a resolved expression, with no quote known. -/
def ofResolved (pair : Pair) (r : Resolution Expr) : Rule :=
  let quotes := Quotes.ofList (r.calls.map fun (exchange, pair) => ⟨exchange, pair, none⟩)
  let errors := if r.cutOff then [.tooMuchNestedCalls] else []
  ⟨pair, r.value, quotes, errors, errors, none⟩

/-- The rate of the last evaluation, unless that failed. -/
def spread? (r : Rule) : Option Spread := if r.errors.isEmpty then r.value else none

/-- Evaluates the rule with the quotes it holds now. Errors of an earlier
evaluation are forgotten, those of its resolution stay. -/
def reevaluate (r : Rule) : Rule :=
  let errors := RuleError.collect (r.resolutionErrors ++ r.expr.quoteErrors r.quotes)
  if errors.isEmpty then
    match (r.expr.withQuotes r.quotes).evaluate with
    | .ok spread => { r with errors := [], value := some spread }
    | .error error => { r with errors := [error], value := none }
  else { r with errors, value := none }

/-- Whether the last evaluation gave a rate. -/
def succeeded (r : Rule) : Bool := r.errors.isEmpty && r.value.isSome

end Rule

/-- The rule for a pair, which widens the rate by the spread of the book. -/
def RuleBook.ruleFor (book : RuleBook) (pair : Pair) : Rule :=
  if pair.isIdentity then .ofResolved pair (book.resolve pair (.literal .onePointZero))
  else
    let candidate := book.candidate pair
    let widened :=
      if book.spread.isZero then candidate
      else
        match book.widening? with
        | some factors => .binary .mul candidate factors
        | none => candidate
    .ofResolved pair (book.resolve pair widened)

end Paydesk.Rates

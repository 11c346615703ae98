import Paydesk.Rates.Quotes
import Paydesk.Rates.RuleBook

namespace Paydesk.Rates.Expr

/-- The exchange and the pair of a call that asks for a quote. -/
def quoteOf? (callee : Expr) (args : List Expr) : Option (String × Pair) :=
  match callee, args with
  | .name exchange, [.name text] => (Pair.parse? text).map (exchange, ·)
  | _, _ => none

mutual

/-- The same expression with the spread of every quote that is known in the
place of its call. -/
def withQuotes (quotes : Quotes) : Expr → Expr
  | .call callee args =>
      match quoteOf? callee args with
      | some (exchange, pair) =>
          if isMarker exchange then .call callee args
          else
            match quotes.get? exchange pair with
            | some spread => .quoted spread
            | none => .call callee args
      | none => .call callee args
  | .binary op left right => .binary op (left.withQuotes quotes) (right.withQuotes quotes)
  | .signed sign operand => .signed sign (operand.withQuotes quotes)
  | .tuple items => .tuple (withQuotesList quotes items)
  | .literal value => .literal value
  | .name text => .name text
  | .quoted spread => .quoted spread

def withQuotesList (quotes : Quotes) : List Expr → List Expr
  | [] => []
  | e :: es => e.withQuotes quotes :: withQuotesList quotes es

end

/-- Why a call cannot be replaced by a quote. -/
def callErrors (quotes : Quotes) (callee : Expr) (args : List Expr) : List RuleError :=
  match callee with
  | .name exchange =>
      if isMarker exchange then [.preprocessError]
      else
        match quoteOf? callee args with
        | none => [.unsupportedOperator]
        | some (exchange, pair) =>
            if (quotes.get? exchange pair).isSome then [] else [.rateUnavailable]
  | _ => [.invalidExchangeName]

mutual

/-- Why not all calls of an expression can be replaced by quotes. -/
def quoteErrors (quotes : Quotes) : Expr → List RuleError
  | .call callee args => callErrors quotes callee args
  | .binary _ left right => left.quoteErrors quotes ++ right.quoteErrors quotes
  | .signed _ operand => operand.quoteErrors quotes
  | .tuple items => quoteErrorsList quotes items
  | .literal _ => []
  | .name _ => []
  | .quoted _ => []

def quoteErrorsList (quotes : Quotes) : List Expr → List RuleError
  | [] => []
  | e :: es => e.quoteErrors quotes ++ quoteErrorsList quotes es

end

def applyOp (op : BinaryOp) (a b : Spread) : Except RuleError Spread :=
  match op with
  | .add => orElse (a.add? b) .unsupportedOperator
  | .sub => orElse (a.sub? b) .unsupportedOperator
  | .mul => orElse (a.mul? b) .unsupportedOperator
  | .div => orElse (a.div? b) .divideByZero
where
  orElse (result : Option Spread) (error : RuleError) : Except RuleError Spread :=
    match result with
    | some spread => .ok spread
    | none => .error error

/-- Only a spread without width has an opposite. -/
def applySign (sign : Sign) (a : Spread) : Except RuleError Spread :=
  match sign with
  | .plus => .ok a
  | .minus => if a.isPoint then .ok (.point a.bid.neg) else .error .invalidNegative

/-- Two values without width, in their order, are the sides of a spread. -/
def joinSides (bid ask : Spread) : Except RuleError Spread :=
  if bid.isPoint && ask.isPoint then
    match Spread.make bid.bid ask.bid with
    | .ok spread => .ok spread
    | .error _ => .error .unsupportedOperator
  else .error .unsupportedOperator

/-- Takes the two values on top of the stack, the upper one second. -/
def popTwo : List Spread → Except RuleError (Spread × Spread × List Spread)
  | b :: a :: stack => .ok (a, b, stack)
  | _ => .error .missingArgument

def popOne : List Spread → Except RuleError (Spread × List Spread)
  | a :: stack => .ok (a, stack)
  | _ => .error .missingArgument

mutual

/-- Evaluates an expression on a stack of values: operands are pushed from left
to right, and every operator replaces its own by the result. -/
def run : Expr → List Spread → Except RuleError (List Spread)
  | .literal value, stack => .ok (.point value :: stack)
  | .quoted spread, stack => .ok (spread :: stack)
  | .tuple items, stack =>
      if items.length != 2 then .error .unsupportedOperator
      else do
        let (bid, ask, stack) ← popTwo (← runList items stack)
        .ok ((← joinSides bid ask) :: stack)
  | .binary op left right, stack => do
      let (a, b, stack) ← popTwo (← right.run (← left.run stack))
      .ok ((← applyOp op a b) :: stack)
  | .signed sign operand, stack => do
      let (a, stack) ← popOne (← operand.run stack)
      .ok ((← applySign sign a) :: stack)
  | .name _, _ => .error .unsupportedOperator
  | .call _ _, _ => .error .unsupportedOperator

def runList : List Expr → List Spread → Except RuleError (List Spread)
  | [], stack => .ok stack
  | e :: es, stack => do runList es (← e.run stack)

end

/-- The value of an expression, which has to be the only one left on the
stack. -/
def evaluate (e : Expr) : Except RuleError Spread := do
  match ← e.run [] with
  | [value] => .ok value
  | _ => .error .missingArgument

end Paydesk.Rates.Expr

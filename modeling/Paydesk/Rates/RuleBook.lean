import Paydesk.Rates.Pair
import Paydesk.Rates.Statement

namespace Paydesk.Rates

/-- Why a rule cannot be stored, resolved or evaluated. -/
inductive RuleError
  | tooMuchNestedCalls
  | invalidCurrencyIdentifier
  | nestedInvocation
  | unsupportedOperator
  | missingArgument
  | divideByZero
  | invalidNegative
  | preprocessError
  | rateUnavailable
  | invalidExchangeName
deriving DecidableEq, Repr

namespace RuleError

def name : RuleError → String
  | .tooMuchNestedCalls => "TooMuchNestedCalls"
  | .invalidCurrencyIdentifier => "InvalidCurrencyIdentifier"
  | .nestedInvocation => "NestedInvocation"
  | .unsupportedOperator => "UnsupportedOperator"
  | .missingArgument => "MissingArgument"
  | .divideByZero => "DivideByZero"
  | .invalidNegative => "InvalidNegative"
  | .preprocessError => "PreprocessError"
  | .rateUnavailable => "RateUnavailable"
  | .invalidExchangeName => "InvalidExchangeName"

/-- All errors, in the order in which they are listed. -/
def all : List RuleError :=
  [.tooMuchNestedCalls, .invalidCurrencyIdentifier, .nestedInvocation, .unsupportedOperator,
    .missingArgument, .divideByZero, .invalidNegative, .preprocessError, .rateUnavailable,
    .invalidExchangeName]

/-- The errors that occur in a list, each once and in order. -/
def collect (errors : List RuleError) : List RuleError := all.filter (errors.contains ·)

end RuleError

namespace Expr

mutual

/-- The same expression with every name written as its pair and every exchange
in lower case. -/
def normalize : Expr → Expr
  | .name text =>
      match Pair.parse? text with
      | some pair => .name pair.render
      | none => .name text
  | .call (.name exchange) args => .call (.name (Text.lower exchange)) (normalizeList args)
  | .call callee args => .call callee (normalizeList args)
  | .binary op left right => .binary op left.normalize right.normalize
  | .signed sign operand => .signed sign operand.normalize
  | .tuple items => .tuple (normalizeList items)
  | .literal value => .literal value
  | .quoted spread => .quoted spread

def normalizeList : List Expr → List Expr
  | [] => []
  | e :: es => e.normalize :: normalizeList es

end

mutual

/-- What keeps an expression out of a rule book: a name that is no pair, a call
among the arguments of another, and a callee that is no plain name. -/
def violations (inCall : Bool) : Expr → List RuleError
  | .name text => if (Pair.parse? text).isSome then [] else [.invalidCurrencyIdentifier]
  | .call callee args =>
      (if inCall then [.nestedInvocation] else []) ++
        (match callee with
          | .name _ => []
          | _ => [.invalidExchangeName]) ++
        violationsList true args
  | .binary _ left right => left.violations inCall ++ right.violations inCall
  | .signed _ operand => operand.violations inCall
  | .tuple items => violationsList inCall items
  | .literal _ => []
  | .quoted _ => []

def violationsList (inCall : Bool) : List Expr → List RuleError
  | [] => []
  | e :: es => e.violations inCall ++ violationsList inCall es

end

/-- How the exchange names begin that mark where a rule could not be resolved.
Normalized expressions call no such exchange. -/
def markerStart : String := "ERR_"

def isMarker (exchange : String) : Bool := markerStart.toList.isPrefixOf exchange.toList

/-- Whether a callee marks where a rule could not be resolved. -/
def isMarkerName : Expr → Bool
  | .name exchange => isMarker exchange
  | _ => false

/-- Stands where no rule was found for a pair. -/
def noRule (pair : Pair) : Expr := .call (.name "ERR_NO_RULE_MATCH") [.name pair.render]

/-- Stands where rules refer to each other too deeply. -/
def tooDeep (pair : Pair) : Expr := .call (.name "ERR_TOO_MUCH_NESTED_CALLS") [.name pair.render]

end Expr

namespace Statement

def normalize (s : Statement) : Statement := ⟨s.target.map (·.normalize), s.value.normalize⟩

def violations (s : Statement) : List RuleError :=
  (match s.target with
    | some target => target.violations false
    | none => []) ++ s.value.violations false

/-- The pair for which a statement gives a rule. -/
def pair? (s : Statement) : Option Pair :=
  match s.target with
  | some (.name text) => Pair.parse? text
  | _ => none

end Statement

/-- Why a script is no rule book. -/
inductive ScriptError
  | malformed (error : SyntaxError)
  | rejected (errors : List RuleError)
deriving DecidableEq

namespace ScriptError

def errors : ScriptError → List RuleError
  | .malformed _ => []
  | .rejected errors => errors

def message : ScriptError → String
  | .malformed error => s!"invalid rate rules: {error.message}"
  | .rejected errors => String.join ("invalid rate rules" :: errors.map fun e => s!" [{e.name}]")

end ScriptError

/-- The rules of a script. For a pair that has several rules the first one
counts. -/
structure RuleBook where
  statements : List Statement
  rules : List (Pair × Expr)
  spread : Decimal
deriving Inhabited

namespace RuleBook

/-- The rule of every pair, in the order of the statements. -/
def rulesOf (statements : List Statement) : List (Pair × Expr) :=
  statements.foldl (fun rules s =>
    match s.pair? with
    | some pair => if rules.any (·.1 == pair) then rules else rules ++ [(pair, s.value)]
    | none => rules) []

def ofStatements (statements : List Statement) : Except ScriptError RuleBook :=
  match statements.flatMap Statement.violations with
  | [] =>
      let statements := statements.map Statement.normalize
      .ok ⟨statements, rulesOf statements, .zero⟩
  | errors => .error (.rejected (RuleError.collect errors))

def read (script : String) : Except ScriptError RuleBook :=
  match parseScript script with
  | .ok statements => ofStatements statements
  | .error error => .error (.malformed error)

/-- The statements in normal form, one a line. -/
def render (book : RuleBook) : String := String.join (book.statements.map Statement.render)

def pairs (book : RuleBook) : List Pair := book.rules.map (·.1)

/-- A spread that is no fraction of one. -/
structure InvalidSpread where
  spread : Decimal
deriving DecidableEq

def InvalidSpread.message (e : InvalidSpread) : String :=
  s!"spread {e.spread.render} is outside of 0..=1"

def setSpread (book : RuleBook) (spread : Decimal) : Except InvalidSpread RuleBook :=
  if spread.lt .zero || Decimal.one.lt spread then .error ⟨spread⟩
  else .ok { book with spread }

/-- Where the rule of a pair stands in the book. -/
def position? (book : RuleBook) (pair : Pair) : Option Nat :=
  book.rules.findIdx? (·.1 == pair)

/-- A place to look for a rule: the pair to look up, how good a match it is
(less is better), and whether it gives the inverse. -/
structure Lookup where
  pair : Pair
  priority : Nat
  inverted : Bool
deriving DecidableEq

/-- The lookups of a pair: the pair, its inverse, the wildcards on either side,
those of the inverse, and the wildcard for all. -/
def lookups (pair : Pair) : List Lookup :=
  [⟨pair, 0, false⟩,
    ⟨pair.inverse, 1, true⟩,
    ⟨.of pair.left Pair.wildcard, 2, false⟩,
    ⟨.of Pair.wildcard pair.right, 2, false⟩,
    ⟨.of pair.right Pair.wildcard, 3, true⟩,
    ⟨.of Pair.wildcard pair.left, 3, true⟩,
    ⟨.of Pair.wildcard Pair.wildcard, 4, false⟩]

/-- A rule that was found: how good the match is, its place in the book, and
whether it gives the inverse. -/
structure Match where
  priority : Nat
  position : Nat
  inverted : Bool
deriving DecidableEq

def Match.better (a b : Match) : Bool :=
  a.priority < b.priority || (a.priority == b.priority && a.position < b.position)

/-- The best match of a pair, and of equally good ones the rule written first. -/
def bestMatch? (book : RuleBook) (pair : Pair) : Option Match :=
  let found := (lookups pair).filterMap fun l =>
    (book.position? l.pair).map fun position => Match.mk l.priority position l.inverted
  found.foldl (fun best m =>
    match best with
    | none => some m
    | some b => if m.better b then some m else some b) none

/-- The expression for a pair, before the pairs in it are resolved. -/
def candidate (book : RuleBook) (pair : Pair) : Expr :=
  match book.bestMatch? pair with
  | none => .noRule pair
  | some m =>
      if m.inverted then .binary .div (.literal .one) (.name pair.inverse.render)
      else
        match book.rules[m.position]? with
        | some (_, value) => value
        | none => .noRule pair

end RuleBook

end Paydesk.Rates

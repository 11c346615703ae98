import Paydesk.Rates.Spread

namespace Paydesk.Rates

inductive BinaryOp
  | add
  | sub
  | mul
  | div
deriving DecidableEq, Repr

def BinaryOp.precedence : BinaryOp → Nat
  | .add | .sub => 1
  | .mul | .div => 2

def BinaryOp.symbol : BinaryOp → String
  | .add => "+"
  | .sub => "-"
  | .mul => "*"
  | .div => "/"

inductive Sign
  | plus
  | minus
deriving DecidableEq, Repr

def Sign.symbol : Sign → String
  | .plus => "+"
  | .minus => "-"

/-- An expression of a rate rule. A quote takes the place of a call before the
expression is evaluated; no script contains one. -/
inductive Expr
  | literal (value : Decimal)
  | tuple (items : List Expr)
  | binary (op : BinaryOp) (left right : Expr)
  | signed (sign : Sign) (operand : Expr)
  | name (text : String)
  | call (callee : Expr) (args : List Expr)
  | quoted (spread : Spread)
deriving BEq, Inhabited

namespace Expr

def signPrecedence : Nat := 3

def primaryPrecedence : Nat := 4

/-- How tightly the written form holds together. A number below zero is written
with a sign. -/
def precedence : Expr → Nat
  | .binary op _ _ => op.precedence
  | .signed _ _ => signPrecedence
  | .quoted spread => if spread.bid.negative then signPrecedence else primaryPrecedence
  | .literal value => if value.negative then signPrecedence else primaryPrecedence
  | _ => primaryPrecedence

def parenthesized (always : Bool) (text : String) : String :=
  if always then "(" ++ text ++ ")" else text

mutual

/-- Writes an expression with as few parentheses as its structure needs. -/
def render : Expr → String
  | .literal value => value.render
  | .quoted spread => spread.render
  | .name text => text
  | .tuple items => "(" ++ ", ".intercalate (renderList items) ++ ")"
  | .call callee args =>
      parenthesized (callee.precedence < primaryPrecedence) callee.render ++
        "(" ++ ", ".intercalate (renderList args) ++ ")"
  | .signed sign operand =>
      sign.symbol ++ parenthesized (operand.precedence < signPrecedence) operand.render
  | .binary op left right =>
      parenthesized (left.precedence < op.precedence) left.render ++ " " ++ op.symbol ++ " " ++
        parenthesized (right.precedence ≤ op.precedence) right.render

def renderList : List Expr → List String
  | [] => []
  | e :: es => e.render :: renderList es

end

instance : ToString Expr := ⟨render⟩

end Expr

end Paydesk.Rates

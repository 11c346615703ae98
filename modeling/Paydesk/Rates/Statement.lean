import Paydesk.Rates.Expr
import Paydesk.Rates.Token

namespace Paydesk.Rates

/-- A rule for a target, or a bare expression. -/
structure Statement where
  target : Option Expr
  value : Expr
deriving BEq, Inhabited

def Statement.render (s : Statement) : String :=
  match s.target with
  | some target => s!"{target.render} = {s.value.render};\n"
  | none => s!"{s.value.render};\n"

namespace Grammar

/-- The tokens still to be read, and the line of the last token of all. -/
structure Input where
  tokens : List Placed
  lastLine : Nat

namespace Input

def size (i : Input) : Nat := i.tokens.length

def peek? (i : Input) : Option Token := i.tokens.head?.map (·.token)

/-- The line of the next token, or of the last one behind the end. -/
def line (i : Input) : Nat :=
  match i.tokens with
  | placed :: _ => placed.line
  | [] => i.lastLine

def rest (i : Input) : Input := { i with tokens := i.tokens.tail }

def skipNewlines (i : Input) : Input :=
  { i with tokens := i.tokens.dropWhile (·.token == .newline) }

/-- Skips what may stand between statements. -/
def skipBreaks (i : Input) : Input :=
  { i with tokens := i.tokens.dropWhile fun p => p.token == .newline || p.token == .semicolon }

def fail {α : Type} (i : Input) (fault : Fault) : Except SyntaxError α :=
  .error ⟨i.line, fault⟩

theorem size_rest_lt {i : Input} {token : Token} (h : i.peek? = some token) :
    i.rest.size < i.size := by
  rcases i with ⟨tokens, lastLine⟩
  cases tokens with
  | nil => simp [peek?] at h
  | cons placed tokens => simp [rest, size]

theorem size_skipNewlines_le (i : Input) : i.skipNewlines.size ≤ i.size :=
  Token.length_dropWhile_le _ _

theorem size_skipBreaks_le (i : Input) : i.skipBreaks.size ≤ i.size :=
  Token.length_dropWhile_le _ _

end Input

/-- A result and the input behind it, which is shorter than the one given. -/
structure Read (α : Type) (i : Input) where
  value : α
  rest : Input
  shorter : rest.size < i.size

/-- A result and the input behind it, which is no longer than the one given. -/
structure ReadOn (α : Type) (i : Input) where
  value : α
  rest : Input
  noLonger : rest.size ≤ i.size

def Read.through {α : Type} {i j : Input} (r : Read α j) (h : j.size ≤ i.size) : Read α i :=
  ⟨r.value, r.rest, Nat.lt_of_lt_of_le r.shorter h⟩

def ReadOn.through {α : Type} {i j : Input} (r : ReadOn α j) (h : j.size ≤ i.size) :
    ReadOn α i :=
  ⟨r.value, r.rest, Nat.le_trans r.noLonger h⟩

def ReadOn.after {α : Type} {i j : Input} (r : ReadOn α j) (h : j.size < i.size) : Read α i :=
  ⟨r.value, r.rest, Nat.lt_of_le_of_lt r.noLonger h⟩

/-- Reads one given token. -/
def expect (token : Token) (i : Input) : Except SyntaxError (Read Unit i) :=
  match h : i.peek? with
  | some found =>
      if found = token then .ok ⟨(), i.rest, Input.size_rest_lt h⟩
      else i.fail (.expected token (some found))
  | none => i.fail (.expected token none)

def sumOp? : Option Token → Option BinaryOp
  | some .plus => some .add
  | some .minus => some .sub
  | _ => none

def productOp? : Option Token → Option BinaryOp
  | some .star => some .mul
  | some .slash => some .div
  | _ => none

def sign? : Option Token → Option Sign
  | some .plus => some .plus
  | some .minus => some .minus
  | _ => none

theorem Input.size_rest_lt_of_sumOp {i : Input} {op : BinaryOp} (h : sumOp? i.peek? = some op) :
    i.rest.size < i.size := by
  cases hp : i.peek? with
  | none => simp [hp, sumOp?] at h
  | some token => exact Input.size_rest_lt hp

theorem Input.size_rest_lt_of_productOp {i : Input} {op : BinaryOp}
    (h : productOp? i.peek? = some op) : i.rest.size < i.size := by
  cases hp : i.peek? with
  | none => simp [hp, productOp?] at h
  | some token => exact Input.size_rest_lt hp

theorem Input.size_rest_lt_of_sign {i : Input} {s : Sign} (h : sign? i.peek? = some s) :
    i.rest.size < i.size := by
  cases hp : i.peek? with
  | none => simp [hp, sign?] at h
  | some token => exact Input.size_rest_lt hp

mutual

/-- Products, joined by plus and minus. -/
def sum (i : Input) : Except SyntaxError (Read Expr i) := do
  let left ← product i
  let all ← sumOn left.value left.rest
  .ok (all.after left.shorter)
termination_by i.size * 10 + 7
decreasing_by
  · omega
  · have := left.shorter
    omega

/-- Goes on with a sum whose left part has been read. -/
def sumOn (left : Expr) (i : Input) : Except SyntaxError (ReadOn Expr i) :=
  match h : sumOp? i.peek? with
  | none => .ok ⟨left, i, Nat.le_refl _⟩
  | some op => do
      let right ← product i.rest.skipNewlines
      let all ← sumOn (.binary op left right.value) right.rest
      .ok (all.through (by
        have := Input.size_rest_lt_of_sumOp h
        have := Input.size_skipNewlines_le i.rest
        have := right.shorter
        omega))
termination_by i.size * 10 + 8
decreasing_by
  · have := Input.size_rest_lt_of_sumOp h
    have := Input.size_skipNewlines_le i.rest
    omega
  · have := Input.size_rest_lt_of_sumOp h
    have := Input.size_skipNewlines_le i.rest
    have := right.shorter
    omega

/-- Signed operands, joined by star and slash. -/
def product (i : Input) : Except SyntaxError (Read Expr i) := do
  let left ← operand i
  let all ← productOn left.value left.rest
  .ok (all.after left.shorter)
termination_by i.size * 10 + 6
decreasing_by
  · omega
  · have := left.shorter
    omega

/-- Goes on with a product whose left part has been read. -/
def productOn (left : Expr) (i : Input) : Except SyntaxError (ReadOn Expr i) :=
  match h : productOp? i.peek? with
  | none => .ok ⟨left, i, Nat.le_refl _⟩
  | some op => do
      let right ← operand i.rest.skipNewlines
      let all ← productOn (.binary op left right.value) right.rest
      .ok (all.through (by
        have := Input.size_rest_lt_of_productOp h
        have := Input.size_skipNewlines_le i.rest
        have := right.shorter
        omega))
termination_by i.size * 10 + 8
decreasing_by
  · have := Input.size_rest_lt_of_productOp h
    have := Input.size_skipNewlines_le i.rest
    omega
  · have := Input.size_rest_lt_of_productOp h
    have := Input.size_skipNewlines_le i.rest
    have := right.shorter
    omega

/-- A primary with its calls, behind any number of signs. -/
def operand (i : Input) : Except SyntaxError (Read Expr i) :=
  match h : sign? i.peek? with
  | some s => do
      let inner ← operand i.rest.skipNewlines
      .ok ⟨.signed s inner.value, inner.rest, by
        have := Input.size_rest_lt_of_sign h
        have := Input.size_skipNewlines_le i.rest
        have := inner.shorter
        omega⟩
  | none => do
      let callee ← primary i
      let all ← callsOn callee.value callee.rest
      .ok (all.after callee.shorter)
termination_by i.size * 10 + 5
decreasing_by
  · have := Input.size_rest_lt_of_sign h
    have := Input.size_skipNewlines_le i.rest
    omega
  · omega
  · have := callee.shorter
    omega

/-- Goes on with the calls of an expression that has been read. -/
def callsOn (callee : Expr) (i : Input) : Except SyntaxError (ReadOn Expr i) :=
  match h : i.peek? with
  | some .opening =>
      match h' : i.rest.peek? with
      | some .closing => do
          let all ← callsOn (.call callee []) i.rest.rest
          .ok (all.through (by
            have := Input.size_rest_lt h
            have := Input.size_rest_lt h'
            omega))
      | _ => do
          let args ← list i.rest
          let close ← expect .closing args.rest
          let all ← callsOn (.call callee args.value) close.rest
          .ok (all.through (by
            have := Input.size_rest_lt h
            have := args.shorter
            have := close.shorter
            omega))
  | _ => .ok ⟨callee, i, Nat.le_refl _⟩
termination_by i.size * 10 + 4
decreasing_by
  · have := Input.size_rest_lt h
    have := Input.size_rest_lt h'
    omega
  · have := Input.size_rest_lt h
    omega
  · have := Input.size_rest_lt h
    have := args.shorter
    have := close.shorter
    omega

/-- Expressions with commas between them, at least one. -/
def list (i : Input) : Except SyntaxError (Read (List Expr) i) := do
  let first ← sum i
  match h : first.rest.peek? with
  | some .comma =>
      let others ← list first.rest.rest
      .ok ⟨first.value :: others.value, others.rest, by
        have := first.shorter
        have := Input.size_rest_lt h
        have := others.shorter
        omega⟩
  | _ => .ok ⟨[first.value], first.rest, first.shorter⟩
termination_by i.size * 10 + 9
decreasing_by
  · omega
  · have := first.shorter
    have := Input.size_rest_lt h
    omega

/-- A number, a name, or expressions in parentheses; one alone is itself. -/
def primary (i : Input) : Except SyntaxError (Read Expr i) :=
  match h : i.peek? with
  | some (.number value) => .ok ⟨.literal value, i.rest, Input.size_rest_lt h⟩
  | some (.name text) => .ok ⟨.name text, i.rest, Input.size_rest_lt h⟩
  | some .opening => do
      let items ← list i.rest
      let close ← expect .closing items.rest
      let value := match items.value with
        | [item] => item
        | items => .tuple items
      .ok ⟨value, close.rest, by
        have := Input.size_rest_lt h
        have := items.shorter
        have := close.shorter
        omega⟩
  | found => i.fail (.unexpected found)
termination_by i.size * 10 + 3
decreasing_by
  have := Input.size_rest_lt h
  omega

end

/-- An expression, or two around an equals sign, up to the next break. -/
def statement (i : Input) : Except SyntaxError (Read Statement i) := do
  let first ← sum i
  let whole : Read Statement i ←
    match h : first.rest.peek? with
    | some .assign => do
        let value ← sum first.rest.rest.skipNewlines
        .ok ⟨⟨some first.value, value.value⟩, value.rest, by
          have := first.shorter
          have := Input.size_rest_lt h
          have := Input.size_skipNewlines_le first.rest.rest
          have := value.shorter
          omega⟩
    | _ => .ok ⟨⟨none, first.value⟩, first.rest, first.shorter⟩
  match whole.rest.peek? with
  | none | some .newline | some .semicolon => .ok whole
  | some other => whole.rest.fail (.afterStatement other)

/-- The statements up to the end of the input. -/
def statements (i : Input) : Except SyntaxError (List Statement) :=
  match i.skipBreaks.peek? with
  | none => .ok []
  | some _ => do
      let first ← statement i.skipBreaks
      let others ← statements first.rest
      .ok (first.value :: others)
termination_by i.size
decreasing_by
  have := first.shorter
  have := Input.size_skipBreaks_le i
  omega

/-- The input that consists of given tokens. -/
def Input.ofTokens (tokens : List Placed) : Input :=
  ⟨tokens, (tokens.getLast?.map (·.line)).getD 1⟩

end Grammar

/-- The statements of a script. -/
def parseScript (script : String) : Except SyntaxError (List Statement) := do
  Grammar.statements (.ofTokens (← tokenize script))

end Paydesk.Rates

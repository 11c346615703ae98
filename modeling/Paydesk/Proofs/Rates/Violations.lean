import Paydesk.Proofs.Rates.Reloading

/-!
What keeps a script out of a rule book, by where it stands in the expressions, and what
the rules of a book that was accepted never fail with.
-/

namespace Paydesk.Rates

namespace Expr

/-- The expressions directly under an expression. What is called is none of them. -/
def children : Expr → List Expr
  | .binary _ left right => [left, right]
  | .signed _ operand => [operand]
  | .tuple items => items
  | .call _ args => args
  | .literal _ | .name _ | .quoted _ => []

/-- An expression that stands in another one, at any depth. -/
inductive Part (p : Expr) : Expr → Prop
  | self : Part p p
  | child {e child : Expr} (hchild : child ∈ e.children) (h : Part p child) : Part p e

/-- That an expression or a part of it is of a kind. -/
def Somewhere (kind : Expr → Prop) (e : Expr) : Prop := ∃ p, Part p e ∧ kind p

theorem somewhere_iff {kind : Expr → Prop} {e : Expr} :
    Somewhere kind e ↔ kind e ∨ ∃ child ∈ e.children, Somewhere kind child := by
  constructor
  · rintro ⟨p, h, hkind⟩
    cases h with
    | self => exact .inl hkind
    | child hchild h => exact .inr ⟨_, hchild, p, h, hkind⟩
  · rintro (hkind | ⟨child, hchild, p, h, hkind⟩)
    · exact ⟨e, .self, hkind⟩
    · exact ⟨p, .child hchild h, hkind⟩

def IsName : Expr → Prop
  | .name _ => True
  | _ => False

def IsCall : Expr → Prop
  | .call _ _ => True
  | _ => False

/-- What is wrong about an expression itself: it is a name but no pair, it is a call with
another one within its arguments, or what it calls is no plain name. -/
def Offends : RuleError → Expr → Prop
  | .invalidCurrencyIdentifier, .name text => Pair.parse? text = none
  | .nestedInvocation, .call _ args => ∃ arg ∈ args, Somewhere IsCall arg
  | .invalidExchangeName, .call callee _ => ¬IsName callee
  | _, _ => False

/-- That something is wrong about an expression or a part of it. -/
def Violates (error : RuleError) : Expr → Prop := Somewhere (Offends error)

section Violations

variable {error : RuleError} {inCall : Bool}

/-- What is wrong about an expression, given whether it stands in an argument. -/
def Reports (inCall : Bool) (error : RuleError) (e : Expr) : Prop :=
  Violates error e ∨ error = .nestedInvocation ∧ inCall ∧ Somewhere IsCall e

theorem exists_reports {es : List Expr} : (∃ e ∈ es, Reports inCall error e) ↔
    (∃ e ∈ es, Violates error e) ∨
      error = .nestedInvocation ∧ inCall ∧ ∃ e ∈ es, Somewhere IsCall e := by
  constructor
  · rintro ⟨e, he, h | ⟨herror, hin, h⟩⟩
    · exact .inl ⟨e, he, h⟩
    · exact .inr ⟨herror, hin, e, he, h⟩
  · rintro (⟨e, he, h⟩ | ⟨herror, hin, e, he, h⟩)
    · exact ⟨e, he, .inl h⟩
    · exact ⟨e, he, .inr ⟨herror, hin, h⟩⟩

theorem reports_iff {e : Expr} (h : ¬IsCall e) : Reports inCall error e ↔
    Offends error e ∨ ∃ child ∈ e.children, Reports inCall error child := by
  rw [exists_reports, Reports, Violates, somewhere_iff, somewhere_iff, or_iff_right h, or_assoc]

theorem offends_name {text : String} : Offends error (.name text) ↔
    error = .invalidCurrencyIdentifier ∧ Pair.parse? text = none := by
  cases error <;> simp [Offends]

theorem offends_call {callee : Expr} {args : List Expr} : Offends error (.call callee args) ↔
    error = .nestedInvocation ∧ (∃ arg ∈ args, Somewhere IsCall arg) ∨
      error = .invalidExchangeName ∧ ¬IsName callee := by
  cases error <;> simp [Offends]

theorem not_offends {e : Expr} (hname : ¬IsName e) (hcall : ¬IsCall e) :
    ¬Offends error e := by
  cases e with
  | name text => exact absurd trivial hname
  | call callee args => exact absurd trivial hcall
  | _ => cases error <;> exact id

theorem reports_call {callee : Expr} {args : List Expr} :
    Reports inCall error (.call callee args) ↔ error = .nestedInvocation ∧ inCall ∨
      (error = .invalidExchangeName ∧ ¬IsName callee) ∨
        ∃ arg ∈ args, Reports true error arg := by
  have hcall : Somewhere IsCall (.call callee args) := somewhere_iff.mpr (.inl trivial)
  rw [exists_reports, Reports, Violates, somewhere_iff, offends_call]
  simp only [hcall, children, and_true, true_and]
  refine or_comm.trans (or_congr_right ?_)
  rw [or_assoc, or_comm, or_assoc]

/-- Of anything but names and calls, only what stands in it is reported. -/
theorem reports_children {e : Expr} (hname : ¬IsName e) (hcall : ¬IsCall e) :
    Reports inCall error e ↔ ∃ child ∈ e.children, Reports inCall error child := by
  rw [reports_iff hcall, or_iff_right (not_offends hname hcall)]

mutual

/-- The errors that are collected are those for which there is a reason somewhere. -/
theorem mem_violations : ∀ (e : Expr) (inCall : Bool),
    error ∈ e.violations inCall ↔ Reports inCall error e
  | .literal _, _ => by
      refine Iff.trans ?_ (.symm (reports_children id id))
      simp [violations, children]
  | .quoted _, _ => by
      refine Iff.trans ?_ (.symm (reports_children id id))
      simp [violations, children]
  | .name text, _ => by
      rw [reports_iff id, offends_name, violations]
      cases Pair.parse? text <;> simp [children]
  | .binary op left right, inCall => by
      refine Iff.trans ?_ (.symm (reports_children id id))
      simp [violations, children, mem_violations left, mem_violations right]
  | .signed sign operand, inCall => by
      refine Iff.trans ?_ (.symm (reports_children id id))
      simp [violations, children, mem_violations operand]
  | .tuple items, inCall => by
      rw [violations, mem_violationsList items]
      exact .symm (reports_children id id)
  | .call callee args, inCall => by
      have hargs := mem_violationsList args true
      have hnested : error ∈ (if inCall then [RuleError.nestedInvocation] else []) ↔
          error = .nestedInvocation ∧ inCall := by
        cases inCall <;> simp
      rw [reports_call, ← hargs, ← hnested]
      cases callee <;> simp [violations, IsName]

theorem mem_violationsList : ∀ (es : List Expr) (inCall : Bool),
    error ∈ violationsList inCall es ↔ ∃ e ∈ es, Reports inCall error e
  | [], _ => by simp [violationsList]
  | e :: es, inCall => by
      rw [violationsList, List.mem_append, mem_violations e, mem_violationsList es]
      simp

end

theorem mem_violations_iff_violates {e : Expr} :
    error ∈ e.violations false ↔ Violates error e := by
  rw [mem_violations, Reports]
  simp

end Violations

section Resolve

/-- That everything that is called is a plain name. -/
def Callable (e : Expr) : Prop := ¬Violates .invalidExchangeName e

theorem callable_iff {e : Expr} :
    Callable e ↔ ¬Offends .invalidExchangeName e ∧ ∀ child ∈ e.children, Callable child := by
  rw [Callable, Violates, somewhere_iff]
  simp [Callable, Violates]

theorem callable_name (text : String) : Callable (.name text) := by
  rw [callable_iff]
  simp [Offends, children]

theorem callable_literal (value : Decimal) : Callable (.literal value) := by
  rw [callable_iff]
  simp [Offends, children]

theorem callable_binary {op : BinaryOp} {left right : Expr} :
    Callable (.binary op left right) ↔ Callable left ∧ Callable right := by
  rw [callable_iff]
  simp [Offends, children]

theorem callable_signed {sign : Sign} {operand : Expr} :
    Callable (.signed sign operand) ↔ Callable operand := by
  rw [callable_iff]
  simp [Offends, children]

theorem callable_tuple {items : List Expr} :
    Callable (.tuple items) ↔ ∀ item ∈ items, Callable item := by
  rw [callable_iff]
  simp [Offends, children]

theorem callable_call {callee : Expr} {args : List Expr} :
    Callable (.call callee args) ↔ IsName callee ∧ ∀ arg ∈ args, Callable arg := by
  rw [callable_iff]
  simp [Offends, children]

variable {target : Pair} {inline : Pair → Resolution Expr}

mutual

theorem Callable.resolve (hinline : ∀ pair, Callable (inline pair).value) :
    ∀ (e : Expr) (inCall : Bool), Callable e → Callable (e.resolve target inline inCall).value
  | .literal _, _, h => h
  | .quoted _, _, h => h
  | .name text, inCall, h => by
      rw [Expr.resolve]
      split
      · exact h
      · split
        · exact callable_name _
        · exact hinline _
  | .binary op left right, inCall, h => by
      obtain ⟨hleft, hright⟩ := callable_binary.mp h
      exact callable_binary.mpr ⟨Callable.resolve hinline left inCall hleft,
        Callable.resolve hinline right inCall hright⟩
  | .signed sign operand, inCall, h =>
      callable_signed.mpr (Callable.resolve hinline operand inCall (callable_signed.mp h))
  | .tuple items, inCall, h =>
      callable_tuple.mpr (Callable.resolveList hinline items inCall (callable_tuple.mp h))
  | .call callee args, inCall, h => by
      obtain ⟨hcallee, hargs⟩ := callable_call.mp h
      rw [Expr.resolve]
      split
      · exact h
      · exact callable_call.mpr ⟨hcallee, Callable.resolveList hinline args true hargs⟩

theorem Callable.resolveList (hinline : ∀ pair, Callable (inline pair).value) :
    ∀ (es : List Expr) (inCall : Bool), (∀ e ∈ es, Callable e) →
      ∀ e ∈ (resolveList target inline inCall es).value, Callable e
  | [], _, _ => List.forall_mem_nil _
  | e :: es, inCall, h => by
      obtain ⟨hfirst, hrest⟩ := List.forall_mem_cons.mp h
      exact List.forall_mem_cons.mpr
        ⟨Callable.resolve hinline e inCall hfirst, Callable.resolveList hinline es inCall hrest⟩

end

end Resolve

section QuoteErrors

variable {quotes : Quotes} {error : RuleError}

mutual

theorem mem_quoteFailures_of_callable : ∀ e : Expr, Callable e →
    error ∈ e.quoteErrors quotes → error ∈ quoteFailures
  | .literal _, _, herror => by cases herror
  | .quoted _, _, herror => by cases herror
  | .name _, _, herror => by cases herror
  | .binary _ left right, h, herror => by
      obtain ⟨hleft, hright⟩ := callable_binary.mp h
      rcases List.mem_append.mp herror with herror | herror
      · exact mem_quoteFailures_of_callable left hleft herror
      · exact mem_quoteFailures_of_callable right hright herror
  | .signed _ operand, h, herror =>
      mem_quoteFailures_of_callable operand (callable_signed.mp h) herror
  | .tuple items, h, herror =>
      mem_quoteFailures_of_callableList items (callable_tuple.mp h) herror
  | .call callee args, h, herror => by
      obtain ⟨hname, -⟩ := callable_call.mp h
      cases callee with
      | name exchange => exact mem_quoteFailures herror
      | _ => exact hname.elim

theorem mem_quoteFailures_of_callableList : ∀ es : List Expr, (∀ e ∈ es, Callable e) →
    error ∈ quoteErrorsList quotes es → error ∈ quoteFailures
  | [], _, herror => by cases herror
  | e :: es, h, herror => by
      obtain ⟨hfirst, hrest⟩ := List.forall_mem_cons.mp h
      rcases List.mem_append.mp herror with herror | herror
      · exact mem_quoteFailures_of_callable e hfirst herror
      · exact mem_quoteFailures_of_callableList es hrest herror

end

end QuoteErrors

end Expr

/-- That something is wrong about one of the two sides of a statement. -/
def Statement.Violates (error : RuleError) (s : Statement) : Prop :=
  ∃ side ∈ s.target.toList ++ [s.value], Expr.Violates error side

theorem Statement.mem_violations {error : RuleError} {s : Statement} :
    error ∈ s.violations ↔ s.Violates error := by
  obtain ⟨_ | target, value⟩ := s
  · simp [Statement.violations, Statement.Violates, Expr.mem_violations_iff_violates]
  · simp [Statement.violations, Statement.Violates, Expr.mem_violations_iff_violates]

namespace Rule

/-- The states of the rules of a book: with any quotes and evaluated any number of times. -/
inductive Reached (book : RuleBook) : Rule → Prop
  | resolved (pair : Pair) : Reached book (book.ruleFor pair)
  | supplied {r : Rule} (quotes : Quotes) (h : Reached book r) : Reached book (r.supply quotes)
  | evaluated {r : Rule} (h : Reached book r) : Reached book r.reevaluate

/-- The errors for which a script is rejected. -/
def rejections : List RuleError :=
  [.invalidCurrencyIdentifier, .nestedInvocation, .invalidExchangeName]

/-- A rule without the errors for which scripts are rejected, now and after the next
evaluation. -/
structure Accepted (r : Rule) : Prop where
  callable : Expr.Callable r.expr
  resolution : ∀ error ∈ r.resolutionErrors, error ∉ rejections
  errors : ∀ error ∈ r.errors, error ∉ rejections

theorem accepted_ofResolved (pair : Pair) {e : Resolution Expr} (h : Expr.Callable e.value) :
    (ofResolved pair e).Accepted := by
  have hcutOff : ∀ error ∈ (ofResolved pair e).resolutionErrors, error ∉ rejections := by
    simp only [ofResolved]
    cases e.cutOff <;> decide
  exact ⟨h, hcutOff, hcutOff⟩

theorem Accepted.reevaluate {r : Rule} (h : r.Accepted) : r.reevaluate.Accepted := by
  have hkept : r.reevaluate.expr = r.expr ∧
      r.reevaluate.resolutionErrors = r.resolutionErrors := by
    unfold Rule.reevaluate
    dsimp only
    split
    · split <;> exact ⟨rfl, rfl⟩
    · exact ⟨rfl, rfl⟩
  refine ⟨hkept.1 ▸ h.callable, hkept.2 ▸ h.resolution, ?_⟩
  intro error herror hrejection
  have hoperator : ∀ error ∈ rejections, error ∉ Expr.operatorErrors := by decide
  have hquote : ∀ error ∈ rejections, error ∉ Expr.quoteFailures := by decide
  rcases (mem_errors_reevaluate_of_not_operator (hoperator error hrejection)).mp herror with
    hresolution | hquotes
  · exact h.resolution error hresolution hrejection
  · exact hquote error hrejection (Expr.mem_quoteFailures_of_callable r.expr h.callable hquotes)

end Rule

namespace RuleBook

variable {script : String} {statements : List Statement} {book : RuleBook}

section Rules

variable (hrules : ∀ rule ∈ book.rules, Expr.Callable rule.2)

include hrules

theorem callable_candidate (pair : Pair) : Expr.Callable (book.candidate pair) := by
  have hnoRule : Expr.Callable (.noRule pair) :=
    Expr.callable_call.mpr ⟨trivial, List.forall_mem_singleton.mpr (Expr.callable_name _)⟩
  unfold candidate
  split
  · exact hnoRule
  · split_ifs
    · exact Expr.callable_binary.mpr ⟨Expr.callable_literal _, Expr.callable_name _⟩
    · split
      · next hrule => exact hrules _ (List.mem_of_getElem? hrule)
      · exact hnoRule

theorem callable_inline (left : Nat) (pair : Pair) :
    Expr.Callable (book.inline left pair).value := by
  induction left generalizing pair with
  | zero =>
      unfold inline
      split
      · exact Expr.callable_literal _
      · exact Expr.callable_call.mpr
          ⟨trivial, List.forall_mem_singleton.mpr (Expr.callable_name _)⟩
  | succ left ih =>
      unfold inline
      split
      · exact Expr.callable_literal _
      · exact (callable_candidate hrules pair).resolve ih _ false

theorem accepted_ruleFor (pair : Pair) : (book.ruleFor pair).Accepted := by
  have hresolve : ∀ e : Expr, e.Callable → (book.resolve pair e).value.Callable :=
    fun e => Expr.Callable.resolve (callable_inline hrules _) e false
  have hcandidate := callable_candidate hrules pair
  unfold ruleFor
  split_ifs with hidentity hzero
  · exact Rule.accepted_ofResolved pair (hresolve _ (Expr.callable_literal _))
  · exact Rule.accepted_ofResolved pair (hresolve _ hcandidate)
  · refine Rule.accepted_ofResolved pair (hresolve _ ?_)
    cases hfactors : book.widening? with
    | none => exact hcandidate
    | some factors =>
        obtain ⟨below, -, hfactors⟩ := Option.bind_eq_some_iff.mp hfactors
        obtain ⟨above, -, hfactors⟩ := Option.bind_eq_some_iff.mp hfactors
        cases hfactors
        refine Expr.callable_binary.mpr ⟨hcandidate, Expr.callable_tuple.mpr ?_⟩
        simp [Expr.callable_literal]

theorem accepted_of_reached {r : Rule} (h : r.Reached book) : r.Accepted := by
  induction h with
  | resolved pair => exact accepted_ruleFor hrules pair
  | supplied quotes _ ih => exact ⟨ih.callable, ih.resolution, ih.errors⟩
  | evaluated _ ih => exact ih.reevaluate

end Rules

theorem callable_of_read (h : read script = .ok book) :
    ∀ rule ∈ book.rules, Expr.Callable rule.2 := by
  obtain ⟨hstatements, hbook⟩ := statements_of_read h
  rw [hbook]
  intro rule hrule
  obtain ⟨s, hs, -, hvalue⟩ := exists_of_mem_rulesOf hrule
  have hnone : ¬s.Violates .invalidExchangeName := by
    rw [← Statement.mem_violations, (hstatements s hs).1]
    exact List.not_mem_nil
  exact fun hviolates => hnone ⟨s.value, by simp, hvalue ▸ hviolates⟩

/-- A script is rejected for exactly what is wrong about its statements, and accepted if
nothing is. What was accepted is in normal form, and no rule of such a book, with
whatever spread, fails for what would have kept it out. -/
theorem read_violations (h : parseScript script = .ok statements) :
    (∀ error, read script = .error error → ∃ errors, error = .rejected errors ∧ errors.Nodup ∧
      ∀ e, e ∈ errors ↔ ∃ s ∈ statements, s.Violates e) ∧
    ((∃ book, read script = .ok book) ↔ ∀ e, ∀ s ∈ statements, ¬s.Violates e) ∧
    ∀ book, read script = .ok book →
      (∀ s ∈ book.statements, s.normalize = s ∧ s.violations = []) ∧
      ∀ (spread : Decimal) (r : Rule), r.Reached { book with spread } →
        ∀ e ∈ r.errors, e ∉ Rule.rejections := by
  have hmem (e : RuleError) : e ∈ statements.flatMap Statement.violations ↔
      ∃ s ∈ statements, s.Violates e := by
    simp only [List.mem_flatMap, Statement.mem_violations]
  have hread : read script = ofStatements statements := by
    rw [read, h]
  refine ⟨?_, ?_, ?_⟩
  · intro error herror
    rw [hread, ofStatements] at herror
    split at herror
    · cases herror
    · cases herror
      refine ⟨_, rfl, List.Pairwise.filter _ (by decide), fun e => ?_⟩
      rw [RuleError.mem_collect, hmem]
  · have hnone : (∃ book, read script = .ok book) ↔
        statements.flatMap Statement.violations = [] := by
      rw [hread, ofStatements]
      split
      · next hnil => simp [hnil]
      · next hne => simpa using hne
    rw [hnone, List.eq_nil_iff_forall_not_mem]
    simp [hmem]
  · intro book hbook
    refine ⟨fun s hs => ?_, fun spread r hr => ?_⟩
    · obtain ⟨hviolations, hnormal, -⟩ := (statements_of_read hbook).1 s hs
      exact ⟨hnormal, hviolations⟩
    · have hrules := callable_of_read hbook
      exact (@accepted_of_reached { book with spread } hrules r hr).errors

/-- One script with a mistake of every kind, and one without a mistake. -/
theorem read_violations_of_every_kind :
    (∃ statements errors,
      parseScript "A_B = a(b(BTC_USD)) * notapair + 2(BTC_USD)" = .ok statements ∧
      read "A_B = a(b(BTC_USD)) * notapair + 2(BTC_USD)" = .error (.rejected errors) ∧
      ∀ e, e ∈ errors ↔ e ∈ Rule.rejections) ∧
    ∃ statements book, parseScript "btc_x = A(btcusd) * usd_x" = .ok statements ∧
      read "btc_x = A(btcusd) * usd_x" = .ok book ∧ ∀ (quotes : Quotes) (pair : Pair),
        ∀ e ∈ ((book.ruleFor pair).supply quotes).reevaluate.errors, e ∉ Rule.rejections := by
  have hmem (statements : List Statement) (e : RuleError) :
      e ∈ statements.flatMap Statement.violations ↔ ∃ s ∈ statements, s.Violates e := by
    simp only [List.mem_flatMap, Statement.mem_violations]
  constructor
  · have hscript : (parseScript "A_B = a(b(BTC_USD)) * notapair + 2(BTC_USD)").toOption.map
        (fun statements => RuleError.collect (statements.flatMap Statement.violations)) =
        some Rule.rejections := by
      decide +kernel
    cases hparse : parseScript "A_B = a(b(BTC_USD)) * notapair + 2(BTC_USD)" with
    | error e => simp [hparse, Except.toOption] at hscript
    | ok statements =>
        rw [hparse] at hscript
        have hcollect : RuleError.collect (statements.flatMap Statement.violations) =
            Rule.rejections := Option.some.inj hscript
        obtain ⟨hrejected, haccepted, -⟩ := read_violations hparse
        have hviolated (e : RuleError) :
            (∃ s ∈ statements, s.Violates e) ↔ e ∈ Rule.rejections := by
          rw [← hmem, ← RuleError.mem_collect, hcollect]
        cases hread : read "A_B = a(b(BTC_USD)) * notapair + 2(BTC_USD)" with
        | ok book =>
            obtain ⟨s, hs, hviolates⟩ := (hviolated .nestedInvocation).mpr (by decide)
            exact absurd hviolates (haccepted.mp ⟨book, hread⟩ _ s hs)
        | error error =>
            obtain ⟨errors, rfl, -, herrors⟩ := hrejected error hread
            exact ⟨statements, errors, rfl, rfl, fun e => (herrors e).trans (hviolated e)⟩
  · have hscript : (parseScript "btc_x = A(btcusd) * usd_x").toOption.map
        (·.flatMap Statement.violations) = some [] := by
      decide +kernel
    cases hparse : parseScript "btc_x = A(btcusd) * usd_x" with
    | error e => simp [hparse, Except.toOption] at hscript
    | ok statements =>
        rw [hparse] at hscript
        have hnone : statements.flatMap Statement.violations = [] := Option.some.inj hscript
        obtain ⟨-, haccepted, hclean⟩ := read_violations hparse
        obtain ⟨book, hread⟩ := haccepted.mpr fun e s hs hviolates => by
          have herror := (hmem statements e).mpr ⟨s, hs, hviolates⟩
          rw [hnone] at herror
          cases herror
        refine ⟨statements, book, rfl, hread, fun quotes pair => ?_⟩
        exact (hclean book hread).2 book.spread _ (.evaluated (.supplied quotes (.resolved pair)))

end RuleBook

end Paydesk.Rates

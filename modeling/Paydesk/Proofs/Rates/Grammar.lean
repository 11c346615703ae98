import Mathlib.Data.List.TakeWhile
import Paydesk.Proofs.Rates.Readers

/-!
What the tokens of a script can stand for, and that the reader of statements finds just
that.
-/

namespace Paydesk.Rates

def BinaryOp.token : BinaryOp → Token
  | .add => .plus
  | .sub => .minus
  | .mul => .star
  | .div => .slash

def Sign.token : Sign → Token
  | .plus => .plus
  | .minus => .minus

namespace Grammar

inductive Phrase
  | sum (e : Expr)
  | product (e : Expr)
  | operand (e : Expr)
  | calls (e : Expr)
  | primary (e : Expr)
  | list (es : List Expr)

/-- The phrases that a run of tokens forms. Line ends may stand behind an operator. -/
inductive Derives : Phrase → List Token → Prop
  | ofProduct {e : Expr} {ts : List Token} (h : Derives (.product e) ts) : Derives (.sum e) ts
  | sum {op : BinaryOp} {left right : Expr} {ts breaks us : List Token}
      (hop : op.precedence = 1) (hleft : Derives (.sum left) ts)
      (hbreaks : ∀ t ∈ breaks, t = .newline) (hright : Derives (.product right) us) :
      Derives (.sum (.binary op left right)) (ts ++ op.token :: (breaks ++ us))
  | ofOperand {e : Expr} {ts : List Token} (h : Derives (.operand e) ts) :
      Derives (.product e) ts
  | product {op : BinaryOp} {left right : Expr} {ts breaks us : List Token}
      (hop : op.precedence = 2) (hleft : Derives (.product left) ts)
      (hbreaks : ∀ t ∈ breaks, t = .newline) (hright : Derives (.operand right) us) :
      Derives (.product (.binary op left right)) (ts ++ op.token :: (breaks ++ us))
  | ofCalls {e : Expr} {ts : List Token} (h : Derives (.calls e) ts) : Derives (.operand e) ts
  | signed {s : Sign} {e : Expr} {breaks ts : List Token} (hbreaks : ∀ t ∈ breaks, t = .newline)
      (h : Derives (.operand e) ts) : Derives (.operand (.signed s e)) (s.token :: (breaks ++ ts))
  | ofPrimary {e : Expr} {ts : List Token} (h : Derives (.primary e) ts) : Derives (.calls e) ts
  | call {callee : Expr} {ts : List Token} (h : Derives (.calls callee) ts) :
      Derives (.calls (.call callee [])) (ts ++ [.opening, .closing])
  | callWith {callee : Expr} {args : List Expr} {ts us : List Token}
      (h : Derives (.calls callee) ts) (hargs : Derives (.list args) us) :
      Derives (.calls (.call callee args)) (ts ++ .opening :: (us ++ [.closing]))
  | number (value : Decimal) : Derives (.primary (.literal value)) [.number value]
  | name (text : String) : Derives (.primary (.name text)) [.name text]
  | group {items : List Expr} {ts : List Token} (h : Derives (.list items) ts) :
      Derives (.primary (Grammar.group items)) (.opening :: (ts ++ [.closing]))
  | single {e : Expr} {ts : List Token} (h : Derives (.sum e) ts) : Derives (.list [e]) ts
  | cons {e : Expr} {es : List Expr} {ts us : List Token} (h : Derives (.sum e) ts)
      (hrest : Derives (.list es) us) : Derives (.list (e :: es)) (ts ++ .comma :: us)

/-- The statement that a run of tokens forms. -/
inductive Says : Statement → List Token → Prop
  | bare {e : Expr} {ts : List Token} (h : Derives (.sum e) ts) : Says ⟨none, e⟩ ts
  | rule {target value : Expr} {ts breaks us : List Token} (htarget : Derives (.sum target) ts)
      (hbreaks : ∀ t ∈ breaks, t = .newline) (hvalue : Derives (.sum value) us) :
      Says ⟨some target, value⟩ (ts ++ .assign :: (breaks ++ us))

def IsBreak (t : Token) : Prop := t = .newline ∨ t = .semicolon

/-- The statements that a run of tokens forms, with breaks between them. -/
inductive Lists : List Statement → List Token → Prop
  | nil : Lists [] []
  | skip {t : Token} {ss : List Statement} {ts : List Token} (hbreak : IsBreak t)
      (h : Lists ss ts) : Lists ss (t :: ts)
  | cons {s : Statement} {ss : List Statement} {ts us : List Token} (h : Says s ts)
      (hbreak : ∀ t ∈ us.head?, IsBreak t) (hrest : Lists ss us) : Lists (s :: ss) (ts ++ us)

namespace Input

/-- The input that given tokens stand in front of. -/
def before (i : Input) (ps : List Placed) : Input := ⟨ps ++ i.tokens, i.lastLine⟩

variable (i : Input) (p : Placed) (ps qs : List Placed)

@[simp] theorem before_nil : i.before [] = i := rfl

@[simp] theorem before_append : i.before (ps ++ qs) = (i.before qs).before ps := by
  simp [before]

@[simp] theorem rest_before_cons : (i.before (p :: ps)).rest = i.before ps := rfl

variable {i} {p ps}

theorem peek?_before {t : Token} (h : p.token = t) : (i.before (p :: ps)).peek? = some t :=
  congrArg some h

theorem eq_before_of_peek? {t : Token} (h : i.peek? = some t) :
    ∃ line, i = i.rest.before [⟨t, line⟩] := by
  obtain ⟨tokens, lastLine⟩ := i
  cases tokens with
  | nil => cases h
  | cons p tokens =>
      obtain rfl : p.token = t := Option.some.inj h
      exact ⟨p.line, rfl⟩

theorem eq_before_skipNewlines (i : Input) :
    ∃ ps, i = i.skipNewlines.before ps ∧ ∀ t ∈ ps.map (·.token), t = .newline := by
  refine ⟨i.tokens.takeWhile (·.token == .newline), ?_, ?_⟩
  · simp only [before, skipNewlines, List.takeWhile_append_dropWhile]
  · intro t ht
    obtain ⟨p, hp, rfl⟩ := List.mem_map.mp ht
    simpa using List.mem_takeWhile_imp hp

theorem skipNewlines_before {ps : List Placed} (hbreaks : ∀ t ∈ ps.map (·.token), t = .newline)
    (h : i.peek? ≠ some .newline) : (i.before ps).skipNewlines = i := by
  obtain ⟨tokens, lastLine⟩ := i
  simp only [before, skipNewlines, Input.mk.injEq, and_true]
  rw [List.dropWhile_append_of_pos (by simpa using hbreaks)]
  cases tokens with
  | nil => rfl
  | cons p tokens => exact List.dropWhile_cons_of_neg (by simpa [peek?] using h)

end Input

section Soundness

/-- That the tokens between two inputs form a phrase. -/
def Between (phrase : Phrase) (i j : Input) : Prop :=
  ∃ ps, i = j.before ps ∧ Derives phrase (ps.map (·.token))

variable {i j : Input} {e left callee : Expr} {es : List Expr} {ts : List Token}

theorem sumOp?_eq_some {t : Option Token} {op : BinaryOp} (h : sumOp? t = some op) :
    t = some op.token ∧ op.precedence = 1 := by
  unfold sumOp? at h
  split at h <;> cases h <;> exact ⟨rfl, rfl⟩

theorem productOp?_eq_some {t : Option Token} {op : BinaryOp} (h : productOp? t = some op) :
    t = some op.token ∧ op.precedence = 2 := by
  unfold productOp? at h
  split at h <;> cases h <;> exact ⟨rfl, rfl⟩

theorem sign?_eq_some {t : Option Token} {s : Sign} (h : sign? t = some s) :
    t = some s.token := by
  unfold sign? at h
  split at h <;> cases h <;> rfl

theorem Gives.size_lt {α : Type} {outcome : Except SyntaxError (Read α i)} {value : α}
    (h : Gives outcome value j) : j.size < i.size := by
  obtain ⟨r, -, -, rfl⟩ := h
  exact r.shorter

theorem size_rest_skipNewlines_lt {t : Token} (h : i.peek? = some t) :
    i.rest.skipNewlines.size < i.size :=
  i.rest.size_skipNewlines_le.trans_lt (Input.size_rest_lt h)

/-- What stands behind an operator, and the line ends before it. -/
theorem eq_before_operator {t : Token} (h : i.peek? = some t) :
    ∃ line breaks, i = (i.rest.skipNewlines.before breaks).before [⟨t, line⟩] ∧
      ∀ u ∈ breaks.map (·.token), u = .newline := by
  obtain ⟨line, hi⟩ := Input.eq_before_of_peek? h
  obtain ⟨breaks, hrest, hbreaks⟩ := i.rest.eq_before_skipNewlines
  exact ⟨line, breaks, hrest ▸ hi, hbreaks⟩

/-- The tokens of a phrase in parentheses. -/
theorem eq_before_group {k : Input} {ps : List Placed} (hopening : i.peek? = some .opening)
    (hinner : i.rest = k.before ps) (hclosing : k.peek? = some .closing) :
    ∃ qs, i = k.rest.before qs ∧
      qs.map (·.token) = .opening :: (ps.map (·.token) ++ [.closing]) := by
  obtain ⟨line, hi⟩ := Input.eq_before_of_peek? hopening
  obtain ⟨line', hk⟩ := Input.eq_before_of_peek? hclosing
  refine ⟨⟨.opening, line⟩ :: (ps ++ [⟨.closing, line'⟩]), ?_, by simp⟩
  calc
    i = (k.before ps).before [⟨.opening, line⟩] := hinner ▸ hi
    _ = ((k.rest.before [⟨.closing, line'⟩]).before ps).before [⟨.opening, line⟩] := by rw [← hk]
    _ = _ := by simp [Input.before]

-- On the tokens that are left. A reader that hands on all of them hands them to one of a lower
-- level, which the numbers added to the measure count.
mutual

theorem between_of_sum {i j : Input} {e : Expr} (h : Gives (sum i) e j) :
    Between (.sum e) i j := by
  obtain ⟨left, k, hleft, hon⟩ := gives_sum.mp h
  obtain ⟨ps, hi, hps⟩ := between_of_product hleft
  obtain ⟨qs, hk, hqs⟩ := derives_of_sumOn hon (.ofProduct hps)
  exact ⟨ps ++ qs, by rw [Input.before_append, ← hk, hi], by rwa [List.map_append]⟩
termination_by i.size * 10 + 7
decreasing_by
  · omega
  · have := hleft.size_lt
    omega

theorem derives_of_sumOn {i j : Input} {e left : Expr} {ts : List Token}
    (h : GivesOn (sumOn left i) e j) (hleft : Derives (.sum left) ts) :
    ∃ ps, i = j.before ps ∧ Derives (.sum e) (ts ++ ps.map (·.token)) := by
  cases hop : sumOp? i.peek? with
  | none =>
      obtain ⟨rfl, rfl⟩ := (givesOn_sumOn_of_none hop).mp h
      exact ⟨[], rfl, by simpa using hleft⟩
  | some op =>
      obtain ⟨right, k, hright, hon⟩ := (givesOn_sumOn_of_some hop).mp h
      obtain ⟨hpeek, hprecedence⟩ := sumOp?_eq_some hop
      obtain ⟨line, breaks, hi, hbreaks⟩ := eq_before_operator hpeek
      obtain ⟨ps, hps, hderives⟩ := between_of_product hright
      obtain ⟨qs, hk, hqs⟩ := derives_of_sumOn hon (.sum hprecedence hleft hbreaks hderives)
      refine ⟨⟨op.token, line⟩ :: (breaks ++ (ps ++ qs)), ?_, by simpa using hqs⟩
      rw [hi, hps, hk]
      simp [Input.before]
termination_by i.size * 10 + 8
decreasing_by
  · have := size_rest_skipNewlines_lt hpeek
    omega
  · have := size_rest_skipNewlines_lt hpeek
    have := hright.size_lt
    omega

theorem between_of_product {i j : Input} {e : Expr} (h : Gives (product i) e j) :
    Between (.product e) i j := by
  obtain ⟨left, k, hleft, hon⟩ := gives_product.mp h
  obtain ⟨ps, hi, hps⟩ := between_of_operand hleft
  obtain ⟨qs, hk, hqs⟩ := derives_of_productOn hon (.ofOperand hps)
  exact ⟨ps ++ qs, by rw [Input.before_append, ← hk, hi], by rwa [List.map_append]⟩
termination_by i.size * 10 + 6
decreasing_by
  · omega
  · have := hleft.size_lt
    omega

theorem derives_of_productOn {i j : Input} {e left : Expr} {ts : List Token}
    (h : GivesOn (productOn left i) e j) (hleft : Derives (.product left) ts) :
    ∃ ps, i = j.before ps ∧ Derives (.product e) (ts ++ ps.map (·.token)) := by
  cases hop : productOp? i.peek? with
  | none =>
      obtain ⟨rfl, rfl⟩ := (givesOn_productOn_of_none hop).mp h
      exact ⟨[], rfl, by simpa using hleft⟩
  | some op =>
      obtain ⟨right, k, hright, hon⟩ := (givesOn_productOn_of_some hop).mp h
      obtain ⟨hpeek, hprecedence⟩ := productOp?_eq_some hop
      obtain ⟨line, breaks, hi, hbreaks⟩ := eq_before_operator hpeek
      obtain ⟨ps, hps, hderives⟩ := between_of_operand hright
      obtain ⟨qs, hk, hqs⟩ := derives_of_productOn hon (.product hprecedence hleft hbreaks hderives)
      refine ⟨⟨op.token, line⟩ :: (breaks ++ (ps ++ qs)), ?_, by simpa using hqs⟩
      rw [hi, hps, hk]
      simp [Input.before]
termination_by i.size * 10 + 8
decreasing_by
  · have := size_rest_skipNewlines_lt hpeek
    omega
  · have := size_rest_skipNewlines_lt hpeek
    have := hright.size_lt
    omega

theorem between_of_operand {i j : Input} {e : Expr} (h : Gives (operand i) e j) :
    Between (.operand e) i j := by
  cases hsign : sign? i.peek? with
  | none =>
      obtain ⟨callee, k, hcallee, hon⟩ := (gives_operand_of_none hsign).mp h
      obtain ⟨ps, hi, hps⟩ := between_of_primary hcallee
      obtain ⟨qs, hk, hqs⟩ := derives_of_callsOn hon (.ofPrimary hps)
      refine ⟨ps ++ qs, by rw [Input.before_append, ← hk, hi], .ofCalls ?_⟩
      rwa [List.map_append]
  | some s =>
      obtain ⟨inner, hinner, rfl⟩ := (gives_operand_of_some hsign).mp h
      have hpeek := sign?_eq_some hsign
      obtain ⟨line, breaks, hi, hbreaks⟩ := eq_before_operator hpeek
      obtain ⟨ps, hps, hderives⟩ := between_of_operand hinner
      refine ⟨⟨s.token, line⟩ :: (breaks ++ ps), ?_, by simpa using .signed hbreaks hderives⟩
      rw [hi, hps]
      simp [Input.before]
termination_by i.size * 10 + 5
decreasing_by
  · omega
  · have := hcallee.size_lt
    omega
  · have := size_rest_skipNewlines_lt hpeek
    omega

theorem derives_of_callsOn {i j : Input} {e callee : Expr} {ts : List Token}
    (h : GivesOn (callsOn callee i) e j) (hcallee : Derives (.calls callee) ts) :
    ∃ ps, i = j.before ps ∧ Derives (.calls e) (ts ++ ps.map (·.token)) := by
  by_cases hopening : i.peek? = some .opening
  · by_cases hclosing : i.rest.peek? = some .closing
    · rw [givesOn_callsOn_of_closing hopening hclosing] at h
      obtain ⟨qs, hi, hqs⟩ := eq_before_group hopening (Input.before_nil _).symm hclosing
      obtain ⟨ps, hrest, hps⟩ := derives_of_callsOn h (.call hcallee)
      refine ⟨qs ++ ps, by rwa [Input.before_append, ← hrest], ?_⟩
      simpa [hqs] using hps
    · obtain ⟨args, k, hargs, hclose, hon⟩ := (givesOn_callsOn_of_args hopening hclosing).mp h
      obtain ⟨as, hrest, has⟩ := between_of_list hargs
      obtain ⟨qs, hi, hqs⟩ := eq_before_group hopening hrest hclose
      obtain ⟨ps, hk, hps⟩ := derives_of_callsOn hon (.callWith hcallee has)
      refine ⟨qs ++ ps, by rw [Input.before_append, ← hk, hi], ?_⟩
      simpa [hqs] using hps
  · obtain ⟨rfl, rfl⟩ := (givesOn_callsOn_of_ne hopening).mp h
    exact ⟨[], rfl, by simpa using hcallee⟩
termination_by i.size * 10 + 4
decreasing_by
  · have := Input.size_rest_lt hopening
    have := Input.size_rest_lt hclosing
    omega
  · have := Input.size_rest_lt hopening
    omega
  · have := Input.size_rest_lt hopening
    have := Input.size_rest_lt hclose
    have := hargs.size_lt
    omega

theorem between_of_list {i j : Input} {es : List Expr} (h : Gives (list i) es j) :
    Between (.list es) i j := by
  obtain ⟨first, k, hfirst, ⟨hcomma, others, hothers, rfl⟩ | ⟨-, rfl, rfl⟩⟩ := gives_list.mp h
  · obtain ⟨ps, hi, hps⟩ := between_of_sum hfirst
    obtain ⟨line, hk⟩ := Input.eq_before_of_peek? hcomma
    obtain ⟨qs, hrest, hqs⟩ := between_of_list hothers
    refine ⟨ps ++ ⟨.comma, line⟩ :: qs, ?_, by simpa using .cons hps hqs⟩
    rw [hi, hk, hrest]
    simp [Input.before]
  · obtain ⟨ps, hi, hps⟩ := between_of_sum hfirst
    exact ⟨ps, hi, .single hps⟩
termination_by i.size * 10 + 9
decreasing_by
  · omega
  · have := hfirst.size_lt
    have := Input.size_rest_lt hcomma
    omega
  · omega

theorem between_of_primary {i j : Input} {e : Expr} (h : Gives (primary i) e j) :
    Between (.primary e) i j := by
  obtain ⟨value, hvalue, rfl, rfl⟩ | ⟨text, htext, rfl, rfl⟩ |
    ⟨hopening, items, k, hitems, hclosing, rfl, rfl⟩ := gives_primary.mp h
  · obtain ⟨line, hi⟩ := Input.eq_before_of_peek? hvalue
    exact ⟨_, hi, .number value⟩
  · obtain ⟨line, hi⟩ := Input.eq_before_of_peek? htext
    exact ⟨_, hi, .name text⟩
  · obtain ⟨ps, hrest, hps⟩ := between_of_list hitems
    obtain ⟨qs, hi, hqs⟩ := eq_before_group hopening hrest hclosing
    exact ⟨qs, hi, hqs ▸ .group hps⟩
termination_by i.size * 10 + 3
decreasing_by
  have := Input.size_rest_lt hopening
  omega

end

end Soundness

section Completeness

/-- The tokens that a phrase can begin with. -/
def Begins : Token → Prop
  | .number _ | .name _ | .opening | .plus | .minus => True
  | _ => False

def Phrase.unsigned : Phrase → Prop
  | .calls _ | .primary _ => True
  | _ => False

theorem Derives.exists_cons {phrase : Phrase} {ts : List Token} (h : Derives phrase ts) :
    ∃ t us, ts = t :: us ∧ Begins t ∧ (phrase.unsigned → sign? (some t) = none) := by
  induction h with
  | number | name | group => exact ⟨_, _, rfl, trivial, fun _ => rfl⟩
  | @signed s => exact ⟨_, _, rfl, by cases s <;> trivial, False.elim⟩
  | ofPrimary _ ih =>
      obtain ⟨t, us, rfl, hbegins, hsign⟩ := ih
      exact ⟨t, us, rfl, hbegins, fun _ => hsign trivial⟩
  | ofProduct _ ih | ofOperand _ ih | ofCalls _ ih | single _ ih =>
      obtain ⟨t, us, rfl, hbegins, -⟩ := ih
      exact ⟨t, us, rfl, hbegins, False.elim⟩
  | sum _ _ _ _ ih _ | product _ _ _ _ ih _ | cons _ _ ih _ =>
      obtain ⟨t, us, rfl, hbegins, -⟩ := ih
      exact ⟨t, _, rfl, hbegins, False.elim⟩
  | call _ ih | callWith _ _ ih _ =>
      obtain ⟨t, us, rfl, hbegins, hsign⟩ := ih
      exact ⟨t, _, rfl, hbegins, hsign⟩

variable {i : Input} {ps : List Placed}

theorem Derives.peek? {phrase : Phrase} (h : Derives phrase (ps.map (·.token))) (i : Input) :
    ∃ t, (i.before ps).peek? = some t ∧ Begins t ∧
      (phrase.unsigned → sign? (some t) = none) := by
  obtain ⟨t, us, hcons, hbegins⟩ := h.exists_cons
  obtain ⟨p, qs, rfl, rfl, -⟩ := List.map_eq_cons_iff.mp hcons
  exact ⟨p.token, rfl, hbegins⟩

theorem Derives.skipNewlines {phrase : Phrase} (h : Derives phrase (ps.map (·.token)))
    {breaks : List Placed} (hbreaks : ∀ t ∈ breaks.map (·.token), t = .newline) (p : Placed) :
    (i.before (p :: (breaks ++ ps))).rest.skipNewlines = i.before ps := by
  obtain ⟨t, hpeek, hbegins, -⟩ := h.peek? i
  rw [Input.rest_before_cons, Input.before_append, Input.skipNewlines_before hbreaks]
  rw [hpeek]
  rintro ⟨⟩
  exact hbegins

/-- The tokens of a phrase with an operator in it. -/
theorem exists_of_operator {t : Token} {ts breaks us : List Token}
    (h : ps.map (·.token) = ts ++ t :: (breaks ++ us)) :
    ∃ as p bs cs, ps = as ++ p :: (bs ++ cs) ∧ as.map (·.token) = ts ∧ p.token = t ∧
      bs.map (·.token) = breaks ∧ cs.map (·.token) = us := by
  obtain ⟨as, _, rfl, has, h⟩ := List.map_eq_append_iff.mp h
  obtain ⟨p, _, rfl, htoken, h⟩ := List.map_eq_cons_iff.mp h
  obtain ⟨bs, cs, rfl, hbs, hcs⟩ := List.map_eq_append_iff.mp h
  exact ⟨as, p, bs, cs, rfl, has, htoken, hbs, hcs⟩

/-- The tokens of a phrase in parentheses. -/
theorem exists_of_group {ts : List Token}
    (h : ps.map (·.token) = .opening :: (ts ++ [.closing])) :
    ∃ p bs q, ps = p :: (bs ++ [q]) ∧ p.token = .opening ∧ bs.map (·.token) = ts ∧
      q.token = .closing := by
  obtain ⟨p, _, rfl, hopening, h⟩ := List.map_eq_cons_iff.mp h
  obtain ⟨bs, _, rfl, hbs, h⟩ := List.map_eq_append_iff.mp h
  obtain ⟨q, _, rfl, hclosing, h⟩ := List.map_eq_cons_iff.mp h
  obtain rfl := List.map_eq_nil_iff.mp h
  exact ⟨p, bs, q, rfl, hopening, hbs, hclosing⟩

theorem sumOp?_token {op : BinaryOp} (h : op.precedence = 1) :
    sumOp? (some op.token) = some op := by
  cases op <;> first | rfl | cases h

theorem productOp?_token {op : BinaryOp} (h : op.precedence = 2) :
    productOp? (some op.token) = some op := by
  cases op <;> first | rfl | cases h

theorem productOp?_token_of_sum {op : BinaryOp} (h : op.precedence = 1) :
    productOp? (some op.token) = none := by
  cases op <;> first | rfl | cases h

theorem sign?_token (s : Sign) : sign? (some s.token) = some s := by
  cases s <;> rfl

theorem token_ne_opening (op : BinaryOp) : some op.token ≠ some .opening := by
  cases op <;> rintro ⟨⟩

/-- That a phrase is read from its tokens, whatever input follows that does not
continue it. -/
def Phrase.IsRead (ps : List Placed) : Phrase → Prop
  | .sum e => ∀ i e' j, productOp? i.peek? = none → i.peek? ≠ some .opening →
      GivesOn (sumOn e i) e' j → Gives (Grammar.sum (i.before ps)) e' j
  | .product e => ∀ i e' j, i.peek? ≠ some .opening →
      GivesOn (productOn e i) e' j → Gives (Grammar.product (i.before ps)) e' j
  | .operand e => ∀ i, i.peek? ≠ some .opening → Gives (Grammar.operand (i.before ps)) e i
  | .calls e => ∀ i e' j, GivesOn (callsOn e i) e' j → Gives (Grammar.operand (i.before ps)) e' j
  | .primary e => ∀ i, Gives (Grammar.primary (i.before ps)) e i
  | .list es => ∀ i, i.peek? = some .closing → Gives (Grammar.list (i.before ps)) es i

theorem Derives.isRead {phrase : Phrase} {ts : List Token} (h : Derives phrase ts) :
    ∀ ps : List Placed, ps.map (·.token) = ts → phrase.IsRead ps := by
  induction h with
  | ofProduct _ ih =>
      intro ps hps i e j hop hopening hon
      exact gives_sum.mpr ⟨_, i, ih ps hps i _ i hopening
        ((givesOn_productOn_of_none hop).mpr ⟨rfl, rfl⟩), hon⟩
  -- The left operand is read first and the loop goes on behind it: `hon` is what the loop makes
  -- of the operation once it is behind the right operand, too.
  | sum hop _ hbreaks hright ihleft ihright =>
      intro ps hps i e j hno hopening hon
      obtain ⟨as, p, bs, cs, rfl, has, htoken, rfl, rfl⟩ := exists_of_operator hps
      rw [Input.before_append]
      refine ihleft as has _ _ _ ?_ ?_ ?_
      · rw [Input.peek?_before htoken, productOp?_token_of_sum hop]
      · rw [Input.peek?_before htoken]
        exact token_ne_opening _
      · rw [givesOn_sumOn_of_some (by rw [Input.peek?_before htoken, sumOp?_token hop]),
          hright.skipNewlines hbreaks]
        exact ⟨_, i, ihright cs rfl i _ i hopening
          ((givesOn_productOn_of_none hno).mpr ⟨rfl, rfl⟩), hon⟩
  | ofOperand _ ih =>
      intro ps hps i e j hopening hon
      exact gives_product.mpr ⟨_, i, ih ps hps i hopening, hon⟩
  | product hop _ hbreaks hright ihleft ihright =>
      intro ps hps i e j hopening hon
      obtain ⟨as, p, bs, cs, rfl, has, htoken, rfl, rfl⟩ := exists_of_operator hps
      rw [Input.before_append]
      refine ihleft as has _ _ _ ?_ ?_
      · rw [Input.peek?_before htoken]
        exact token_ne_opening _
      · rw [givesOn_productOn_of_some (by rw [Input.peek?_before htoken, productOp?_token hop]),
          hright.skipNewlines hbreaks]
        exact ⟨_, i, ihright cs rfl i hopening, hon⟩
  | ofCalls _ ih =>
      intro ps hps i hopening
      exact ih ps hps i _ i ((givesOn_callsOn_of_ne hopening).mpr ⟨rfl, rfl⟩)
  | signed hbreaks hoperand ih =>
      intro ps hps i hopening
      obtain ⟨p, _, rfl, htoken, h⟩ := List.map_eq_cons_iff.mp hps
      obtain ⟨bs, cs, rfl, rfl, rfl⟩ := List.map_eq_append_iff.mp h
      rw [gives_operand_of_some (by rw [Input.peek?_before htoken, sign?_token]),
        hoperand.skipNewlines hbreaks]
      exact ⟨_, ih cs rfl i hopening, rfl⟩
  | ofPrimary hprimary ih =>
      rintro ps rfl i e j hon
      obtain ⟨t, hpeek, -, hsign⟩ := hprimary.peek? i
      rw [gives_operand_of_none (by rw [hpeek, hsign trivial])]
      exact ⟨_, i, ih ps rfl i, hon⟩
  | call _ ih =>
      intro ps hps i e j hon
      obtain ⟨as, _, rfl, has, h⟩ := List.map_eq_append_iff.mp hps
      obtain ⟨p, _, rfl, hopening, h⟩ := List.map_eq_cons_iff.mp h
      obtain ⟨q, _, rfl, hclosing, h⟩ := List.map_eq_cons_iff.mp h
      obtain rfl := List.map_eq_nil_iff.mp h
      rw [Input.before_append]
      refine ih as has _ _ _ ?_
      rwa [givesOn_callsOn_of_closing (Input.peek?_before hopening) (Input.peek?_before hclosing)]
  | callWith _ hargs ih ihargs =>
      intro ps hps i e j hon
      obtain ⟨as, _, rfl, has, h⟩ := List.map_eq_append_iff.mp hps
      obtain ⟨p, bs, q, rfl, hopening, rfl, hclosing⟩ := exists_of_group h
      rw [Input.before_append]
      refine ih as has _ _ _ ?_
      rw [givesOn_callsOn_of_args (Input.peek?_before hopening) ?_]
      · rw [Input.rest_before_cons, Input.before_append]
        exact ⟨_, _, ihargs bs rfl _ (Input.peek?_before hclosing), Input.peek?_before hclosing, hon⟩
      · obtain ⟨t, hpeek, hbegins, -⟩ := hargs.peek? (i.before [q])
        rw [Input.rest_before_cons, Input.before_append, hpeek]
        rintro ⟨⟩
        exact hbegins
  | number value =>
      intro ps hps i
      obtain ⟨p, _, rfl, hvalue, h⟩ := List.map_eq_cons_iff.mp hps
      obtain rfl := List.map_eq_nil_iff.mp h
      exact gives_primary.mpr (.inl ⟨value, Input.peek?_before hvalue, rfl, rfl⟩)
  | name text =>
      intro ps hps i
      obtain ⟨p, _, rfl, htext, h⟩ := List.map_eq_cons_iff.mp hps
      obtain rfl := List.map_eq_nil_iff.mp h
      exact gives_primary.mpr (.inr (.inl ⟨text, Input.peek?_before htext, rfl, rfl⟩))
  | group _ ih =>
      intro ps hps i
      obtain ⟨p, bs, q, rfl, hopening, rfl, hclosing⟩ := exists_of_group hps
      refine gives_primary.mpr (.inr (.inr ⟨Input.peek?_before hopening, _, i.before [q], ?_,
        Input.peek?_before hclosing, rfl, rfl⟩))
      rw [Input.rest_before_cons, Input.before_append]
      exact ih bs rfl _ (Input.peek?_before hclosing)
  | single _ ih =>
      intro ps hps i hclosing
      refine gives_list.mpr ⟨_, i, ih ps hps i _ i (by rw [hclosing]; rfl) (by simp [hclosing])
        ((givesOn_sumOn_of_none (by rw [hclosing]; rfl)).mpr ⟨rfl, rfl⟩), .inr ⟨?_, rfl, rfl⟩⟩
      simp [hclosing]
  | cons _ _ ih ihrest =>
      intro ps hps i hclosing
      obtain ⟨as, _, rfl, has, h⟩ := List.map_eq_append_iff.mp hps
      obtain ⟨p, bs, rfl, hcomma, rfl⟩ := List.map_eq_cons_iff.mp h
      have hpeek : (i.before (p :: bs)).peek? = some .comma := Input.peek?_before hcomma
      rw [Input.before_append]
      refine gives_list.mpr ⟨_, _, ih as has _ _ _ (by rw [hpeek]; rfl) (by simp [hpeek])
        ((givesOn_sumOn_of_none (by rw [hpeek]; rfl)).mpr ⟨rfl, rfl⟩), .inl ⟨hpeek, _, ?_, rfl⟩⟩
      exact ihrest bs rfl i hclosing

end Completeness

section Statements

variable {i j : Input} {s : Statement} {ss : List Statement} {ts : List Token}
  {ps : List Placed}

/-- That nothing here continues an expression. -/
def Input.Stops (i : Input) : Prop :=
  sumOp? i.peek? = none ∧ productOp? i.peek? = none ∧ i.peek? ≠ some .opening

theorem Input.AtBreak.stops (h : i.AtBreak) : i.Stops ∧ i.peek? ≠ some .assign := by
  unfold Input.Stops
  rcases h with h | h | h <;> rw [h] <;> simp [sumOp?, productOp?]

theorem Input.stops_of_assign (h : i.peek? = some .assign) : i.Stops := by
  unfold Input.Stops
  rw [h]
  simp [sumOp?, productOp?]

theorem Derives.gives_sum {e : Expr} (h : Derives (.sum e) (ps.map (·.token))) (hstops : i.Stops) :
    Gives (Grammar.sum (i.before ps)) e i := by
  obtain ⟨hsum, hproduct, hopening⟩ := hstops
  exact h.isRead ps rfl i e i hproduct hopening
    ((givesOn_sumOn_of_none hsum).mpr ⟨rfl, rfl⟩)

theorem Says.gives (h : Says s (ps.map (·.token))) (hbreak : i.AtBreak) :
    Gives (statement (i.before ps)) s i := by
  obtain ⟨hstops, hassign⟩ := hbreak.stops
  generalize hts : ps.map (·.token) = ts at h
  cases h with
  | bare h =>
      subst hts
      exact gives_statement.mpr
        ⟨⟨_, i, h.gives_sum hstops, .inr ⟨hassign, rfl, rfl⟩⟩, hbreak⟩
  | rule htarget hbreaks hvalue =>
      obtain ⟨as, p, bs, cs, rfl, rfl, htoken, rfl, rfl⟩ := exists_of_operator hts
      have hpeek : (i.before (p :: (bs ++ cs))).peek? = some .assign := Input.peek?_before htoken
      rw [Input.before_append]
      refine gives_statement.mpr
        ⟨⟨_, _, htarget.gives_sum (Input.stops_of_assign hpeek), .inl ⟨hpeek, _, ?_, rfl⟩⟩, hbreak⟩
      rw [hvalue.skipNewlines hbreaks]
      exact hvalue.gives_sum hstops

theorem says_of_gives (h : Gives (statement i) s j) :
    ∃ ps, i = j.before ps ∧ Says s (ps.map (·.token)) := by
  obtain ⟨⟨first, k, hfirst, ⟨hassign, value, hvalue, rfl⟩ | ⟨-, rfl, rfl⟩⟩, -⟩ :=
    gives_statement.mp h
  · obtain ⟨as, hi, has⟩ := between_of_sum hfirst
    obtain ⟨line, breaks, hk, hbreaks⟩ := eq_before_operator hassign
    obtain ⟨bs, hrest, hbs⟩ := between_of_sum hvalue
    refine ⟨as ++ ⟨.assign, line⟩ :: (breaks ++ bs), ?_, by simpa using .rule has hbreaks hbs⟩
    rw [hi, hk, hrest]
    simp [Input.before]
  · obtain ⟨as, hi, has⟩ := between_of_sum hfirst
    exact ⟨as, hi, .bare has⟩

theorem Says.exists_cons (h : Says s ts) : ∃ t us, ts = t :: us ∧ Begins t := by
  cases h with
  | bare h =>
      obtain ⟨t, us, rfl, hbegins, -⟩ := h.exists_cons
      exact ⟨t, us, rfl, hbegins⟩
  | rule htarget _ _ =>
      obtain ⟨t, us, rfl, hbegins, -⟩ := htarget.exists_cons
      exact ⟨t, _, rfl, hbegins⟩

theorem IsBreak.not_begins {t : Token} (h : IsBreak t) : ¬Begins t := by
  rcases h with rfl | rfl <;> exact id

theorem skipBreaks_before (h : Says s (ps.map (·.token))) :
    (i.before ps).skipBreaks = i.before ps := by
  obtain ⟨t, us, hcons, hbegins⟩ := h.exists_cons
  obtain ⟨p, qs, rfl, rfl, -⟩ := List.map_eq_cons_iff.mp hcons
  have hno : ¬IsBreak p.token := fun hbreak => hbreak.not_begins hbegins
  simp only [Input.before, Input.skipBreaks, Input.mk.injEq, and_true, List.cons_append]
  exact List.dropWhile_cons_of_neg (by simpa [IsBreak] using hno)

theorem statements_congr (h : i.skipBreaks = j.skipBreaks) :
    statements i = .ok ss ↔ statements j = .ok ss := by
  rw [statements_eq_ok, statements_eq_ok, h]

theorem Input.atBreak_iff : i.AtBreak ↔ ∀ t ∈ (i.tokens.map (·.token)).head?, IsBreak t := by
  obtain ⟨tokens, lastLine⟩ := i
  cases tokens with
  | nil => simp [Input.AtBreak, Input.peek?]
  | cons p tokens => simp [Input.AtBreak, Input.peek?, IsBreak]

theorem Lists.statements_eq_ok (h : Lists ss ts) :
    ∀ i : Input, i.tokens.map (·.token) = ts → statements i = .ok ss := by
  induction h with
  | nil =>
      rintro ⟨tokens, lastLine⟩ hi
      obtain rfl := List.map_eq_nil_iff.mp hi
      exact Grammar.statements_eq_ok.mpr (.inl ⟨rfl, rfl⟩)
  | skip hbreak _ ih =>
      rintro ⟨tokens, lastLine⟩ hi
      obtain ⟨p, qs, rfl, rfl, hqs⟩ := List.map_eq_cons_iff.mp hi
      rw [statements_congr (j := ⟨qs, lastLine⟩)]
      · exact ih _ hqs
      · simp only [Input.skipBreaks, Input.mk.injEq, and_true]
        exact List.dropWhile_cons_of_pos (by simpa [IsBreak] using hbreak)
  | cons hsays hbreak _ ih =>
      rintro ⟨tokens, lastLine⟩ hi
      obtain ⟨ps, qs, rfl, rfl, rfl⟩ := List.map_eq_append_iff.mp hi
      let j : Input := ⟨qs, lastLine⟩
      have hgives := hsays.gives (Input.atBreak_iff.mpr hbreak : j.AtBreak)
      have hskip : (j.before ps).skipBreaks = j.before ps := skipBreaks_before hsays
      change statements (j.before ps) = _
      refine Grammar.statements_eq_ok.mpr (.inr ⟨?_, _, j, _, by rwa [hskip], ih j rfl, rfl⟩)
      obtain ⟨t, us, hcons, -⟩ := hsays.exists_cons
      obtain ⟨p, rest, rfl, -, -⟩ := List.map_eq_cons_iff.mp hcons
      rw [hskip, Input.peek?_before rfl]
      exact Option.some_ne_none _

theorem Lists.skips (h : Lists ss ts) {breaks : List Token} (hbreaks : ∀ t ∈ breaks, IsBreak t) :
    Lists ss (breaks ++ ts) := by
  induction breaks with
  | nil => exact h
  | cons t breaks ih =>
      obtain ⟨ht, hbreaks⟩ := List.forall_mem_cons.mp hbreaks
      exact .skip ht (ih hbreaks)

theorem Input.eq_before_skipBreaks (i : Input) :
    ∃ ps, i = i.skipBreaks.before ps ∧ ∀ t ∈ ps.map (·.token), IsBreak t := by
  refine ⟨i.tokens.takeWhile fun p => p.token == .newline || p.token == .semicolon, ?_, ?_⟩
  · simp only [before, skipBreaks, List.takeWhile_append_dropWhile]
  · intro t ht
    obtain ⟨p, hp, rfl⟩ := List.mem_map.mp ht
    simpa [IsBreak] using List.mem_takeWhile_imp hp

theorem lists_of_statements {i : Input} {ss : List Statement} (h : statements i = .ok ss) :
    Lists ss (i.tokens.map (·.token)) := by
  obtain ⟨breaks, hi, hbreaks⟩ := i.eq_before_skipBreaks
  have hlists : Lists ss (i.skipBreaks.tokens.map (·.token)) := by
    obtain ⟨hnone, rfl⟩ | ⟨-, s, k, others, hgives, hothers, rfl⟩ := statements_eq_ok.mp h
    · have hempty : i.skipBreaks.tokens = [] := by
        simpa [Input.peek?] using hnone
      rw [hempty]
      exact .nil
    · obtain ⟨ps, hps, hsays⟩ := says_of_gives hgives
      have hbreak := (gives_statement.mp hgives).2
      rw [hps]
      simp only [Input.before, List.map_append]
      exact .cons hsays (Input.atBreak_iff.mp hbreak) (lists_of_statements hothers)
  rw [hi]
  simp only [Input.before, List.map_append]
  exact hlists.skips hbreaks
termination_by i.size
decreasing_by
  have := hgives.size_lt
  have := i.size_skipBreaks_le
  omega

/-- The statements that are read are those that the tokens form. -/
theorem statements_eq_ok_iff : statements i = .ok ss ↔ Lists ss (i.tokens.map (·.token)) :=
  ⟨lists_of_statements, fun h => h.statements_eq_ok i rfl⟩

end Statements

end Grammar

theorem parseScript_eq_ok_iff {script : String} {ss : List Statement} :
    parseScript script = .ok ss ↔
      ∃ ps, tokenize script = .ok ps ∧ Grammar.Lists ss (ps.map (·.token)) := by
  simp only [parseScript, bind_eq_ok, Grammar.statements_eq_ok_iff, Grammar.Input.ofTokens]

end Paydesk.Rates

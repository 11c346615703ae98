import Paydesk.Proofs.Rates.Division
import Paydesk.Proofs.Rates.Evaluation

/-!
How an evaluation fails: with the error of the first node that does, in the order in which
operands come before their operators. What can go wrong at a node is put in exact numbers.
Every error is of the kind that belongs to its cause, but for the quotient that is too large,
which is taken for one by zero.
-/

namespace Paydesk.Rates

open Decimal

namespace Spread

variable {s t u : Spread} {op : BinaryOp}

def sides (s : Spread) : List Decimal := [s.bid, s.ask]

/-- Zero is one of the sides or lies between them. -/
def HoldsZero (s : Spread) : Prop := s.bid.value ≤ 0 ∧ 0 ≤ s.ask.value

theorem touchesZero_iff : s.touchesZero ↔ s.HoldsZero := by
  rw [touchesZero, Bool.and_eq_true, le_iff_value, le_iff_value, value_zero, HoldsZero]

/-- Some product of sides is too large. A quotient is the product with the rounded
reciprocals. -/
def Overflows (op : BinaryOp) (s t : Spread) : Prop :=
  match op with
  | .add => ¬(InReach (s.bid.value + t.bid.value) ∧ InReach (s.ask.value + t.ask.value))
  | .sub => ¬(InReach (s.bid.value - t.ask.value) ∧ InReach (s.ask.value - t.bid.value))
  | .mul => ¬∀ a ∈ s.sides, ∀ b ∈ t.sides, InReach (a.value * b.value)
  | .div => ¬t.HoldsZero ∧
      ¬∀ a ∈ s.sides, ∀ b ∈ t.sides, ∀ r, Rounds (1 / b.value) r → InReach (a.value * r)

theorem isSome_mul?_iff_sides :
    (s.mul? t).isSome ↔ ∀ a ∈ s.sides, ∀ b ∈ t.sides, InReach (a.value * b.value) := by
  constructor
  · intro h a ha b hb
    obtain ⟨v, hv⟩ := Option.isSome_iff_exists.mp h
    obtain ⟨p, hp, -⟩ := corner_of_mul? hv ha hb
    exact (Decimal.isSome_mul?_iff a b).mp (Option.isSome_iff_exists.mpr ⟨p, hp⟩)
  · intro h
    have hside {a b : Decimal} (ha : a ∈ s.sides) (hb : b ∈ t.sides) : ∃ p, a.mul? b = some p :=
      Option.isSome_iff_exists.mp ((Decimal.isSome_mul?_iff a b).mpr (h a ha b hb))
    have hbid {s : Spread} : s.bid ∈ s.sides := List.mem_cons_self
    have hask {s : Spread} : s.ask ∈ s.sides := List.mem_cons_of_mem _ List.mem_cons_self
    obtain ⟨p, hp⟩ := hside hbid hbid
    obtain ⟨q, hq⟩ := hside hbid hask
    obtain ⟨r, hr⟩ := hside hask hbid
    obtain ⟨w, hw⟩ := hside hask hask
    exact Option.isSome_iff_exists.mpr ⟨_, mul?_eq_some.mpr ⟨p, q, r, w, hp, hq, hr, hw, rfl⟩⟩

theorem mem_sides_ordered {a b d : Decimal} : d ∈ (ordered a b).sides ↔ d = a ∨ d = b := by
  unfold ordered
  split_ifs
  · exact List.mem_pair
  · rw [or_comm]
    exact List.mem_pair

/-- A spread that does not hold zero has reciprocals, rounded ones of its sides. -/
theorem exists_inverse?_of_not_holdsZero (ht : t.Ordered) (hzero : ¬t.HoldsZero) :
    ∃ u, t.inverse? = some u ∧ ∀ p : ℚ → Prop,
      (∀ d ∈ u.sides, p d.value) ↔ ∀ b ∈ t.sides, ∀ r, Rounds (1 / b.value) r → p r := by
  rw [ordered_iff] at ht
  rw [HoldsZero, not_and, not_le] at hzero
  have hbid : t.bid.value ≠ 0 := fun h => absurd (hzero h.le) (not_lt.mpr (h ▸ ht))
  have hask : t.ask.value ≠ 0 := fun h => (hzero (h ▸ ht)).ne h
  obtain ⟨low, hlow, hlowRounds⟩ := exists_reciprocal hask
  obtain ⟨high, hhigh, hhighRounds⟩ := exists_reciprocal hbid
  refine ⟨_, inverse?_eq_some.mpr ⟨low, high, hlow, hhigh, rfl⟩, fun p => ?_⟩
  constructor
  · intro h b hb r hr
    rcases List.mem_pair.mp hb with rfl | rfl
    · rw [hr.unique hhighRounds]
      exact h high (mem_sides_ordered.mpr (.inr rfl))
    · rw [hr.unique hlowRounds]
      exact h low (mem_sides_ordered.mpr (.inl rfl))
  · intro h d hd
    rcases mem_sides_ordered.mp hd with rfl | rfl
    · exact h t.ask (List.mem_cons_of_mem _ List.mem_cons_self) _ hlowRounds
    · exact h t.bid List.mem_cons_self _ hhighRounds

/-- Two spreads give none just if the divisor holds zero, or if the result is too large. -/
theorem combine?_eq_none_iff (ht : t.Ordered) :
    combine? op s t = none ↔ op = .div ∧ t.HoldsZero ∨ Overflows op s t := by
  rw [← Option.not_isSome_iff_eq_none]
  cases op with
  | add =>
      simp only [reduceCtorEq, false_and, false_or, Overflows, ← Decimal.isSome_add?_iff]
      rw [not_iff_not, combine?, add?]
      cases s.bid.add? t.bid <;> cases s.ask.add? t.ask <;> simp
  | sub =>
      simp only [reduceCtorEq, false_and, false_or, Overflows, ← Decimal.isSome_sub?_iff]
      rw [not_iff_not, combine?, sub?]
      cases s.bid.sub? t.ask <;> cases s.ask.sub? t.bid <;> simp
  | mul =>
      simp only [reduceCtorEq, false_and, false_or, Overflows]
      rw [not_iff_not, combine?, isSome_mul?_iff_sides]
  | div =>
      simp only [true_and, Overflows]
      rw [combine?, div?]
      by_cases hzero : t.HoldsZero
      · simp [hzero, touchesZero_iff.mpr hzero]
      · obtain ⟨u, hu, hsides⟩ := exists_inverse?_of_not_holdsZero ht hzero
        rw [if_neg (mt touchesZero_iff.mp hzero), hu, Option.bind_some, isSome_mul?_iff_sides]
        simp only [hzero, false_or, not_false_eq_true, true_and]
        rw [not_iff_not]
        exact forall₂_congr fun a _ => hsides fun x => InReach (a.value * x)

end Spread

/-- What makes a node of an expression fail. -/
inductive Failure
  | zeroDivisor
  | overflow (op : BinaryOp)
  | wideNegation
  | noSpread
  | unevaluated
deriving DecidableEq

namespace Failure

/-- The error that belongs to a failure. -/
def kind : Failure → RuleError
  | .zeroDivisor => .divideByZero
  | .wideNegation => .invalidNegative
  | .overflow _ | .noSpread | .unevaluated => .unsupportedOperator

/-- The error that is reported for it. -/
def reported : Failure → RuleError
  | .overflow .div => .divideByZero
  | f => f.kind

theorem reported_eq_kind_iff {f : Failure} : f.reported = f.kind ↔ f ≠ .overflow .div := by
  cases f with
  | overflow op => cases op <;> simp [reported, kind]
  | _ => simp [reported]

end Failure

namespace Expr

mutual

/-- The nodes of an expression in the order in which they are evaluated: the operands, from
left to right, and then what is made of them. A tuple that does not have two items comes before
these. -/
def visits : Expr → List Expr
  | .binary op left right => left.visits ++ (right.visits ++ [.binary op left right])
  | .signed sign operand => operand.visits ++ [.signed sign operand]
  | .tuple items =>
      if items.length = 2 then visitsList items ++ [.tuple items]
      else .tuple items :: visitsList items
  | .literal value => [.literal value]
  | .quoted spread => [.quoted spread]
  | .name text => [.name text]
  | .call callee args => [.call callee args]

def visitsList : List Expr → List Expr
  | [] => []
  | e :: es => e.visits ++ visitsList es

end

/-- That a node fails although its operands have values. -/
inductive FailsWith : Expr → Failure → Prop
  | zeroDivisor {left right : Expr} {a b : Spread} (hleft : left.evaluate = .ok a)
      (hright : right.evaluate = .ok b) (hzero : b.HoldsZero) :
      FailsWith (.binary .div left right) .zeroDivisor
  | overflow {op : BinaryOp} {left right : Expr} {a b : Spread} (hleft : left.evaluate = .ok a)
      (hright : right.evaluate = .ok b) (hlarge : Spread.Overflows op a b) :
      FailsWith (.binary op left right) (.overflow op)
  | wideNegation {operand : Expr} {a : Spread} (hoperand : operand.evaluate = .ok a)
      (hwide : a.bid.value ≠ a.ask.value) : FailsWith (.signed .minus operand) .wideNegation
  | arity {items : List Expr} (hlength : items.length ≠ 2) : FailsWith (.tuple items) .noSpread
  | sides {bid ask : Expr} {a b : Spread} (hbid : bid.evaluate = .ok a)
      (hask : ask.evaluate = .ok b)
      (hsides : ¬(a.bid.value = a.ask.value ∧ b.bid.value = b.ask.value ∧
        a.bid.value ≤ b.bid.value)) : FailsWith (.tuple [bid, ask]) .noSpread
  | name (text : String) : FailsWith (.name text) .unevaluated
  | call (callee : Expr) (args : List Expr) : FailsWith (.call callee args) .unevaluated

/-- The first of some nodes that fails. -/
inductive FirstFailing : List Expr → Expr → Failure → Prop
  | here {node : Expr} {nodes : List Expr} {f : Failure} (h : node.FailsWith f) :
      FirstFailing (node :: nodes) node f
  | later {n node : Expr} {nodes : List Expr} {f : Failure} (hn : ∀ g, ¬n.FailsWith g)
      (h : FirstFailing nodes node f) : FirstFailing (n :: nodes) node f

/-- That some nodes explain a result: an error is that of the first one that fails. -/
def Explains {α : Type} (nodes : List Expr) (x : Except RuleError α) : Prop :=
  ∀ err, x = .error err ↔ ∃ node f, FirstFailing nodes node f ∧ f.reported = err

section First

variable {α β : Type} {node : Expr} {ms ns : List Expr} {f : Failure} {x : Except RuleError α}
  {k : α → Except RuleError β}

theorem firstFailing_append : FirstFailing (ms ++ ns) node f ↔
    FirstFailing ms node f ∨ (∀ m ∈ ms, ∀ g, ¬m.FailsWith g) ∧ FirstFailing ns node f := by
  induction ms with
  | nil =>
      have hnone : ¬FirstFailing [] node f := nofun
      simp [hnone]
  | cons m ms ih =>
      rw [List.cons_append]
      constructor
      · rintro (h | ⟨hm, h⟩)
        · exact .inl (.here h)
        · rcases ih.mp h with h | ⟨hms, h⟩
          · exact .inl (.later hm h)
          · exact .inr ⟨List.forall_mem_cons.mpr ⟨hm, hms⟩, h⟩
      · rintro ((h | ⟨hm, h⟩) | ⟨hms, h⟩)
        · exact .here h
        · exact .later hm (ih.mpr (.inl h))
        · obtain ⟨hm, hms⟩ := List.forall_mem_cons.mp hms
          exact .later hm (ih.mpr (.inr ⟨hms, h⟩))

theorem exists_firstFailing_iff :
    (∃ node f, FirstFailing ns node f) ↔ ∃ n ∈ ns, ∃ f, n.FailsWith f := by
  constructor
  · rintro ⟨node, f, h⟩
    induction h with
    | here h => exact ⟨_, List.mem_cons_self, _, h⟩
    | later _ _ ih =>
        obtain ⟨n, hn, hfails⟩ := ih
        exact ⟨n, List.mem_cons_of_mem _ hn, hfails⟩
  · intro h
    induction ns with
    | nil => simp at h
    | cons n ns ih =>
        by_cases hn : ∃ f, n.FailsWith f
        · obtain ⟨f, hf⟩ := hn
          exact ⟨n, f, .here hf⟩
        · obtain ⟨m, hm, hfails⟩ := h
          rcases List.mem_cons.mp hm with rfl | hm
          · exact absurd hfails hn
          · obtain ⟨node, f, hfirst⟩ := ih ⟨m, hm, hfails⟩
            exact ⟨node, f, .later (not_exists.mp hn) hfirst⟩

theorem forall_not_failsWith_iff :
    (∀ n ∈ ns, ∀ g, ¬n.FailsWith g) ↔ ∀ node f, ¬FirstFailing ns node f := by
  simpa using exists_firstFailing_iff.not.symm

/-- Of two steps the second one counts if the first one has a result. -/
theorem Explains.bind (hx : Explains ms x) (hk : ∀ a, x = .ok a → Explains ns (k a)) :
    Explains (ms ++ ns) (x >>= k) := by
  intro err
  simp only [firstFailing_append]
  cases x with
  | ok a =>
      change k a = .error err ↔ _
      have hnone (node : Expr) (f : Failure) : ¬FirstFailing ms node f := by
        intro h
        cases (hx f.reported).mpr ⟨node, f, h, rfl⟩
      simpa only [hnone, iff_true_intro (forall_not_failsWith_iff.mpr hnone), false_or, true_and]
        using hk a rfl err
  | error e =>
      change (.error e : Except RuleError β) = .error err ↔ _
      obtain ⟨node, f, hfirst, -⟩ := (hx e).mp rfl
      have hsome : ¬∀ m ∈ ms, ∀ g, ¬m.FailsWith g :=
        fun hms => forall_not_failsWith_iff.mp hms node f hfirst
      simpa only [hsome, false_and, or_false, Except.error.injEq] using hx err

theorem explains_single (h : ∀ err, x = .error err ↔ ∃ f, node.FailsWith f ∧ f.reported = err) :
    Explains [node] x := by
  intro err
  rw [h err]
  constructor
  · rintro ⟨f, hf, herr⟩
    exact ⟨node, f, .here hf, herr⟩
  · rintro ⟨_, f, hfirst, herr⟩
    cases hfirst with
    | here hf => exact ⟨f, hf, herr⟩
    | later _ hnone => cases hnone

/-- A node that always fails does so before what comes behind it. -/
theorem explains_error (hf : node.FailsWith f)
    (honly : ∀ g, node.FailsWith g → g.reported = f.reported) (nodes : List Expr) :
    Explains (node :: nodes) (.error f.reported : Except RuleError α) := by
  intro err
  constructor
  · rintro ⟨⟩
    exact ⟨node, f, .here hf, rfl⟩
  · rintro ⟨_, g, hfirst, rfl⟩
    cases hfirst with
    | here hg => rw [honly g hg]
    | later hnone => exact absurd hf (hnone f)

theorem explains_ok {a : α} (h : ∀ g, ¬node.FailsWith g) :
    Explains [node] (.ok a : Except RuleError α) := by
  refine explains_single fun err => ?_
  simp [h]

end First

section Nodes

variable {left right operand bid ask : Expr} {a b : Spread} {op : BinaryOp} {sign : Sign}

theorem applyOp_eq_error_iff {err : RuleError} : applyOp op a b = .error err ↔
    Spread.combine? op a b = none ∧
      err = if op = .div then .divideByZero else .unsupportedOperator := by
  have horElse (result : Option Spread) (e : RuleError) :
      applyOp.orElse result e = .error err ↔ result = none ∧ err = e := by
    cases result <;> simp [applyOp.orElse, eq_comm]
  cases op <;> exact horElse _ _

theorem applyOp_eq_ok_iff {v : Spread} :
    applyOp op a b = .ok v ↔ Spread.combine? op a b = some v := by
  have horElse (result : Option Spread) (e : RuleError) :
      applyOp.orElse result e = .ok v ↔ result = some v := by
    cases result <;> simp [applyOp.orElse]
  cases op <;> exact horElse _ _

theorem explains_binary (hleft : left.evaluate = .ok a) (hright : right.evaluate = .ok b)
    (hb : b.Ordered) : Explains [.binary op left right] (applyOp op a b) := by
  refine explains_single fun err => ?_
  rw [applyOp_eq_error_iff, Spread.combine?_eq_none_iff hb]
  constructor
  · rintro ⟨⟨rfl, hzero⟩ | hlarge, rfl⟩
    · exact ⟨_, .zeroDivisor hleft hright hzero, rfl⟩
    · refine ⟨_, .overflow hleft hright hlarge, ?_⟩
      cases op <;> rfl
  · rintro ⟨f, hf, rfl⟩
    cases hf with
    | zeroDivisor hleft' hright' hzero =>
        obtain rfl := Except.ok.inj (hright.symm.trans hright')
        exact ⟨.inl ⟨rfl, hzero⟩, rfl⟩
    | overflow hleft' hright' hlarge =>
        obtain rfl := Except.ok.inj (hleft.symm.trans hleft')
        obtain rfl := Except.ok.inj (hright.symm.trans hright')
        refine ⟨.inr hlarge, ?_⟩
        cases op <;> rfl

theorem explains_signed (hoperand : operand.evaluate = .ok a) :
    Explains [.signed sign operand] (applySign sign a) := by
  cases sign with
  | plus =>
      refine explains_ok fun g hg => ?_
      cases hg
  | minus =>
      refine explains_single fun err => ?_
      have hpoint : applySign .minus a = .error err ↔
          a.bid.value ≠ a.ask.value ∧ .invalidNegative = err := by
        rw [Ne, ← Spread.isPoint_iff, applySign]
        split_ifs with h <;> simp [h]
      rw [hpoint]
      constructor
      · rintro ⟨hwide, rfl⟩
        exact ⟨_, .wideNegation hoperand hwide, rfl⟩
      · rintro ⟨f, hf, rfl⟩
        cases hf with
        | wideNegation hoperand' hwide =>
            obtain rfl := Except.ok.inj (hoperand.symm.trans hoperand')
            exact ⟨hwide, rfl⟩

theorem joinSides_eq_error_iff {err : RuleError} : joinSides a b = .error err ↔
    ¬(a.bid.value = a.ask.value ∧ b.bid.value = b.ask.value ∧ a.bid.value ≤ b.bid.value) ∧
      .unsupportedOperator = err := by
  rw [← Spread.isPoint_iff, ← Spread.isPoint_iff, ← not_lt, ← lt_iff_value]
  unfold joinSides Spread.make
  by_cases ha : a.isPoint <;> by_cases hb : b.isPoint <;> by_cases hlt : b.bid.lt a.bid <;>
    simp [ha, hb, hlt]

theorem explains_tuple (hbid : bid.evaluate = .ok a) (hask : ask.evaluate = .ok b) :
    Explains [.tuple [bid, ask]] (joinSides a b) := by
  refine explains_single fun err => ?_
  rw [joinSides_eq_error_iff]
  constructor
  · rintro ⟨hsides, rfl⟩
    exact ⟨_, .sides hbid hask hsides, rfl⟩
  · rintro ⟨f, hf, rfl⟩
    cases hf with
    | arity hlength => exact absurd rfl hlength
    | sides hbid' hask' hsides =>
        obtain rfl := Except.ok.inj (hbid.symm.trans hbid')
        obtain rfl := Except.ok.inj (hask.symm.trans hask')
        exact ⟨hsides, rfl⟩

theorem explains_tuple_arity {items : List Expr} (hlength : items.length ≠ 2)
    (nodes : List Expr) :
    Explains (.tuple items :: nodes) (.error .unsupportedOperator : Except RuleError Spread) :=
  explains_error (.arity hlength) (fun g hg => by cases hg <;> rfl) nodes

end Nodes

section Evaluation

/-- The spreads in an expression are in order, as all spreads are. -/
def OrderedQuotes (e : Expr) : Prop := ∀ s, .quoted s ∈ e.visits → s.Ordered

theorem ordered_of_value : (e : Expr) → e.OrderedQuotes → ∀ {v}, e.value = .ok v → v.Ordered
  | .literal d, _, v, h => by
      cases h
      exact Spread.ordered_point d
  | .quoted s, hquotes, v, h => by
      cases h
      exact hquotes s (by simp [visits])
  | .binary op left right, hquotes, v, h => by
      obtain ⟨a, ha, h⟩ := bind_eq_ok.mp h
      obtain ⟨b, hb, h⟩ := bind_eq_ok.mp h
      have ha := ordered_of_value left (fun s hs => hquotes s (by simp [visits, hs])) ha
      have hb := ordered_of_value right (fun s hs => hquotes s (by simp [visits, hs])) hb
      exact Spread.ordered_of_combine? ha hb (applyOp_eq_ok_iff.mp h)
  | .signed .plus operand, hquotes, v, h => by
      obtain ⟨a, ha, h⟩ := bind_eq_ok.mp h
      cases h
      exact ordered_of_value operand (fun s hs => hquotes s (by simp [visits, hs])) ha
  | .signed .minus operand, hquotes, v, h => by
      obtain ⟨a, ha, h⟩ := bind_eq_ok.mp h
      rw [applySign] at h
      split_ifs at h
      cases h
      exact Spread.ordered_point _
  | .tuple [], _, _, h => by cases h
  | .tuple [_], _, _, h => by cases h
  | .tuple [bid, ask], _, v, h => by
      obtain ⟨a, -, h⟩ := bind_eq_ok.mp h
      obtain ⟨b, -, h⟩ := bind_eq_ok.mp h
      unfold joinSides at h
      split_ifs at h
      split at h
      · cases h
        exact Spread.ordered_of_make ‹_›
      · cases h
  | .tuple (_ :: _ :: _ :: _), _, _, h => by cases h
  | .name _, _, _, h => by cases h
  | .call _ _, _, _, h => by cases h

theorem explains_value : (e : Expr) → e.OrderedQuotes → Explains e.visits e.value
  | .literal d, _ => explains_ok nofun
  | .quoted s, _ => explains_ok nofun
  | .binary op left right, hquotes => by
      have hleft : left.OrderedQuotes := fun s hs => hquotes s (by simp [visits, hs])
      have hright : right.OrderedQuotes := fun s hs => hquotes s (by simp [visits, hs])
      rw [visits, value]
      refine (explains_value left hleft).bind fun a ha =>
        (explains_value right hright).bind fun b hb => ?_
      exact explains_binary (evaluate_eq_value left ▸ ha) (evaluate_eq_value right ▸ hb)
        (ordered_of_value right hright hb)
  | .signed sign operand, hquotes => by
      have hoperand : operand.OrderedQuotes := fun s hs => hquotes s (by simp [visits, hs])
      rw [visits, value]
      exact (explains_value operand hoperand).bind fun a ha =>
        explains_signed (evaluate_eq_value operand ▸ ha)
  | .tuple [], _ => explains_tuple_arity (by simp) _
  | .tuple [_], _ => explains_tuple_arity (by simp) _
  | .tuple [bid, ask], hquotes => by
      have hbid : bid.OrderedQuotes := fun s hs => hquotes s (by simp [visits, visitsList, hs])
      have hask : ask.OrderedQuotes := fun s hs => hquotes s (by simp [visits, visitsList, hs])
      have hlength : [bid, ask].length = 2 := rfl
      rw [visits, value, if_pos hlength, visitsList, visitsList, visitsList, List.append_nil,
        List.append_assoc]
      exact (explains_value bid hbid).bind fun a ha => (explains_value ask hask).bind fun b hb =>
        explains_tuple (evaluate_eq_value bid ▸ ha) (evaluate_eq_value ask ▸ hb)
  | .tuple (_ :: _ :: _ :: _), _ => by
      rw [visits, value, if_neg (by simp)]
      · exact explains_tuple_arity (by simp) _
      · simp
  | .name text, _ => explains_error (.name text) (fun _ hg => by cases hg; rfl) []
  | .call callee args, _ => explains_error (.call callee args) (fun _ hg => by cases hg; rfl) []

/-- An evaluation fails just if a node does, and then with the error of the first one. The
error is of the kind that belongs to the failure, unless that is a quotient which is too
large. -/
theorem fails_at_first_failing_node (e : Expr) (hquotes : e.OrderedQuotes) :
    (∀ err, e.evaluate = .error err ↔
      ∃ node f, FirstFailing e.visits node f ∧ f.reported = err) ∧
    ∀ node f, FirstFailing e.visits node f →
      (e.evaluate = .error f.kind ↔ f ≠ .overflow .div) := by
  have hexplains := explains_value e hquotes
  rw [← evaluate_eq_value] at hexplains
  refine ⟨hexplains, fun node f hfirst => ?_⟩
  rw [(hexplains f.reported).mpr ⟨node, f, hfirst, rfl⟩, Except.error.injEq,
    Failure.reported_eq_kind_iff]

/-- Ten by the least decimal above zero is no division by zero, but is reported as one. -/
theorem quotient_too_large :
    let least : Decimal := ⟨false, 1, 28, by decide, by decide⟩
    let e : Expr := .binary .div (.literal (.ofNat 10)) (.literal least)
    e.OrderedQuotes ∧ FirstFailing e.visits e (.overflow .div) ∧ e.evaluate = .error .divideByZero ∧
      e.evaluate ≠ .error (Failure.overflow .div).kind := by
  intro least e
  have hquotes : e.OrderedQuotes := by
    intro s hs
    simp [e, visits] at hs
  have hten : (ofNat 10).value = 10 := by norm_num [ofNat, Decimal.value, Decimal.signed, tenTo]
  have hleast : least.value = 1 / tenTo 28 := by norm_num [least, Decimal.value, Decimal.signed]
  have hround : Rounds (1 / least.value) (tenTo 28) := by
    have hvalue : (ofNat (tenTo 28)).value = tenTo 28 := by
      norm_num [ofNat, Decimal.value, Decimal.signed, tenTo]
    rw [hleast, one_div_one_div, ← hvalue]
    exact rounds_value _
  have hlarge : Spread.Overflows .div (.point (.ofNat 10)) (.point least) := by
    constructor
    · rintro ⟨hzero, -⟩
      rw [Spread.point, hleast] at hzero
      exact absurd hzero (by norm_num [tenTo])
    · intro h
      have hreach := h (.ofNat 10) List.mem_cons_self least List.mem_cons_self _ hround
      rw [hten, InReach] at hreach
      exact absurd hreach (by norm_num [tenTo, mantissaLimit])
  have hliteral (d : Decimal) (f : Failure) : ¬FailsWith (.literal d) f := by
    intro h
    cases h
  have hfirst : FirstFailing e.visits e (.overflow .div) :=
    .later (hliteral _) (.later (hliteral _) (.here (.overflow rfl rfl hlarge)))
  obtain ⟨herror, hkind⟩ := fails_at_first_failing_node e hquotes
  exact ⟨hquotes, hfirst, (herror _).mpr ⟨e, _, hfirst, rfl⟩,
    fun h => (hkind e _ hfirst).mp h rfl⟩

end Evaluation

end Expr

end Paydesk.Rates

import Paydesk.Proofs.Rates.Grammar

/-!
Derivations in the grammar of rate scripts, with braces for what may be
repeated and brackets for what may be left out:

```text
script    := { break | statement break } [ statement ]
statement := sum [ "=" sum ]
sum       := product { ("+" | "-") product }
product   := operand { ("*" | "/") operand }
operand   := ("+" | "-") operand | calls
calls     := primary { "(" [ list ] ")" }
list      := sum { "," sum }
primary   := number | name | "(" list ")"
```

A break is a semicolon or the end of a line, and further line ends may stand
directly behind an operator, a sign or the equals sign. The tokens of a script
have at most one derivation, and the statements that are read are those of it.
-/

namespace Paydesk.Rates

theorem BinaryOp.token_injective {op op' : BinaryOp} (h : op.token = op'.token) : op = op' := by
  cases op <;> cases op' <;> first | rfl | cases h

theorem Sign.token_injective {sign sign' : Sign} (h : sign.token = sign'.token) : sign = sign' := by
  cases sign <;> cases sign' <;> first | rfl | cases h

namespace Grammar

/-- The parts of an expression. A tail is what is repeated in the part before it. -/
inductive Part
  | sum
  | sumTail
  | product
  | productTail
  | operand
  | calls
  | callsTail
  | arguments
  | list
  | listTail
  | primary

/-- A derivation of a part. -/
inductive Tree : Part → Type
  | sum (first : Tree .product) (tail : Tree .sumTail) : Tree .sum
  | sumEnd : Tree .sumTail
  | sumMore (op : BinaryOp) (hop : op.precedence = 1) (breaks : Nat) (next : Tree .product)
      (tail : Tree .sumTail) : Tree .sumTail
  | product (first : Tree .operand) (tail : Tree .productTail) : Tree .product
  | productEnd : Tree .productTail
  | productMore (op : BinaryOp) (hop : op.precedence = 2) (breaks : Nat) (next : Tree .operand)
      (tail : Tree .productTail) : Tree .productTail
  | signed (sign : Sign) (breaks : Nat) (inner : Tree .operand) : Tree .operand
  | unsigned (inner : Tree .calls) : Tree .operand
  | calls (callee : Tree .primary) (tail : Tree .callsTail) : Tree .calls
  | callsEnd : Tree .callsTail
  | callsMore (args : Tree .arguments) (tail : Tree .callsTail) : Tree .callsTail
  | noArguments : Tree .arguments
  | someArguments (args : Tree .list) : Tree .arguments
  | list (first : Tree .sum) (tail : Tree .listTail) : Tree .list
  | listEnd : Tree .listTail
  | listMore (next : Tree .sum) (tail : Tree .listTail) : Tree .listTail
  | number (value : Decimal) : Tree .primary
  | name (text : String) : Tree .primary
  | group (items : Tree .list) : Tree .primary

/-- What a part stands for. A tail goes on with the expression before it. -/
def Part.Value : Part → Type
  | .sum | .product | .operand | .calls | .primary => Expr
  | .sumTail | .productTail | .callsTail => Expr → Expr
  | .arguments | .list | .listTail => List Expr

namespace Tree

def lineEnds (n : Nat) : List Token := List.replicate n .newline

/-- The tokens of a derivation, from left to right. -/
def tokens : {p : Part} → Tree p → List Token
  | _, .sum first tail => first.tokens ++ tail.tokens
  | _, .sumEnd => []
  | _, .sumMore op _ breaks next tail =>
      op.token :: (lineEnds breaks ++ (next.tokens ++ tail.tokens))
  | _, .product first tail => first.tokens ++ tail.tokens
  | _, .productEnd => []
  | _, .productMore op _ breaks next tail =>
      op.token :: (lineEnds breaks ++ (next.tokens ++ tail.tokens))
  | _, .signed sign breaks inner => sign.token :: (lineEnds breaks ++ inner.tokens)
  | _, .unsigned inner => inner.tokens
  | _, .calls callee tail => callee.tokens ++ tail.tokens
  | _, .callsEnd => []
  | _, .callsMore args tail => .opening :: (args.tokens ++ .closing :: tail.tokens)
  | _, .noArguments => []
  | _, .someArguments args => args.tokens
  | _, .list first tail => first.tokens ++ tail.tokens
  | _, .listEnd => []
  | _, .listMore next tail => .comma :: (next.tokens ++ tail.tokens)
  | _, .number value => [.number value]
  | _, .name text => [.name text]
  | _, .group items => .opening :: (items.tokens ++ [.closing])

/-- The expression of a derivation. An operator takes all that its tail has behind
as its left side, and an expression alone in parentheses is itself. -/
def value : {p : Part} → Tree p → p.Value
  | _, .sum first tail => tail.value first.value
  | _, .sumEnd => fun left => left
  | _, .sumMore op _ _ next tail => fun left => tail.value (.binary op left next.value)
  | _, .product first tail => tail.value first.value
  | _, .productEnd => fun left => left
  | _, .productMore op _ _ next tail => fun left => tail.value (.binary op left next.value)
  | _, .signed sign _ inner => Expr.signed sign inner.value
  | _, .unsigned inner => inner.value
  | _, .calls callee tail => tail.value callee.value
  | _, .callsEnd => fun callee => callee
  | _, .callsMore args tail => fun callee => tail.value (.call callee args.value)
  | _, .noArguments => ([] : List Expr)
  | _, .someArguments args => args.value
  | _, .list first tail => first.value :: tail.value
  | _, .listEnd => ([] : List Expr)
  | _, .listMore next tail => next.value :: tail.value
  | _, .number value => Expr.literal value
  | _, .name text => Expr.name text
  | _, .group items => Grammar.group items.value

theorem lineEnds_newline (n : Nat) : ∀ t ∈ lineEnds n, t = .newline :=
  fun _ ht => List.eq_of_mem_replicate ht

end Tree

section Phrases

/-- That tokens form the phrase of a part. A tail forms one with what stands before it. -/
def Part.Forms : (p : Part) → p.Value → List Token → Prop
  | .sum, e, us => Derives (.sum e) us
  | .sumTail, f, us => ∀ e ts, Derives (.sum e) ts → Derives (.sum (f e)) (ts ++ us)
  | .product, e, us => Derives (.product e) us
  | .productTail, f, us => ∀ e ts, Derives (.product e) ts → Derives (.product (f e)) (ts ++ us)
  | .operand, e, us => Derives (.operand e) us
  | .calls, e, us => Derives (.calls e) us
  | .callsTail, f, us => ∀ e ts, Derives (.calls e) ts → Derives (.calls (f e)) (ts ++ us)
  | .arguments, es, us => es = [] ∧ us = [] ∨ Derives (.list es) us
  | .list, es, us => Derives (.list es) us
  | .listTail, es, us => ∀ e ts, Derives (.sum e) ts → Derives (.list (e :: es)) (ts ++ us)
  | .primary, e, us => Derives (.primary e) us

theorem Tree.forms {p : Part} (d : Tree p) : p.Forms d.value d.tokens := by
  induction d with
  | sum first tail ihfirst ihtail => exact ihtail _ _ (.ofProduct ihfirst)
  | sumEnd =>
      intro e ts h
      rwa [tokens, List.append_nil]
  | sumMore op hop breaks next tail ihnext ihtail =>
      intro e ts h
      have := ihtail _ _ (.sum hop h (lineEnds_newline breaks) ihnext)
      simpa [tokens, value] using this
  | product first tail ihfirst ihtail => exact ihtail _ _ (.ofOperand ihfirst)
  | productEnd =>
      intro e ts h
      rwa [tokens, List.append_nil]
  | productMore op hop breaks next tail ihnext ihtail =>
      intro e ts h
      have := ihtail _ _ (.product hop h (lineEnds_newline breaks) ihnext)
      simpa [tokens, value] using this
  | signed sign breaks inner ih => exact .signed (lineEnds_newline breaks) ih
  | unsigned inner ih => exact .ofCalls ih
  | calls callee tail ihcallee ihtail => exact ihtail _ _ (.ofPrimary ihcallee)
  | callsEnd =>
      intro e ts h
      rwa [tokens, List.append_nil]
  | callsMore args tail ihargs ihtail =>
      intro e ts h
      rcases ihargs with ⟨hnone, hempty⟩ | hlist
      · have := ihtail _ _ (.call h)
        simpa [tokens, value, hnone, hempty] using this
      · have := ihtail _ _ (.callWith h hlist)
        simpa [tokens, value] using this
  | noArguments => exact .inl ⟨rfl, rfl⟩
  | someArguments args ih => exact .inr ih
  | list first tail ihfirst ihtail => exact ihtail _ _ ihfirst
  | listEnd =>
      intro e ts h
      rw [tokens, List.append_nil]
      exact .single h
  | listMore next tail ihnext ihtail =>
      intro e ts h
      exact .cons h (ihtail _ _ ihnext)
  | number value => exact .number value
  | name text => exact .name text
  | group items ih => exact .group ih

/-- Another operator behind a tail is the last one of a longer tail. -/
theorem exists_sumTail {op : BinaryOp} (hop : op.precedence = 1) (breaks : Nat)
    (right : Tree .product) : ∀ tail : Tree .sumTail, ∃ longer : Tree .sumTail,
      longer.tokens = tail.tokens ++ op.token :: (Tree.lineEnds breaks ++ right.tokens) ∧
        ∀ e : Expr, longer.value e = Expr.binary op (tail.value e) right.value
  | .sumEnd =>
      ⟨.sumMore op hop breaks right .sumEnd, by simp [Tree.tokens], fun _ => rfl⟩
  | .sumMore op' hop' breaks' next tail => by
      obtain ⟨longer, htokens, hvalue⟩ := exists_sumTail hop breaks right tail
      refine ⟨.sumMore op' hop' breaks' next longer, ?_, fun e => hvalue _⟩
      simp [Tree.tokens, htokens]

theorem exists_productTail {op : BinaryOp} (hop : op.precedence = 2) (breaks : Nat)
    (right : Tree .operand) : ∀ tail : Tree .productTail, ∃ longer : Tree .productTail,
      longer.tokens = tail.tokens ++ op.token :: (Tree.lineEnds breaks ++ right.tokens) ∧
        ∀ e : Expr, longer.value e = Expr.binary op (tail.value e) right.value
  | .productEnd =>
      ⟨.productMore op hop breaks right .productEnd, by simp [Tree.tokens], fun _ => rfl⟩
  | .productMore op' hop' breaks' next tail => by
      obtain ⟨longer, htokens, hvalue⟩ := exists_productTail hop breaks right tail
      refine ⟨.productMore op' hop' breaks' next longer, ?_, fun e => hvalue _⟩
      simp [Tree.tokens, htokens]

theorem exists_callsTail (args : Tree .arguments) : ∀ tail : Tree .callsTail,
    ∃ longer : Tree .callsTail,
      longer.tokens = tail.tokens ++ .opening :: (args.tokens ++ [.closing]) ∧
        ∀ e : Expr, longer.value e = Expr.call (tail.value e) args.value
  | .callsEnd => ⟨.callsMore args .callsEnd, by simp [Tree.tokens], fun _ => rfl⟩
  | .callsMore first tail => by
      obtain ⟨longer, htokens, hvalue⟩ := exists_callsTail args tail
      refine ⟨.callsMore first longer, ?_, fun e => hvalue _⟩
      simp [Tree.tokens, htokens]

theorem eq_lineEnds {breaks : List Token} (h : ∀ t ∈ breaks, t = .newline) :
    Tree.lineEnds breaks.length = breaks :=
  (List.eq_replicate_of_mem h).symm

/-- That some derivation of a phrase has the given tokens. -/
def Phrase.HasTree (ts : List Token) : Phrase → Prop
  | .sum e => ∃ d : Tree .sum, d.tokens = ts ∧ d.value = e
  | .product e => ∃ d : Tree .product, d.tokens = ts ∧ d.value = e
  | .operand e => ∃ d : Tree .operand, d.tokens = ts ∧ d.value = e
  | .calls e => ∃ d : Tree .calls, d.tokens = ts ∧ d.value = e
  | .primary e => ∃ d : Tree .primary, d.tokens = ts ∧ d.value = e
  | .list es => ∃ d : Tree .list, d.tokens = ts ∧ d.value = es

theorem Derives.hasTree {phrase : Phrase} {ts : List Token} (h : Derives phrase ts) :
    phrase.HasTree ts := by
  induction h with
  | ofProduct _ ih =>
      obtain ⟨d, rfl, rfl⟩ := ih
      exact ⟨.sum d .sumEnd, List.append_nil _, rfl⟩
  | sum hop _ hbreaks _ ihleft ihright =>
      obtain ⟨left, rfl, rfl⟩ := ihleft
      obtain ⟨right, rfl, rfl⟩ := ihright
      cases left with | sum first tail =>
      obtain ⟨longer, htokens, hvalue⟩ := exists_sumTail hop _ right tail
      refine ⟨.sum first longer, ?_, hvalue _⟩
      rw [Tree.tokens, htokens, eq_lineEnds hbreaks, Tree.tokens, List.append_assoc]
  | ofOperand _ ih =>
      obtain ⟨d, rfl, rfl⟩ := ih
      exact ⟨.product d .productEnd, List.append_nil _, rfl⟩
  | product hop _ hbreaks _ ihleft ihright =>
      obtain ⟨left, rfl, rfl⟩ := ihleft
      obtain ⟨right, rfl, rfl⟩ := ihright
      cases left with | product first tail =>
      obtain ⟨longer, htokens, hvalue⟩ := exists_productTail hop _ right tail
      refine ⟨.product first longer, ?_, hvalue _⟩
      rw [Tree.tokens, htokens, eq_lineEnds hbreaks, Tree.tokens, List.append_assoc]
  | ofCalls _ ih =>
      obtain ⟨d, rfl, rfl⟩ := ih
      exact ⟨.unsigned d, rfl, rfl⟩
  | @signed s _ breaks _ hbreaks _ ih =>
      obtain ⟨d, rfl, rfl⟩ := ih
      refine ⟨.signed s breaks.length d, ?_, rfl⟩
      rw [Tree.tokens, eq_lineEnds hbreaks]
  | ofPrimary _ ih =>
      obtain ⟨d, rfl, rfl⟩ := ih
      exact ⟨.calls d .callsEnd, List.append_nil _, rfl⟩
  | call _ ih =>
      obtain ⟨d, rfl, rfl⟩ := ih
      cases d with | calls callee tail =>
      obtain ⟨longer, htokens, hvalue⟩ := exists_callsTail .noArguments tail
      refine ⟨.calls callee longer, ?_, hvalue _⟩
      rw [Tree.tokens, htokens, Tree.tokens, Tree.tokens, List.append_assoc, List.nil_append]
  | callWith _ _ ih ihargs =>
      obtain ⟨d, rfl, rfl⟩ := ih
      obtain ⟨args, rfl, rfl⟩ := ihargs
      cases d with | calls callee tail =>
      obtain ⟨longer, htokens, hvalue⟩ := exists_callsTail (.someArguments args) tail
      refine ⟨.calls callee longer, ?_, hvalue _⟩
      rw [Tree.tokens, htokens, Tree.tokens, Tree.tokens, List.append_assoc]
  | number value => exact ⟨.number value, rfl, rfl⟩
  | name text => exact ⟨.name text, rfl, rfl⟩
  | group _ ih =>
      obtain ⟨d, rfl, rfl⟩ := ih
      exact ⟨.group d, rfl, rfl⟩
  | single _ ih =>
      obtain ⟨d, rfl, rfl⟩ := ih
      exact ⟨.list d .listEnd, List.append_nil _, rfl⟩
  | cons _ _ ih ihrest =>
      obtain ⟨d, rfl, rfl⟩ := ih
      obtain ⟨rest, rfl, rfl⟩ := ihrest
      cases rest with | list next tail =>
      exact ⟨.list d (.listMore next tail), rfl, rfl⟩

end Phrases

section Unambiguous

variable {r r' : List Token}

/-- Which token cannot go on with a part, or must stand behind it. -/
def Part.StopsAt : Part → Option Token → Prop
  | .primary, _ => True
  | .operand, t | .calls, t | .callsTail, t => t ≠ some .opening
  | .product, t | .productTail, t => t ≠ some .opening ∧ productOp? t = none
  | .sum, t | .sumTail, t => t ≠ some .opening ∧ productOp? t = none ∧ sumOp? t = none
  | .arguments, t | .list, t | .listTail, t => t = some .closing

theorem lineEnds_append_inj {m n : Nat} {x y : List Token} (hx : x.head? ≠ some .newline)
    (hy : y.head? ≠ some .newline) (h : Tree.lineEnds m ++ x = Tree.lineEnds n ++ y) :
    m = n ∧ x = y := by
  induction m generalizing n with
  | zero =>
      cases n with
      | zero => exact ⟨rfl, h⟩
      | succ n => exact absurd (congrArg List.head? h) hx
  | succ m ih =>
      cases n with
      | zero => exact absurd (congrArg List.head? h).symm hy
      | succ n =>
          obtain ⟨rfl, hrest⟩ := ih (List.cons.inj h).2
          exact ⟨rfl, hrest⟩

theorem Derives.head?_append {phrase : Phrase} {ts : List Token} (h : Derives phrase ts)
    (r : List Token) : ∃ t, (ts ++ r).head? = some t ∧ Begins t ∧
      (phrase.unsigned → sign? (some t) = none) := by
  obtain ⟨t, us, rfl, hbegins⟩ := h.exists_cons
  exact ⟨t, rfl, hbegins⟩

theorem Derives.head?_ne_newline {phrase : Phrase} {ts : List Token} (h : Derives phrase ts)
    (r : List Token) : (ts ++ r).head? ≠ some .newline := by
  obtain ⟨t, ht, hbegins, -⟩ := h.head?_append r
  rw [ht]
  rintro ⟨⟩
  exact hbegins

namespace Tree

theorem stopsAt_sumTail (tail : Tree .sumTail) (h : Part.sum.StopsAt r.head?) :
    Part.product.StopsAt (tail.tokens ++ r).head? := by
  cases tail with
  | sumEnd => exact ⟨h.1, h.2.1⟩
  | sumMore op hop breaks next tail => exact ⟨token_ne_opening op, productOp?_token_of_sum hop⟩

theorem stopsAt_productTail (tail : Tree .productTail) (h : Part.product.StopsAt r.head?) :
    Part.operand.StopsAt (tail.tokens ++ r).head? := by
  cases tail with
  | productEnd => exact h.1
  | productMore op hop breaks next tail => exact token_ne_opening op

theorem stopsAt_listTail (tail : Tree .listTail) (h : r.head? = some .closing) :
    Part.sum.StopsAt (tail.tokens ++ r).head? := by
  cases tail with
  | listEnd =>
      rw [tokens, List.nil_append, h]
      exact ⟨nofun, rfl, rfl⟩
  | listMore next tail => exact ⟨nofun, rfl, rfl⟩

theorem sumOp_ne (h : Part.sum.StopsAt r.head?) {op : BinaryOp} (hop : op.precedence = 1)
    (us : List Token) : op.token :: us ≠ r := by
  rintro rfl
  exact absurd ((sumOp?_token hop).symm.trans h.2.2) nofun

theorem productOp_ne (h : Part.product.StopsAt r.head?) {op : BinaryOp}
    (hop : op.precedence = 2) (us : List Token) : op.token :: us ≠ r := by
  rintro rfl
  exact absurd ((productOp?_token hop).symm.trans h.2) nofun

theorem signed_ne_unsigned (sign : Sign) (us : List Token) (inner : Tree .calls) :
    sign.token :: us ≠ inner.tokens ++ r := by
  intro h
  have hforms : Derives (.calls inner.value) inner.tokens := inner.forms
  obtain ⟨t, ht, -, hsign⟩ := hforms.head?_append r
  rw [← h] at ht
  cases ht
  exact absurd ((sign?_token sign).symm.trans (hsign trivial)) nofun

theorem list_ne_closing (args : Tree .list) (h : r.head? = some .closing) :
    args.tokens ++ r' ≠ r := by
  rintro rfl
  have hforms : Derives (.list args.value) args.tokens := args.forms
  obtain ⟨t, ht, hbegins, -⟩ := hforms.head?_append r'
  rw [h] at ht
  cases ht
  exact hbegins

/-- In front of tokens that cannot go on with it, a part has only one derivation. -/
theorem unique_append {p : Part} (d d' : Tree p) (hr : p.StopsAt r.head?)
    (hr' : p.StopsAt r'.head?) (h : d.tokens ++ r = d'.tokens ++ r') : d = d' ∧ r = r' := by
  induction d generalizing r r' with
  | sum first tail ihfirst ihtail =>
      cases d' with | sum first' tail' =>
      rw [tokens, tokens, List.append_assoc, List.append_assoc] at h
      obtain ⟨rfl, hrest⟩ := ihfirst first' (stopsAt_sumTail tail hr) (stopsAt_sumTail tail' hr') h
      obtain ⟨rfl, rfl⟩ := ihtail tail' hr hr' hrest
      exact ⟨rfl, rfl⟩
  | sumEnd =>
      cases d' with
      | sumEnd => exact ⟨rfl, h⟩
      | sumMore op hop breaks next tail => exact absurd h.symm (sumOp_ne hr hop _)
  | sumMore op hop breaks next tail ihnext ihtail =>
      cases d' with
      | sumEnd => exact absurd h (sumOp_ne hr' hop _)
      | sumMore op' hop' breaks' next' tail' =>
          simp only [tokens, List.cons_append, List.append_assoc, List.cons.injEq] at h
          obtain rfl := BinaryOp.token_injective h.1
          obtain ⟨rfl, hnext⟩ := lineEnds_append_inj (Derives.head?_ne_newline next.forms _)
            (Derives.head?_ne_newline next'.forms _) h.2
          obtain ⟨rfl, htail⟩ :=
            ihnext next' (stopsAt_sumTail tail hr) (stopsAt_sumTail tail' hr') hnext
          obtain ⟨rfl, rfl⟩ := ihtail tail' hr hr' htail
          exact ⟨rfl, rfl⟩
  | product first tail ihfirst ihtail =>
      cases d' with | product first' tail' =>
      rw [tokens, tokens, List.append_assoc, List.append_assoc] at h
      obtain ⟨rfl, hrest⟩ :=
        ihfirst first' (stopsAt_productTail tail hr) (stopsAt_productTail tail' hr') h
      obtain ⟨rfl, rfl⟩ := ihtail tail' hr hr' hrest
      exact ⟨rfl, rfl⟩
  | productEnd =>
      cases d' with
      | productEnd => exact ⟨rfl, h⟩
      | productMore op hop breaks next tail => exact absurd h.symm (productOp_ne hr hop _)
  | productMore op hop breaks next tail ihnext ihtail =>
      cases d' with
      | productEnd => exact absurd h (productOp_ne hr' hop _)
      | productMore op' hop' breaks' next' tail' =>
          simp only [tokens, List.cons_append, List.append_assoc, List.cons.injEq] at h
          obtain rfl := BinaryOp.token_injective h.1
          obtain ⟨rfl, hnext⟩ := lineEnds_append_inj (Derives.head?_ne_newline next.forms _)
            (Derives.head?_ne_newline next'.forms _) h.2
          obtain ⟨rfl, htail⟩ :=
            ihnext next' (stopsAt_productTail tail hr) (stopsAt_productTail tail' hr') hnext
          obtain ⟨rfl, rfl⟩ := ihtail tail' hr hr' htail
          exact ⟨rfl, rfl⟩
  | signed sign breaks inner ih =>
      cases d' with
      | signed sign' breaks' inner' =>
          simp only [tokens, List.cons_append, List.append_assoc, List.cons.injEq] at h
          obtain rfl := Sign.token_injective h.1
          obtain ⟨rfl, hinner⟩ := lineEnds_append_inj (Derives.head?_ne_newline inner.forms _)
            (Derives.head?_ne_newline inner'.forms _) h.2
          obtain ⟨rfl, rfl⟩ := ih inner' hr hr' hinner
          exact ⟨rfl, rfl⟩
      | unsigned inner' => exact absurd h (signed_ne_unsigned sign _ inner')
  | unsigned inner ih =>
      cases d' with
      | signed sign' breaks' inner' => exact absurd h.symm (signed_ne_unsigned sign' _ inner)
      | unsigned inner' =>
          obtain ⟨rfl, rfl⟩ := ih inner' hr hr' h
          exact ⟨rfl, rfl⟩
  | calls callee tail ihcallee ihtail =>
      cases d' with | calls callee' tail' =>
      rw [tokens, tokens, List.append_assoc, List.append_assoc] at h
      obtain ⟨rfl, hrest⟩ := ihcallee callee' trivial trivial h
      obtain ⟨rfl, rfl⟩ := ihtail tail' hr hr' hrest
      exact ⟨rfl, rfl⟩
  | callsEnd =>
      cases d' with
      | callsEnd => exact ⟨rfl, h⟩
      | callsMore args tail => exact absurd (congrArg List.head? h) hr
  | callsMore args tail ihargs ihtail =>
      cases d' with
      | callsEnd => exact absurd (congrArg List.head? h).symm hr'
      | callsMore args' tail' =>
          simp only [tokens, List.cons_append, List.append_assoc, List.cons.injEq, true_and] at h
          obtain ⟨rfl, hclosing⟩ := ihargs args' (by exact rfl) (by exact rfl) h
          obtain ⟨rfl, rfl⟩ := ihtail tail' hr hr' (List.cons.inj hclosing).2
          exact ⟨rfl, rfl⟩
  | noArguments =>
      cases d' with
      | noArguments => exact ⟨rfl, h⟩
      | someArguments args => exact absurd h.symm (list_ne_closing args hr)
  | someArguments args ih =>
      cases d' with
      | noArguments => exact absurd h (list_ne_closing args hr')
      | someArguments args' =>
          obtain ⟨rfl, rfl⟩ := ih args' hr hr' h
          exact ⟨rfl, rfl⟩
  | list first tail ihfirst ihtail =>
      cases d' with | list first' tail' =>
      rw [tokens, tokens, List.append_assoc, List.append_assoc] at h
      obtain ⟨rfl, hrest⟩ :=
        ihfirst first' (stopsAt_listTail tail hr) (stopsAt_listTail tail' hr') h
      obtain ⟨rfl, rfl⟩ := ihtail tail' hr hr' hrest
      exact ⟨rfl, rfl⟩
  | listEnd =>
      cases d' with
      | listEnd => exact ⟨rfl, h⟩
      | listMore next tail =>
          exact absurd ((congrArg List.head? h).symm.trans hr) nofun
  | listMore next tail ihnext ihtail =>
      cases d' with
      | listEnd => exact absurd ((congrArg List.head? h).trans hr') nofun
      | listMore next' tail' =>
          simp only [tokens, List.cons_append, List.append_assoc, List.cons.injEq, true_and] at h
          obtain ⟨rfl, hrest⟩ :=
            ihnext next' (stopsAt_listTail tail hr) (stopsAt_listTail tail' hr') h
          obtain ⟨rfl, rfl⟩ := ihtail tail' hr hr' hrest
          exact ⟨rfl, rfl⟩
  | number value =>
      cases d' with
      | number value' =>
          obtain ⟨hvalue, rfl⟩ := List.cons.inj h
          exact ⟨congrArg Tree.number (Token.number.inj hvalue), rfl⟩
      | name | group => exact absurd (List.cons.inj h).1 nofun
  | name text =>
      cases d' with
      | name text' =>
          obtain ⟨htext, rfl⟩ := List.cons.inj h
          exact ⟨congrArg Tree.name (Token.name.inj htext), rfl⟩
      | number | group => exact absurd (List.cons.inj h).1 nofun
  | group items ih =>
      cases d' with
      | number | name => exact absurd (List.cons.inj h).1 nofun
      | group items' =>
          simp only [tokens, List.cons_append, List.append_assoc, List.cons.injEq, true_and] at h
          obtain ⟨rfl, hclosing⟩ := ih items' (by exact rfl) (by exact rfl) h
          exact ⟨rfl, (List.cons.inj hclosing).2⟩

end Tree

end Unambiguous

section Scripts

/-- The derivation of a statement, without its break. -/
inductive StatementTree
  | bare (value : Tree .sum)
  | rule (target : Tree .sum) (breaks : Nat) (value : Tree .sum)

namespace StatementTree

def tokens : StatementTree → List Token
  | bare value => value.tokens
  | rule target breaks value =>
      target.tokens ++ .assign :: (Tree.lineEnds breaks ++ value.tokens)

def statement : StatementTree → Statement
  | bare e => ⟨none, e.value⟩
  | rule target _ e => ⟨some target.value, e.value⟩

theorem said (d : StatementTree) : Says d.statement d.tokens := by
  cases d with
  | bare value => exact .bare value.forms
  | rule target breaks value =>
      exact .rule target.forms (Tree.lineEnds_newline breaks) value.forms

theorem head?_append (d : StatementTree) (r : List Token) :
    ∃ t, (d.tokens ++ r).head? = some t ∧ Begins t := by
  obtain ⟨t, us, htokens, hbegins⟩ := d.said.exists_cons
  exact ⟨t, by rw [htokens]; rfl, hbegins⟩

end StatementTree

theorem Says.exists_tree {s : Statement} {ts : List Token} (h : Says s ts) :
    ∃ d : StatementTree, d.tokens = ts ∧ d.statement = s := by
  cases h with
  | bare h =>
      obtain ⟨d, rfl, rfl⟩ := h.hasTree
      exact ⟨.bare d, rfl, rfl⟩
  | @rule _ _ _ breaks _ htarget hbreaks hvalue =>
      obtain ⟨target, rfl, rfl⟩ := htarget.hasTree
      obtain ⟨value, rfl, rfl⟩ := hvalue.hasTree
      refine ⟨.rule target breaks.length value, ?_, rfl⟩
      rw [StatementTree.tokens, eq_lineEnds hbreaks]

/-- What ends a statement, and what a blank statement consists of. -/
inductive Break
  | semicolon
  | lineEnd

def Break.token : Break → Token
  | .semicolon => .semicolon
  | .lineEnd => .newline

theorem Break.isBreak (b : Break) : IsBreak b.token := by
  cases b with
  | semicolon => exact .inr rfl
  | lineEnd => exact .inl rfl

theorem IsBreak.exists_break {t : Token} (h : IsBreak t) : ∃ b : Break, b.token = t := by
  rcases h with rfl | rfl
  · exact ⟨.lineEnd, rfl⟩
  · exact ⟨.semicolon, rfl⟩

/-- The derivation of a script. Only its last statement may end with the script. -/
inductive ScriptTree
  | done
  | last (statement : StatementTree)
  | blank (b : Break) (rest : ScriptTree)
  | statement (first : StatementTree) (b : Break) (rest : ScriptTree)

namespace ScriptTree

def tokens : ScriptTree → List Token
  | done => []
  | last s => s.tokens
  | blank b rest => b.token :: rest.tokens
  | statement first b rest => first.tokens ++ b.token :: rest.tokens

def statements : ScriptTree → List Statement
  | done => []
  | last s => [s.statement]
  | blank _ rest => rest.statements
  | statement first _ rest => first.statement :: rest.statements

theorem lists (d : ScriptTree) : Lists d.statements d.tokens := by
  induction d with
  | done => exact .nil
  | last s =>
      have hnone : ∀ t ∈ ([] : List Token).head?, IsBreak t := nofun
      have := Lists.cons s.said hnone .nil
      rwa [List.append_nil] at this
  | blank b rest ih => exact .skip b.isBreak ih
  | statement first b rest ih =>
      refine .cons first.said ?_ (.skip b.isBreak ih)
      rintro _ ⟨⟩
      exact b.isBreak

end ScriptTree

theorem Lists.exists_tree {ss : List Statement} {ts : List Token} (h : Lists ss ts) :
    ∃ d : ScriptTree, d.tokens = ts ∧ d.statements = ss := by
  induction h with
  | nil => exact ⟨.done, rfl, rfl⟩
  | skip hbreak _ ih =>
      obtain ⟨b, rfl⟩ := hbreak.exists_break
      obtain ⟨d, rfl, rfl⟩ := ih
      exact ⟨.blank b d, rfl, rfl⟩
  | cons hsays hbreak _ ih =>
      obtain ⟨first, rfl, rfl⟩ := hsays.exists_tree
      obtain ⟨rest, rfl, rfl⟩ := ih
      cases rest with
      | done => exact ⟨.last first, (List.append_nil _).symm, rfl⟩
      | blank b rest => exact ⟨.statement first b rest, rfl, rfl⟩
      | last s =>
          obtain ⟨t, ht, hbegins⟩ := s.head?_append []
          rw [List.append_nil] at ht
          exact absurd hbegins (hbreak t ht).not_begins
      | statement s b rest =>
          obtain ⟨t, ht, hbegins⟩ := s.head?_append (b.token :: rest.tokens)
          exact absurd hbegins (hbreak t ht).not_begins

section Unique

variable {r r' : List Token}

theorem stopsAt_of_break (h : ∀ t ∈ r.head?, IsBreak t) : Part.sum.StopsAt r.head? := by
  cases hr : r.head? with
  | none => exact ⟨nofun, rfl, rfl⟩
  | some t => rcases h t hr with rfl | rfl <;> exact ⟨nofun, rfl, rfl⟩

theorem assign_ne_of_break (h : ∀ t ∈ r.head?, IsBreak t) (us : List Token) :
    .assign :: us ≠ r := by
  rintro rfl
  rcases h _ rfl with h | h <;> cases h

theorem StatementTree.unique_append (d d' : StatementTree) (hr : ∀ t ∈ r.head?, IsBreak t)
    (hr' : ∀ t ∈ r'.head?, IsBreak t) (h : d.tokens ++ r = d'.tokens ++ r') :
    d = d' ∧ r = r' := by
  have hassign (us : List Token) : Part.sum.StopsAt (Token.assign :: us).head? :=
    ⟨nofun, rfl, rfl⟩
  cases d with
  | bare value =>
      cases d' with
      | bare value' =>
          obtain ⟨rfl, rfl⟩ :=
            value.unique_append value' (stopsAt_of_break hr) (stopsAt_of_break hr') h
          exact ⟨rfl, rfl⟩
      | rule target breaks value' =>
          rw [tokens, tokens, List.append_assoc] at h
          obtain ⟨-, hrest⟩ :=
            value.unique_append target (stopsAt_of_break hr) (hassign _) h
          exact absurd hrest.symm (assign_ne_of_break hr _)
  | rule target breaks value =>
      cases d' with
      | bare value' =>
          rw [tokens, tokens, List.append_assoc] at h
          obtain ⟨-, hrest⟩ :=
            target.unique_append value' (hassign _) (stopsAt_of_break hr') h
          exact absurd hrest (assign_ne_of_break hr' _)
      | rule target' breaks' value' =>
          simp only [tokens, List.append_assoc, List.cons_append] at h
          obtain ⟨rfl, hrest⟩ := target.unique_append target' (hassign _) (hassign _) h
          obtain ⟨rfl, hvalue⟩ := lineEnds_append_inj (Derives.head?_ne_newline value.forms _)
            (Derives.head?_ne_newline value'.forms _) (List.cons.inj hrest).2
          obtain ⟨rfl, rfl⟩ :=
            value.unique_append value' (stopsAt_of_break hr) (stopsAt_of_break hr') hvalue
          exact ⟨rfl, rfl⟩

theorem Break.token_injective {b b' : Break} (h : b.token = b'.token) : b = b' := by
  cases b <;> cases b' <;> first | rfl | cases h

theorem Break.at_head (b : Break) (us : List Token) : ∀ t ∈ (b.token :: us).head?, IsBreak t := by
  rintro _ ⟨⟩
  exact b.isBreak

theorem StatementTree.append_ne_break (d : StatementTree) (b : Break) (us : List Token) :
    d.tokens ++ r ≠ b.token :: us := by
  intro h
  obtain ⟨t, ht, hbegins⟩ := d.head?_append r
  rw [h] at ht
  exact (b.at_head us t ht).not_begins hbegins

theorem StatementTree.append_ne_nil (d : StatementTree) : d.tokens ++ r ≠ [] := by
  intro h
  obtain ⟨t, ht, -⟩ := d.head?_append r
  rw [h] at ht
  cases ht

/-- The tokens of a script have one derivation. -/
theorem ScriptTree.unique (d d' : ScriptTree) (h : d.tokens = d'.tokens) : d = d' := by
  have hnone : ∀ t ∈ ([] : List Token).head?, IsBreak t := nofun
  have hlast (s : StatementTree) : (last s).tokens = s.tokens ++ [] := (List.append_nil _).symm
  induction d generalizing d' with
  | done =>
      cases d' with
      | done => rfl
      | blank => cases h
      | last s => exact absurd (h.trans (hlast s)).symm s.append_ne_nil
      | statement s b rest => exact absurd h.symm s.append_ne_nil
  | last s =>
      rw [hlast] at h
      cases d' with
      | done => exact absurd h s.append_ne_nil
      | blank b rest => exact absurd h (s.append_ne_break b _)
      | last s' =>
          obtain ⟨rfl, -⟩ := s.unique_append s' hnone hnone (h.trans (hlast s'))
          rfl
      | statement s' b rest =>
          obtain ⟨-, hrest⟩ := s.unique_append s' hnone (b.at_head _) h
          cases hrest
  | blank b rest ih =>
      cases d' with
      | done => cases h
      | blank b' rest' =>
          obtain ⟨hbreak, hrest⟩ := List.cons.inj h
          obtain rfl := Break.token_injective hbreak
          obtain rfl := ih rest' hrest
          rfl
      | last s => exact absurd (h.trans (hlast s)).symm (s.append_ne_break b _)
      | statement s b' rest' => exact absurd h.symm (s.append_ne_break b _)
  | statement s b rest ih =>
      cases d' with
      | done => exact absurd h s.append_ne_nil
      | blank b' rest' => exact absurd h (s.append_ne_break b' _)
      | last s' =>
          obtain ⟨-, hrest⟩ := s.unique_append s' (b.at_head _) hnone (h.trans (hlast s'))
          cases hrest
      | statement s' b' rest' =>
          obtain ⟨rfl, hrest⟩ := s.unique_append s' (b.at_head _) (b'.at_head _) h
          obtain ⟨hbreak, htokens⟩ := List.cons.inj hrest
          obtain rfl := Break.token_injective hbreak
          obtain rfl := ih rest' htokens
          rfl

end Unique

end Scripts

end Grammar

open Grammar

/-- A script is read exactly if its tokens have a derivation. There is only one,
and the statements are those of it. -/
theorem parseScript_iff_derivation {script : String} {ps : List Placed}
    (h : tokenize script = .ok ps) :
    ((∃ ss, parseScript script = .ok ss) ↔ ∃ d : ScriptTree, d.tokens = ps.map (·.token)) ∧
      ∀ d : ScriptTree, d.tokens = ps.map (·.token) →
        parseScript script = .ok d.statements ∧
          ∀ d' : ScriptTree, d'.tokens = ps.map (·.token) → d' = d := by
  have hread (ss : List Statement) :
      parseScript script = .ok ss ↔ Lists ss (ps.map (·.token)) := by
    rw [parseScript_eq_ok_iff, h]
    simp
  refine ⟨⟨?_, ?_⟩, ?_⟩
  · rintro ⟨ss, hss⟩
    obtain ⟨d, hd, -⟩ := ((hread ss).mp hss).exists_tree
    exact ⟨d, hd⟩
  · rintro ⟨d, hd⟩
    exact ⟨d.statements, (hread _).mpr (hd ▸ d.lists)⟩
  · intro d hd
    exact ⟨(hread _).mpr (hd ▸ d.lists), fun d' hd' => d'.unique d (hd'.trans hd.symm)⟩

/-- Two differences, a product behind a line end, and a sign. -/
theorem parseScript_leftToRight : ∃ ps,
    tokenize "1 - 2 - -3 *\n4;" = .ok ps ∧
    parseScript "1 - 2 - -3 *\n4;" = .ok [⟨none, .binary .sub
      (.binary .sub (.literal (.ofNat 1)) (.literal (.ofNat 2)))
      (.binary .mul (.signed .minus (.literal (.ofNat 3))) (.literal (.ofNat 4)))⟩] := by
  have hscan : (tokenize "1 - 2 - -3 *\n4;").toOption.map (·.map (·.token)) =
      some [.number (.ofNat 1), .minus, .number (.ofNat 2), .minus, .minus, .number (.ofNat 3),
        .star, .newline, .number (.ofNat 4), .semicolon] := by
    decide +kernel
  cases htokens : tokenize "1 - 2 - -3 *\n4;" with
  | error e => simp [htokens, Except.toOption] at hscan
  | ok ps =>
      rw [htokens] at hscan
      have hps := Option.some.inj hscan
      let operand (d : Decimal) : Tree .operand := .unsigned (.calls (.number d) .callsEnd)
      let factor (d : Decimal) : Tree .product := .product (operand d) .productEnd
      let derivation : ScriptTree := .statement
        (.bare (.sum (factor (.ofNat 1)) (.sumMore .sub rfl 0 (factor (.ofNat 2))
          (.sumMore .sub rfl 0 (.product (.signed .minus 0 (operand (.ofNat 3)))
            (.productMore .mul rfl 1 (operand (.ofNat 4)) .productEnd)) .sumEnd))))
        .semicolon .done
      exact ⟨ps, rfl, ((parseScript_iff_derivation htokens).2 derivation hps.symm).1⟩

end Paydesk.Rates

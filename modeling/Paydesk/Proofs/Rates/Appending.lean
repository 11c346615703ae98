import Paydesk.Proofs.Rates.Lexemes
import Paydesk.Proofs.Rates.Matches

/-!
A script with another one behind it: it is read as the statements of the one and then those of
the other. A pair keeps the rule that the first script has for it, unless the second one has a
rule that is a better match.
-/

namespace Paydesk.Rates

open Token

namespace Grammar

section Depth

variable {phrase : Phrase} {s : Statement} {ss : List Statement} {ts : List Token}

theorem depthAfter_operator (op : BinaryOp) (depth : Nat) : op.token.depthAfter depth = depth := by
  cases op <;> rfl

theorem depthAfter_sign (sign : Sign) (depth : Nat) : sign.token.depthAfter depth = depth := by
  cases sign <;> rfl

/-- The parentheses of a phrase are closed in it. -/
theorem Derives.depthBehind_eq (h : Derives phrase ts) (depth : Nat) :
    depthBehind depth ts = depth := by
  induction h generalizing depth with
  | number | name => rfl
  | ofProduct _ ih | ofOperand _ ih | ofCalls _ ih | ofPrimary _ ih | single _ ih => exact ih depth
  | sum _ _ hbreaks _ ihleft ihright | product _ _ hbreaks _ ihleft ihright =>
      rw [depthBehind_append, ihleft, depthBehind_cons, depthAfter_operator, depthBehind_append,
        depthBehind_newlines hbreaks, ihright]
  | signed hbreaks _ ih =>
      rw [depthBehind_cons, depthAfter_sign, depthBehind_append, depthBehind_newlines hbreaks, ih]
  | call _ ih =>
      rw [depthBehind_append, ih]
      rfl
  | callWith _ _ ih ihargs =>
      rw [depthBehind_append, ih, depthBehind_cons, depthBehind_append, ihargs]
      rfl
  | group _ ih =>
      rw [depthBehind_cons, depthBehind_append, ih]
      rfl
  | cons _ _ ih ihrest =>
      rw [depthBehind_append, ih, depthBehind_cons, ihrest]
      rfl

theorem Says.depthBehind_eq (h : Says s ts) (depth : Nat) : depthBehind depth ts = depth := by
  cases h with
  | bare h => exact h.depthBehind_eq depth
  | rule htarget hbreaks hvalue =>
      rw [depthBehind_append, htarget.depthBehind_eq, depthBehind_cons, depthBehind_append,
        depthBehind_newlines hbreaks, hvalue.depthBehind_eq]
      rfl

theorem Lists.depthBehind_eq (h : Lists ss ts) (depth : Nat) : depthBehind depth ts = depth := by
  induction h with
  | nil => rfl
  | skip hbreak _ ih =>
      rcases hbreak with rfl | rfl <;> exact ih
  | cons hsaid _ _ ih => rw [depthBehind_append, hsaid.depthBehind_eq, ih]

end Depth

/-- A line end parts the statements in front of it from those behind it. -/
theorem Lists.append {ss ss' : List Statement} {ts us : List Token} (h : Lists ss ts)
    (h' : Lists ss' us) : Lists (ss ++ ss') (ts ++ .newline :: us) := by
  induction h with
  | nil => exact .skip (.inl rfl) h'
  | skip hbreak _ ih => exact .skip hbreak ih
  | @cons s ss ts rest hsaid hbreak _ ih =>
      rw [List.append_assoc]
      refine .cons hsaid ?_ ih
      cases rest with
      | nil =>
          rintro _ ⟨⟩
          exact .inl rfl
      | cons t rest => exact hbreak

end Grammar

section Texts

variable {a b : String} {ts us : List Token}

theorem toList_append_line (a b : String) :
    (a ++ "\n" ++ b).toList = a.toList ++ '\n' :: b.toList := by
  simp

/-- The tokens of two texts on lines of their own. -/
theorem scans_append_line (ha : Scans 0 a.toList ts) (hb : Scans 0 b.toList us)
    (hdepth : depthBehind 0 ts = 0) :
    Scans 0 (a ++ "\n" ++ b).toList (ts ++ .newline :: us) := by
  obtain ⟨line, ps, hps, rfl⟩ := ha
  obtain ⟨pre, rest, ha', hrest, hlexes⟩ := exists_lexes_of_scan hps
  have hparted : Parts pre rest.head? (rest ++ ['\n'] ++ b.toList).head? := by
    intro c hc
    cases rest with
    | nil =>
        obtain rfl : '\n' = c := Option.some.inj hc
        exact .inr (.inl (by decide))
    | cons d rest => exact .inl hc
  have hrow : Lexes b.toList 0 (pre ++ (rest ++ ['\n'])) (ps.map (·.token) ++ [.newline]) := by
    refine (hlexes.of_parts hparted).append ?_
    rw [hdepth]
    exact hrest.lexeme.lexes
  have htext : (a ++ "\n" ++ b).toList = pre ++ (rest ++ ['\n']) ++ b.toList := by
    rw [toList_append_line, ha']
    simp
  rw [htext, hrow.scans_append_iff]
  refine ⟨us, ?_, by simp⟩
  rwa [depthBehind_append, hdepth]

theorem parseScript_append {ss ss' : List Statement} (ha : parseScript a = .ok ss)
    (hb : parseScript b = .ok ss') : parseScript (a ++ "\n" ++ b) = .ok (ss ++ ss') := by
  obtain ⟨ts, hts, hlists⟩ := parseScript_eq_ok_iff_scans.mp ha
  obtain ⟨us, hus, hlists'⟩ := parseScript_eq_ok_iff_scans.mp hb
  exact parseScript_eq_ok_iff_scans.mpr
    ⟨_, scans_append_line hts hus (hlists.depthBehind_eq 0), hlists.append hlists'⟩

end Texts

namespace RuleBook

section Rules

/-- The rules of some statements with another statement behind them. -/
def withStatement (rules : List (Pair × Expr)) (s : Statement) : List (Pair × Expr) :=
  match s.pair? with
  | some pair => if rules.any (·.1 == pair) then rules else rules ++ [(pair, s.value)]
  | none => rules

theorem rulesOf_concat (ss : List Statement) (s : Statement) :
    rulesOf (ss ++ [s]) = withStatement (rulesOf ss) s := List.foldl_append

/-- Whether some rules have none for the pair of another rule. -/
def isNew (rules : List (Pair × Expr)) (rule : Pair × Expr) : Bool := !rules.any (·.1 == rule.1)

theorem any_filter_isNew {rules : List (Pair × Expr)} {pair : Pair}
    (hpair : rules.any (·.1 == pair) = false) (rules' : List (Pair × Expr)) :
    (rules'.filter (isNew rules)).any (·.1 == pair) = rules'.any (·.1 == pair) := by
  rw [List.any_filter]
  congr 1
  funext rule
  cases heq : rule.1 == pair with
  | false => simp
  | true => simp [isNew, eq_of_beq heq, hpair]

/-- Behind other statements those count that are for a pair without a rule. -/
theorem rulesOf_append (ss ss' : List Statement) :
    rulesOf (ss ++ ss') = rulesOf ss ++ (rulesOf ss').filter (isNew (rulesOf ss)) := by
  induction ss' using List.reverseRecOn with
  | nil => simp [rulesOf]
  | append_singleton ss' s ih =>
      rw [← List.append_assoc, rulesOf_concat, rulesOf_concat, ih]
      unfold withStatement
      cases s.pair? with
      | none => rfl
      | some pair =>
          dsimp only
          rw [List.any_append]
          cases hpair : (rulesOf ss).any (·.1 == pair) with
          | true =>
              have hold : isNew (rulesOf ss) (pair, s.value) = false := by simp [isNew, hpair]
              rw [Bool.true_or, if_pos rfl]
              split_ifs <;> simp [List.filter_append, hold]
          | false =>
              have hnew : isNew (rulesOf ss) (pair, s.value) = true := by simp [isNew, hpair]
              rw [any_filter_isNew hpair, Bool.false_or]
              split_ifs <;> simp [List.filter_append, hnew]

/-- Where the first item of a kind stands among those that are kept, if all of its kind are. -/
theorem findIdx?_filter {α : Type} {p keep : α → Bool} (hkeep : ∀ x, p x → keep x) (l : List α) :
    (l.filter keep).findIdx? p = (l.findIdx? p).map fun i => (l.take i).countP keep := by
  induction l with
  | nil => rfl
  | cons x l ih =>
      rw [List.findIdx?_cons]
      cases hp : p x with
      | true => simp [hkeep x hp, hp, List.findIdx?_cons]
      | false =>
          cases hx : keep x <;>
            simp [hx, hp, List.findIdx?_cons, ih, Option.map_map, Function.comp_def]

end Rules

section Combined

/-- A book with the statements of two others. -/
structure Combines (first second book : RuleBook) : Prop where
  rules : book.rules = first.rules ++ second.rules.filter (isNew first.rules)

variable {first second book : RuleBook} {pair : Pair}

/-- The rule that a book has for a pair itself. -/
def rule? (book : RuleBook) (pair : Pair) : Option (Pair × Expr) := book.rules.find? (·.1 == pair)

theorem getElem?_position? {i : Nat} (h : book.position? pair = some i) :
    book.rules[i]? = book.rule? pair := by
  obtain ⟨hlt, hp, hfirst⟩ := List.findIdx?_eq_some_iff_getElem.mp h
  rw [List.getElem?_eq_getElem hlt, rule?, eq_comm, List.find?_eq_some_iff_getElem]
  exact ⟨hp, i, hlt, rfl, fun j hj => by simpa using hfirst j hj⟩

theorem any_eq_false_of_not_mem_pairs (h : pair ∉ first.pairs) :
    first.rules.any (·.1 == pair) = false := by
  simp only [List.any_eq_false, beq_iff_eq]
  rintro rule hrule rfl
  exact h (List.mem_map_of_mem hrule)

theorem Combines.position?_of_mem (h : Combines first second book) (hpair : pair ∈ first.pairs) :
    book.position? pair = first.position? pair := by
  obtain ⟨i, hi⟩ := mem_pairs_iff.mp hpair
  rw [hi, position?, h.rules, List.findIdx?_append, ← position?, hi, Option.some_or]

theorem Combines.position?_of_not_mem (h : Combines first second book)
    (hpair : pair ∉ first.pairs) : book.position? pair =
      (second.position? pair).map fun i =>
        (second.rules.take i).countP (isNew first.rules) + first.rules.length := by
  have hnone := any_eq_false_of_not_mem_pairs hpair
  have hkeep (rule : Pair × Expr) (hrule : rule.1 == pair) : isNew first.rules rule := by
    rw [isNew, eq_of_beq hrule, hnone, Bool.not_false]
  rw [position?, h.rules, List.findIdx?_append, findIdx?_filter hkeep, Option.map_map,
    List.findIdx?_eq_none_iff.mpr (by simpa using hnone), Option.none_or]
  rfl

/-- What is found through a lookup. -/
theorem mk_mem_found {l : Lookup} {i : Nat} (hl : l ∈ lookups pair)
    (hposition : book.position? l.pair = some i) : ⟨l.priority, i, l.inverted⟩ ∈ book.found pair :=
  mem_found.mpr ⟨l, hl, hposition, rfl, rfl⟩

/-- The best match is the only one that no other is better than. -/
theorem bestMatch?_eq_some_iff {m : Match} : book.bestMatch? pair = some m ↔
    m ∈ book.found pair ∧ ∀ n ∈ book.found pair, ¬n.better m := by
  have hbest := book.isBest_bestMatch? pair
  constructor
  · intro h
    rwa [h] at hbest
  · rintro ⟨hmem, hnone⟩
    cases hb : book.bestMatch? pair with
    | none =>
        rw [hb] at hbest
        exact absurd hbest (List.ne_nil_of_mem hmem)
    | some b =>
        rw [hb] at hbest
        obtain ⟨hbmem, hbnone⟩ := hbest
        have hworse := hbnone m hmem
        have hworse' := hnone b hbmem
        rw [Match.better_iff] at hworse hworse'
        have hpriority : b.priority = m.priority := by omega
        have hposition : b.position = m.position := by omega
        -- A match is seen from the other side as its priority says.
        have hinverted : b.inverted = m.inverted := by
          rcases inverted_of_mem_found hbmem with ⟨hb, hbi⟩ | ⟨hb, hbi⟩ <;>
            rcases inverted_of_mem_found hmem with ⟨hm, hmi⟩ | ⟨hm, hmi⟩ <;>
            first | omega | rw [hbi, hmi]
        obtain ⟨priority, position, inverted⟩ := b
        obtain ⟨rfl, rfl, rfl⟩ : priority = m.priority ∧ position = m.position ∧
          inverted = m.inverted := ⟨hpriority, hposition, hinverted⟩
        rfl

theorem Match.priority_le_of_not_better {m n : Match} (h : ¬n.better m) :
    m.priority ≤ n.priority := by
  rw [better_iff] at h
  omega

/-- A pair with a rule for one of its lookups has a match that is at least as good. -/
theorem exists_bestMatch? {l : Lookup} (hl : l ∈ lookups pair) (hpair : l.pair ∈ book.pairs) :
    ∃ m, book.bestMatch? pair = some m ∧ m.priority ≤ l.priority := by
  obtain ⟨i, hi⟩ := RuleBook.mem_pairs_iff.mp hpair
  have hmatched : book.bestMatch? pair ≠ none := by
    rw [Ne, bestMatch?_eq_none]
    exact fun hunmatched => hunmatched l hl hpair
  obtain ⟨m, hm⟩ := Option.ne_none_iff_exists'.mp hmatched
  exact ⟨m, hm, Match.priority_le_of_not_better
    ((bestMatch?_eq_some_iff.mp hm).2 _ (mk_mem_found hl hi))⟩

theorem candidate_of_bestMatch? {m : Match} (h : book.bestMatch? pair = some m) :
    book.candidate pair =
      if m.inverted then .binary .div (.literal .one) (.name pair.inverse.render)
      else ((book.rules[m.position]?).map (·.2)).getD (.noRule pair) := by
  rw [candidate, h]
  dsimp only
  cases book.rules[m.position]? <;> rfl

/-- That the second of two books has a rule for a pair which is a better match than all that
the first one has. -/
def Outranks (first second : RuleBook) (pair : Pair) : Prop :=
  ∃ l ∈ lookups pair, l.pair ∈ second.pairs ∧
    ∀ m ∈ first.bestMatch? pair, l.priority < m.priority

instance : Decidable (Outranks first second pair) :=
  inferInstanceAs (Decidable (∃ l ∈ lookups pair, _ ∧ _))

theorem Combines.mem_pairs_iff (h : Combines first second book) (p : Pair) :
    p ∈ book.pairs ↔ p ∈ first.pairs ∨ p ∈ second.pairs := by
  by_cases hp : p ∈ first.pairs
  · rw [RuleBook.mem_pairs_iff, h.position?_of_mem hp, ← RuleBook.mem_pairs_iff]
    simp [hp]
  · rw [RuleBook.mem_pairs_iff, h.position?_of_not_mem hp, or_iff_right hp,
      RuleBook.mem_pairs_iff]
    simp

/-- The rules behind those of the first book lose against an equally good match. -/
theorem Combines.length_le_of_not_mem (h : Combines first second book) {p : Pair} {i : Nat}
    (hp : p ∉ first.pairs) (hi : book.position? p = some i) : first.rules.length ≤ i := by
  rw [h.position?_of_not_mem hp, Option.map_eq_some_iff] at hi
  obtain ⟨_, -, rfl⟩ := hi
  exact Nat.le_add_left _ _

theorem Combines.bestMatch?_of_not_outranks (h : Combines first second book)
    (hrank : ¬Outranks first second pair) : book.bestMatch? pair = first.bestMatch? pair := by
  have hlookup (l : Lookup) (hl : l ∈ lookups pair) (hsecond : l.pair ∈ second.pairs) :
      ∃ m ∈ first.bestMatch? pair, m.priority ≤ l.priority := by
    by_contra hnone
    push Not at hnone
    exact hrank ⟨l, hl, hsecond, hnone⟩
  cases hm : first.bestMatch? pair with
  | none =>
      rw [bestMatch?_eq_none] at hm ⊢
      intro l hl hmem
      rcases (h.mem_pairs_iff l.pair).mp hmem with hfirst | hsecond
      · exact hm l hl hfirst
      · obtain ⟨m, hbest, -⟩ := hlookup l hl hsecond
        rw [bestMatch?_eq_none.mpr hm] at hbest
        cases hbest
  | some m =>
      obtain ⟨hmem, hnone⟩ := bestMatch?_eq_some_iff.mp hm
      obtain ⟨l, hl, hposition, hpriority, hinverted⟩ := mem_found.mp hmem
      have hlt : m.position < first.rules.length :=
        (List.findIdx?_eq_some_iff_getElem.mp hposition).1
      refine bestMatch?_eq_some_iff.mpr ⟨mem_found.mpr ⟨l, hl, ?_, hpriority, hinverted⟩, ?_⟩
      · rw [h.position?_of_mem (RuleBook.mem_pairs_iff.mpr ⟨_, hposition⟩), hposition]
      · intro n hn
        obtain ⟨l', hl', hposition', hpriority', hinverted'⟩ := mem_found.mp hn
        by_cases hfirst : l'.pair ∈ first.pairs
        · rw [h.position?_of_mem hfirst] at hposition'
          exact hnone n (mem_found.mpr ⟨l', hl', hposition', hpriority', hinverted'⟩)
        · have hbook : l'.pair ∈ book.pairs := RuleBook.mem_pairs_iff.mpr ⟨_, hposition'⟩
          obtain ⟨m', hm', hle⟩ :=
            hlookup l' hl' (((h.mem_pairs_iff l'.pair).mp hbook).resolve_left hfirst)
          obtain rfl : m = m' := Option.some.inj (hm.symm.trans hm')
          have hbehind := h.length_le_of_not_mem hfirst hposition'
          rw [Match.better_iff]
          omega

theorem Combines.candidate_of_not_outranks (h : Combines first second book)
    (hrank : ¬Outranks first second pair) : book.candidate pair = first.candidate pair := by
  have hbest := h.bestMatch?_of_not_outranks hrank
  cases hm : first.bestMatch? pair with
  | none => rw [candidate, candidate, hbest, hm]
  | some m =>
      obtain ⟨l, -, hposition, -⟩ := mem_found.mp (bestMatch?_eq_some_iff.mp hm).1
      have hlt : m.position < first.rules.length :=
        (List.findIdx?_eq_some_iff_getElem.mp hposition).1
      rw [candidate_of_bestMatch? hm, candidate_of_bestMatch? (hbest.trans hm), h.rules,
        List.getElem?_append_left hlt]

/-- Where the first book has no rule as good, the best match is that of the second book. -/
theorem Combines.bestMatch?_of_outranks (h : Combines first second book)
    (hrank : Outranks first second pair) : ∃ m n, second.bestMatch? pair = some m ∧
      book.bestMatch? pair = some n ∧ n.inverted = m.inverted ∧
      book.rules[n.position]? = second.rules[m.position]? := by
  obtain ⟨better, hbetter, hsecond, hbelow⟩ := hrank
  obtain ⟨m, hm, hle⟩ := exists_bestMatch? hbetter hsecond
  obtain ⟨hmem, hnone⟩ := bestMatch?_eq_some_iff.mp hm
  obtain ⟨l, hl, hposition, hpriority, hinverted⟩ := mem_found.mp hmem
  -- No lookup as good as the best match finds a rule of the first book.
  have hfirst (l' : Lookup) (hl' : l' ∈ lookups pair) (hprio : l'.priority ≤ m.priority) :
      l'.pair ∉ first.pairs := by
    intro hp
    obtain ⟨b, hb, hble⟩ := exists_bestMatch? hl' hp
    have hlow := hbelow b hb
    omega
  have hpair := hfirst l hl hpriority.le
  let shift (i : Nat) := (second.rules.take i).countP (isNew first.rules) + first.rules.length
  have hshift : book.position? l.pair = some (shift m.position) := by
    rw [h.position?_of_not_mem hpair, hposition]
    rfl
  refine ⟨m, ⟨m.priority, shift m.position, m.inverted⟩, hm, bestMatch?_eq_some_iff.mpr
    ⟨mem_found.mpr ⟨l, hl, hshift, hpriority, hinverted⟩, ?_⟩, rfl, ?_⟩
  · intro n hn hnbetter
    obtain ⟨l', hl', hposition', hpriority', hinverted'⟩ := mem_found.mp hn
    rw [Match.better_iff] at hnbetter
    dsimp only at hnbetter
    rw [h.position?_of_not_mem (hfirst l' hl' (by omega)), Option.map_eq_some_iff] at hposition'
    obtain ⟨i, hi, hi'⟩ := hposition'
    have hworse := hnone _ (mk_mem_found hl' hi)
    rw [Match.better_iff] at hworse
    dsimp only at hworse
    -- The rules of the second book that are kept stand in their order.
    have hmono : shift m.position ≤ shift i ∨ i < m.position := by
      rcases Nat.lt_or_ge i m.position with hlt | hge
      · exact .inr hlt
      · exact .inl (Nat.add_le_add_right
          ((List.take_prefix_take_left hge).sublist.countP_le) _)
    have hshifted : n.position = shift i := hi'.symm
    omega
  · dsimp only
    rw [getElem?_position? hshift, getElem?_position? hposition, rule?, rule?, h.rules,
      List.find?_append, List.find?_filter,
      List.find?_eq_none.mpr (by simpa using any_eq_false_of_not_mem_pairs hpair), Option.none_or]
    congr 1
    funext rule
    cases heq : rule.1 == l.pair with
    | false => simp
    | true => simp [isNew, eq_of_beq heq, any_eq_false_of_not_mem_pairs hpair]

theorem Combines.candidate_of_outranks (h : Combines first second book)
    (hrank : Outranks first second pair) : book.candidate pair = second.candidate pair := by
  obtain ⟨m, n, hm, hn, hinverted, hrule⟩ := h.bestMatch?_of_outranks hrank
  rw [candidate_of_bestMatch? hm, candidate_of_bestMatch? hn, hinverted, hrule]

end Combined

section Scripts

variable {a b : String} {ss ss' : List Statement}

theorem exists_read_iff (h : parseScript a = .ok ss) :
    (∃ book, read a = .ok book) ↔ ss.flatMap Statement.violations = [] := by
  simp [read_eq_ok_iff, h]

/-- A book has nothing but the statements of its script. -/
theorem eq_of_read {book : RuleBook} (hparse : parseScript a = .ok ss) (h : read a = .ok book) :
    book = ⟨ss.map Statement.normalize, rulesOf (ss.map Statement.normalize), .zero⟩ := by
  obtain ⟨_, hss, -, rfl⟩ := read_eq_ok_iff.mp h
  obtain rfl := Except.ok.inj (hparse.symm.trans hss)
  rfl

theorem combines_of_read {first second book : RuleBook} (ha : parseScript a = .ok ss)
    (hb : parseScript b = .ok ss') (hfirst : read a = .ok first) (hsecond : read b = .ok second)
    (hbook : read (a ++ "\n" ++ b) = .ok book) :
    book.statements = first.statements ++ second.statements ∧ Combines first second book := by
  rw [eq_of_read ha hfirst, eq_of_read hb hsecond, eq_of_read (parseScript_append ha hb) hbook]
  refine ⟨List.map_append, ⟨?_⟩⟩
  dsimp only
  rw [List.map_append]
  exact rulesOf_append _ _

/-- A script with another one behind it is read as both. -/
theorem read_append (ha : parseScript a = .ok ss) (hb : parseScript b = .ok ss') :
    parseScript (a ++ "\n" ++ b) = .ok (ss ++ ss') ∧
      ((∃ book, read (a ++ "\n" ++ b) = .ok book) ↔
        (∃ first, read a = .ok first) ∧ ∃ second, read b = .ok second) ∧
      ∀ first second book, read a = .ok first → read b = .ok second →
        read (a ++ "\n" ++ b) = .ok book →
          book.statements = first.statements ++ second.statements ∧
            ∀ pair,
              (¬Outranks first second pair → book.bestMatch? pair = first.bestMatch? pair ∧
                book.candidate pair = first.candidate pair) ∧
              (Outranks first second pair → book.candidate pair = second.candidate pair) := by
  have hparse := parseScript_append ha hb
  refine ⟨hparse, ?_, ?_⟩
  · rw [exists_read_iff hparse, exists_read_iff ha, exists_read_iff hb, List.flatMap_append,
      List.append_eq_nil_iff]
  · intro first second book hfirst hsecond hbook
    obtain ⟨hstatements, hcombines⟩ := combines_of_read ha hb hfirst hsecond hbook
    refine ⟨hstatements, fun pair => ⟨fun hrank => ?_, hcombines.candidate_of_outranks⟩⟩
    exact ⟨hcombines.bestMatch?_of_not_outranks hrank, hcombines.candidate_of_not_outranks hrank⟩

/-- A rule for any currency stays before another one, but not before a rule for the pair. -/
theorem candidate_behind_wildcard :
    ∃ book, read "X_USD = 1\nBTC_USD = 2\nX_USD = 3" = .ok book ∧
      book.candidate (.of "ETH" "USD") = .literal (.ofNat 1) ∧
      book.candidate (.of "BTC" "USD") = .literal (.ofNat 2) := by
  let one : Statement := ⟨some (.name "X_USD"), .literal (.ofNat 1)⟩
  let two : Statement := ⟨some (.name "BTC_USD"), .literal (.ofNat 2)⟩
  let three : Statement := ⟨some (.name "X_USD"), .literal (.ofNat 3)⟩
  have hfirst : read "X_USD = 1" = .ok ⟨[one], [(.of "X" "USD", one.value)], .zero⟩ := by
    with_unfolding_all rfl
  have hsecond : read "BTC_USD = 2\nX_USD = 3" = .ok ⟨[two, three],
      [(.of "BTC" "USD", two.value), (.of "X" "USD", three.value)], .zero⟩ := by
    with_unfolding_all rfl
  have hone : parseScript "X_USD = 1" = .ok [one] := by with_unfolding_all rfl
  have hmore : parseScript "BTC_USD = 2\nX_USD = 3" = .ok [two, three] := by with_unfolding_all rfl
  obtain ⟨-, hread, hrules⟩ := read_append hone hmore
  obtain ⟨book, hbook⟩ := hread.mpr ⟨⟨_, hfirst⟩, _, hsecond⟩
  obtain ⟨-, hcandidate⟩ := hrules _ _ _ hfirst hsecond hbook
  refine ⟨book, hbook, ?_, ?_⟩
  · exact ((hcandidate _).1 (by decide +kernel)).2.trans (by with_unfolding_all rfl)
  · exact ((hcandidate _).2 (by decide +kernel)).trans (by with_unfolding_all rfl)

end Scripts

end RuleBook

end Paydesk.Rates

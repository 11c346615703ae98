import Mathlib.Data.List.Chain
import Paydesk.Proofs.Rates.Names
import Paydesk.Proofs.Rates.Written

/-!
What is read of the normal form of a rule book: the same book, unless a name in it begins
with a digit.
-/

namespace Paydesk.Rates

open Token

namespace Expr

mutual

/-- Normal forms are accepted again and have no other normal form. -/
theorem normalize_normalize {inCall : Bool} : (e : Expr) → e.Plain (isIdentifier ·) →
    e.violations inCall = [] → e.normalize.violations inCall = [] ∧ e.normalize.normalize = e.normalize
  | .literal _, _, _ => ⟨rfl, rfl⟩
  | .quoted _, h, _ => h.elim
  | .name text, h, hv => by
      obtain ⟨pair, hpair⟩ : ∃ pair, Pair.parse? text = some pair :=
        Option.ne_none_iff_exists'.mp (by simpa [violations] using hv)
      have hread := (Pair.exists_render_of_parse? (isNameChar_of_isIdentifier h) hpair).1
      have hnormal : (name text).normalize = .name pair.render := by
        rw [normalize, hpair]
      rw [hnormal]
      constructor
      · simp [violations, hread]
      · rw [normalize, hread]
  | .tuple items, h, hv => by
      obtain ⟨hviolations, hnormal⟩ := normalizeList_normalizeList items h.2 hv
      exact ⟨hviolations, congrArg tuple hnormal⟩
  | .call callee args, h, hv => by
      simp only [violations, List.append_eq_nil_iff] at hv
      obtain ⟨⟨hnested, hcallee⟩, hargs⟩ := hv
      obtain ⟨hviolations, hnormal⟩ := normalizeList_normalizeList args h.2 hargs
      cases callee with
      | name exchange =>
          refine ⟨?_, ?_⟩
          · simp [normalize, violations, hnested, hviolations]
          · simp only [normalize, Text.lower_lower, hnormal]
      | _ => cases hcallee
  | .signed sign operand, h, hv => by
      obtain ⟨hviolations, hnormal⟩ := normalize_normalize operand h hv
      exact ⟨hviolations, congrArg (signed sign) hnormal⟩
  | .binary op left right, h, hv => by
      obtain ⟨hleft, hright⟩ := List.append_eq_nil_iff.mp hv
      obtain ⟨hviolations, hnormal⟩ := normalize_normalize left h.1 hleft
      obtain ⟨hviolations', hnormal'⟩ := normalize_normalize right h.2 hright
      exact ⟨List.append_eq_nil_iff.mpr ⟨hviolations, hviolations'⟩,
        congrArg₂ (binary op) hnormal hnormal'⟩

theorem normalizeList_normalizeList {inCall : Bool} : (es : List Expr) →
    PlainList (isIdentifier ·) es → violationsList inCall es = [] →
    violationsList inCall (normalizeList es) = [] ∧
      normalizeList (normalizeList es) = normalizeList es
  | [], _, _ => ⟨rfl, rfl⟩
  | e :: es, h, hv => by
      obtain ⟨hfirst, hrest⟩ := List.append_eq_nil_iff.mp hv
      obtain ⟨hviolations, hnormal⟩ := normalize_normalize e h.1 hfirst
      obtain ⟨hviolations', hnormal'⟩ := normalizeList_normalizeList es h.2 hrest
      exact ⟨List.append_eq_nil_iff.mpr ⟨hviolations, hviolations'⟩,
        congrArg₂ List.cons hnormal hnormal'⟩

end

/-- The names of normal forms can be spelled. -/
theorem normalizes_spelled : Normalizes (isIdentifier ·) fun text =>
    isIdentifier text ∨ NumberLed text where
  pair _ _ h hpair := Pair.isIdentifier_or_numberLed (isNameChar_of_isIdentifier h) hpair
  lower _ h := .inl (isIdentifier_lower h)
  kept _ h := .inl h

end Expr

namespace Statement

theorem normalize_normalize {s : Statement} (h : s.Plain (isIdentifier ·))
    (hv : s.violations = []) : s.normalize.violations = [] ∧ s.normalize.normalize = s.normalize := by
  obtain ⟨target, value⟩ := s
  obtain ⟨htarget, hvalue⟩ := List.append_eq_nil_iff.mp hv
  obtain ⟨hviolations, hnormal⟩ := Expr.normalize_normalize value h.2 hvalue
  cases target with
  | none =>
      refine ⟨?_, ?_⟩
      · simpa [Statement.violations, Statement.normalize] using hviolations
      · simp [Statement.normalize, hnormal]
  | some target =>
      obtain ⟨hviolations', hnormal'⟩ := Expr.normalize_normalize target (h.1 target rfl) htarget
      refine ⟨?_, ?_⟩
      · simp [Statement.violations, Statement.normalize, hviolations, hviolations']
      · simp [Statement.normalize, hnormal, hnormal']

/-- The tokens of the written form, given those of the names. -/
def tokens (spell : String → List Token) (s : Statement) : List Token :=
  match s.target with
  | some target => target.tokens spell ++ .assign :: s.value.tokens spell
  | none => s.value.tokens spell

def names (s : Statement) : List String :=
  (match s.target with
    | some target => target.names
    | none => []) ++ s.value.names

section Scan

variable {p : String → Prop} {spell : String → List Token}

theorem scan_render (hspell : ∀ text, p text → Spells text.toList (spell text)) {s : Statement}
    (h : s.Plain p) (line : Nat) (rest : List Char) :
    scan line 0 (s.render.toList ++ rest) = (scan (line + 1) 0 rest).map
      ((s.tokens spell ++ [semicolon, newline]).map (Placed.mk · line) ++ ·) := by
  obtain ⟨target, value⟩ := s
  have hend : Spells [';'] [semicolon] := Spells.nil.symbol rfl fun _ => rfl
  have hvalue := (Expr.spells_render hspell value h.2).append hend (by decide)
  obtain ⟨text, htext, hspells⟩ : ∃ text, (Statement.mk target value).render.toList = text ++ ['\n'] ∧
      Spells text ((Statement.mk target value).tokens spell ++ [semicolon]) := by
    cases target with
    | none => exact ⟨_, by simp [Statement.render, toString], hvalue⟩
    | some target =>
        have htarget := Expr.spells_render hspell target (h.1 target rfl)
        have hrule := htarget.append (hvalue.space.symbol (c := '=') rfl fun _ => rfl).space (by decide)
        exact ⟨target.render.toList ++ ' ' :: '=' :: ' ' :: (value.render.toList ++ [';']),
          by simp [Statement.render, toString], by simpa [Statement.tokens] using hrule⟩
  have hnewline : Ends ('\n' :: rest) := ends_cons (by decide) rest
  rw [htext, List.append_assoc, List.singleton_append, hspells line 0 _ hnewline, scan_newline,
    map_map]
  simp [Function.comp_def]

/-- The tokens of a book that is written out, with two breaks behind every statement. -/
theorem scan_render_all (hspell : ∀ text, p text → Spells text.toList (spell text))
    {ss : List Statement} (h : ∀ s ∈ ss, s.Plain p) (line : Nat) :
    ∃ ps, scan line 0 (ss.flatMap fun s => s.render.toList) = .ok ps ∧
      ps.map (·.token) = ss.flatMap fun s => s.tokens spell ++ [semicolon, newline] := by
  induction ss generalizing line with
  | nil => exact ⟨[], by simp [scan], rfl⟩
  | cons s ss ih =>
      obtain ⟨hs, hss⟩ := List.forall_mem_cons.mp h
      obtain ⟨ps, hscan, hps⟩ := ih hss (line + 1)
      rw [List.flatMap_cons, List.flatMap_cons, scan_render hspell hs, hscan]
      exact ⟨_, rfl, by simp [hps, Function.comp_def]⟩

end Scan

theorem says_tokens {s : Statement} (h : s.Plain (isIdentifier ·)) :
    Grammar.Says s (s.tokens fun text => [.name text]) := by
  obtain ⟨target, value⟩ := s
  have hvalue := (Grammar.derives_tokens value h.2).loosen (m := 0) (Nat.zero_le _)
  cases target with
  | none => exact .bare hvalue
  | some target =>
      have htarget := (Grammar.derives_tokens target (h.1 target rfl)).loosen (m := 0) (Nat.zero_le _)
      exact @Grammar.Says.rule _ _ _ [] _ htarget (List.forall_mem_nil _) hvalue

theorem lists_tokens {ss : List Statement} (h : ∀ s ∈ ss, s.Plain (isIdentifier ·)) :
    Grammar.Lists ss
      (ss.flatMap fun s => s.tokens (fun text => [.name text]) ++ [semicolon, newline]) := by
  induction ss with
  | nil => exact .nil
  | cons s ss ih =>
      obtain ⟨hs, hss⟩ := List.forall_mem_cons.mp h
      have hrest := Grammar.Lists.skip (.inr rfl) (Grammar.Lists.skip (.inl rfl) (ih hss))
      rw [List.flatMap_cons, List.append_assoc]
      refine .cons (says_tokens hs) ?_ hrest
      rintro _ ⟨⟩
      exact .inr rfl

end Statement

namespace Grammar

section Separate

/-- That no number stands directly in front of a name. -/
def Separate (ts : List Token) : Prop :=
  ts.IsChain fun a b => ∀ value text, a = .number value → b ≠ .name text

def IsSymbol (t : Token) : Prop := ∀ text, t ≠ .name text

variable {t : Token} {ts us : List Token}

theorem Separate.append (hts : Separate ts) (hus : Separate us)
    (hhead : ∀ t ∈ us.head?, IsSymbol t) : Separate (ts ++ us) :=
  List.isChain_append.mpr ⟨hts, hus, fun _ _ t ht _ text _ => hhead t ht text⟩

theorem Separate.cons (hus : Separate us) (ht : ∀ value, t ≠ .number value) :
    Separate (t :: us) :=
  List.isChain_cons.mpr ⟨fun _ _ value _ h => absurd h (ht value), hus⟩

theorem separate_singleton (t : Token) : Separate [t] := List.isChain_singleton t

theorem Separate.between (hts : Separate ts) (hus : Separate us) (hsymbol : IsSymbol t)
    (hnumber : ∀ value, t ≠ .number value) : Separate (ts ++ t :: us) := by
  refine hts.append (hus.cons hnumber) ?_
  rintro _ ⟨⟩
  exact hsymbol

theorem Separate.breaks (hus : Separate us) (hts : ∀ t ∈ ts, t = .newline) :
    Separate (ts ++ us) := by
  induction ts with
  | nil => exact hus
  | cons t ts ih =>
      obtain ⟨rfl, hrest⟩ := List.forall_mem_cons.mp hts
      exact (ih hrest).cons (by simp)

theorem isSymbol_token (op : BinaryOp) : IsSymbol op.token := by
  cases op <;> rintro _ ⟨⟩

theorem token_ne_number (op : BinaryOp) (value : Decimal) : op.token ≠ .number value := by
  cases op <;> rintro ⟨⟩

theorem Derives.separate {phrase : Phrase} (h : Derives phrase ts) : Separate ts := by
  induction h with
  | ofProduct _ ih | ofOperand _ ih | ofCalls _ ih | ofPrimary _ ih | single _ ih => exact ih
  | sum _ _ hbreaks _ ihleft ihright | product _ _ hbreaks _ ihleft ihright =>
      exact ihleft.between (ihright.breaks hbreaks) (isSymbol_token _)
        (token_ne_number _)
  | @signed s _ _ _ hbreaks _ ih =>
      exact (ih.breaks hbreaks).cons (by cases s <;> rintro _ ⟨⟩)
  | call _ ih => exact ih.between (separate_singleton _) (by rintro _ ⟨⟩) (by rintro _ ⟨⟩)
  | callWith _ _ ih ihargs =>
      have hargs := ihargs.append (separate_singleton .closing) (by rintro _ ⟨⟩ _ ⟨⟩)
      exact ih.between hargs (by rintro _ ⟨⟩) (by rintro _ ⟨⟩)
  | number value => exact separate_singleton _
  | name text => exact separate_singleton _
  | group _ ih =>
      have hitems := ih.append (separate_singleton .closing) (by rintro _ ⟨⟩ _ ⟨⟩)
      exact hitems.cons (by rintro _ ⟨⟩)
  | cons _ _ ih ihrest => exact ih.between ihrest (by rintro _ ⟨⟩) (by rintro _ ⟨⟩)

theorem Says.separate {s : Statement} (h : Says s ts) : Separate ts := by
  cases h with
  | bare h => exact h.separate
  | rule htarget hbreaks hvalue =>
      exact htarget.separate.between (hvalue.separate.breaks hbreaks) (by rintro _ ⟨⟩)
        (by rintro _ ⟨⟩)

theorem Lists.separate {ss : List Statement} (h : Lists ss ts) : Separate ts := by
  induction h with
  | nil => exact List.isChain_nil
  | skip hbreak _ ih => exact ih.cons (by rcases hbreak with rfl | rfl <;> rintro _ ⟨⟩)
  | cons hsays hbreak _ ih =>
      refine hsays.separate.append ih fun t ht => ?_
      rcases hbreak t ht with rfl | rfl <;> rintro _ ⟨⟩

theorem not_separate (value : Decimal) (text : String) :
    ¬Separate [.number value, .name text] := by
  simp [Separate]

end Separate

end Grammar

namespace Expr

variable {spell : String → List Token}

theorem parenthesized_within (always : Bool) (ts : List Token) :
    ts <:+: Token.parenthesized always ts := by
  cases always with
  | false => exact List.infix_rfl
  | true => exact ⟨[.opening], [.closing], by simp [Token.parenthesized]⟩

mutual

theorem spelling_within : (e : Expr) → ∀ text ∈ e.names, spell text <:+: e.tokens spell
  | .literal _ => List.forall_mem_nil _
  | .quoted _ => List.forall_mem_nil _
  | .name text => by
      intro text' htext
      obtain rfl := List.mem_singleton.mp htext
      exact List.infix_rfl
  | .tuple items => by
      intro text htext
      have hitems := spelling_withinList items text htext
      exact hitems.trans ⟨[.opening], [.closing], by simp [tokens]⟩
  | .call callee args => by
      intro text htext
      rcases List.mem_append.mp htext with hcallee | hargs
      · have hwithin := (spelling_within callee text hcallee).trans
          (parenthesized_within (callee.precedence < primaryPrecedence) _)
        exact hwithin.trans (List.prefix_append _ _).isInfix
      · have hwithin := spelling_withinList args text hargs
        refine hwithin.trans (List.IsInfix.trans ⟨[.opening], [.closing], rfl⟩
          (List.suffix_append _ _).isInfix)
  | .signed sign operand => by
      intro text htext
      have hwithin := (spelling_within operand text htext).trans
        (parenthesized_within (operand.precedence < signPrecedence) _)
      exact hwithin.trans (List.suffix_cons _ _).isInfix
  | .binary op left right => by
      intro text htext
      rcases List.mem_append.mp htext with hleft | hright
      · have hwithin := (spelling_within left text hleft).trans
          (parenthesized_within (left.precedence < op.precedence) _)
        exact hwithin.trans (List.prefix_append _ _).isInfix
      · have hwithin := (spelling_within right text hright).trans
          (parenthesized_within (right.precedence ≤ op.precedence) _)
        exact hwithin.trans ((List.suffix_cons _ _).trans (List.suffix_append _ _)).isInfix

theorem spelling_withinList : (es : List Expr) →
    ∀ text ∈ namesList es, spell text <:+: tokensList spell es
  | [] => List.forall_mem_nil _
  | [e] => by
      intro text htext
      exact spelling_within e text (by simpa [namesList] using htext)
  | e :: e' :: es => by
      intro text htext
      rcases List.mem_append.mp htext with hfirst | hrest
      · exact (spelling_within e text hfirst).trans (List.prefix_append _ _).isInfix
      · have hwithin := spelling_withinList (e' :: es) text hrest
        exact hwithin.trans ((List.suffix_cons _ _).trans (List.suffix_append _ _)).isInfix

end

end Expr

namespace Statement

variable {p : String → Prop} {spell : String → List Token} {s : Statement} {ss : List Statement}

theorem Plain.mem_names (h : s.Plain p) : ∀ text ∈ s.names, p text := by
  obtain ⟨target, value⟩ := s
  refine List.forall_mem_append.mpr ⟨?_, Expr.Plain.mem_names value h.2⟩
  cases target with
  | none => exact List.forall_mem_nil _
  | some target => exact Expr.Plain.mem_names target (h.1 target rfl)

theorem Plain.of_names {q : String → Prop} (h : s.Plain p) (hq : ∀ text ∈ s.names, q text) :
    s.Plain q := by
  obtain ⟨target, value⟩ := s
  obtain ⟨htarget, hvalue⟩ := List.forall_mem_append.mp hq
  refine ⟨?_, Expr.Plain.of_names value h.2 hvalue⟩
  rintro target ⟨⟩
  exact Expr.Plain.of_names target (h.1 target rfl) htarget

theorem spelling_within : ∀ text ∈ s.names, spell text <:+: s.tokens spell := by
  obtain ⟨target, value⟩ := s
  intro text htext
  cases target with
  | none => exact Expr.spelling_within value text htext
  | some target =>
      rcases List.mem_append.mp htext with htarget | hvalue
      · exact (Expr.spelling_within target text htarget).trans (List.prefix_append _ _).isInfix
      · have hwithin : spell text <:+: value.tokens spell := Expr.spelling_within value text hvalue
        exact hwithin.trans ((List.suffix_cons _ _).trans (List.suffix_append _ _)).isInfix

theorem spelling_within_all (hs : s ∈ ss) {text : String} (htext : text ∈ s.names) :
    spell text <:+: ss.flatMap fun s => s.tokens spell ++ [semicolon, newline] := by
  obtain ⟨as, bs, rfl⟩ := List.append_of_mem hs
  rw [List.flatMap_append, List.flatMap_cons, List.append_assoc]
  exact (spelling_within text htext).trans
    ((List.prefix_append _ _).isInfix.trans (List.suffix_append _ _).isInfix)

end Statement

namespace RuleBook

variable {script : String} {book : RuleBook}

theorem toList_render (book : RuleBook) :
    book.render.toList = book.statements.flatMap fun s => s.render.toList := by
  rw [render, String.toList_join, List.flatMap_map]

/-- The statements of a book are normal forms of what its script says. -/
theorem statements_of_read (h : read script = .ok book) :
    (∀ s ∈ book.statements, s.violations = [] ∧ s.normalize = s ∧
      s.Plain fun text => isIdentifier text ∨ NumberLed text) ∧
    book = ⟨book.statements, rulesOf book.statements, .zero⟩ := by
  obtain ⟨ss, hparse, hviolations, rfl⟩ := read_eq_ok_iff.mp h
  refine ⟨?_, rfl⟩
  intro s hs
  obtain ⟨written, hwritten, rfl⟩ := List.mem_map.mp hs
  have hplain := plain_of_parseScript hparse written hwritten
  have hnone := List.flatMap_eq_nil_iff.mp hviolations written hwritten
  obtain ⟨hviolations', hnormal⟩ := Statement.normalize_normalize hplain hnone
  exact ⟨hviolations', hnormal, hplain.normalize Expr.normalizes_spelled⟩

theorem read_render_of_identifiers (h : read script = .ok book)
    (hnames : ∀ s ∈ book.statements, ∀ text ∈ s.names, isIdentifier text) :
    read book.render = .ok book := by
  obtain ⟨hstatements, hbook⟩ := statements_of_read h
  have hplain : ∀ s ∈ book.statements, s.Plain (isIdentifier ·) :=
    fun s hs => (hstatements s hs).2.2.of_names (hnames s hs)
  obtain ⟨ps, hscan, hps⟩ := Statement.scan_render_all (fun _ => Spells.name) hplain 1
  have hparse : parseScript book.render = .ok book.statements := by
    refine parseScript_eq_ok_iff.mpr ⟨ps, ?_, hps ▸ Statement.lists_tokens hplain⟩
    rw [tokenize, toList_render, hscan]
  have hnormal : book.statements.map Statement.normalize = book.statements := by
    refine (List.map_congr_left fun s hs => (hstatements s hs).2.1).trans (List.map_id' _)
  refine read_eq_ok_iff.mpr ⟨book.statements, hparse, ?_, ?_⟩
  · exact List.flatMap_eq_nil_iff.mpr fun s hs => (hstatements s hs).1
  · rw [hnormal]
    exact hbook

theorem malformed_of_numberLed (h : read script = .ok book) {s : Statement}
    (hs : s ∈ book.statements) {text : String} (htext : text ∈ s.names) (hled : NumberLed text) :
    ∃ error, read book.render = .error (.malformed error) := by
  obtain ⟨hstatements, -⟩ := statements_of_read h
  have hspell : ∀ text, isIdentifier text ∨ NumberLed text →
      Spells text.toList (spelling text) := by
    rintro text (hid | hled)
    · rw [spelling, if_pos hid]
      exact .name hid
    · obtain ⟨value, name, -, hspells⟩ := hled.spells
      exact hspells
  obtain ⟨ps, hscan, hps⟩ := Statement.scan_render_all hspell
    (fun s hs => (hstatements s hs).2.2) 1
  obtain ⟨value, name, hspelling, -⟩ := hled.spells
  unfold read
  cases hparse : parseScript book.render with
  | error error => exact ⟨error, rfl⟩
  | ok ss =>
      obtain ⟨ps', hscan', hlists⟩ := parseScript_eq_ok_iff.mp hparse
      rw [tokenize, toList_render, hscan] at hscan'
      cases hscan'
      -- The digits and the rest of the name stand side by side, as in no statement.
      have hwithin : spelling text <:+: ps.map (·.token) :=
        hps ▸ Statement.spelling_within_all hs htext
      have hseparate := hlists.separate.infix hwithin
      rw [hspelling] at hseparate
      exact absurd hseparate (Grammar.not_separate value name)

/-- The normal form of a book is read as the same book, unless a name in it begins with a
digit, as that of a currency can behind a leading underscore: then it is no script. -/
theorem read_render_of_read (h : read script = .ok book) :
    ((∀ s ∈ book.statements, ∀ text ∈ s.names, ¬BeginsWithDigit text) →
      read book.render = .ok book) ∧
    ((∃ s ∈ book.statements, ∃ text ∈ s.names, BeginsWithDigit text) →
      ∃ error, read book.render = .error (.malformed error)) := by
  obtain ⟨hstatements, -⟩ := statements_of_read h
  have hnames : ∀ s ∈ book.statements, ∀ text ∈ s.names, isIdentifier text ∨ NumberLed text :=
    fun s hs => (hstatements s hs).2.2.mem_names
  constructor
  · intro hdigits
    refine read_render_of_identifiers h fun s hs text htext => ?_
    exact (hnames s hs text htext).resolve_right fun hled =>
      hdigits s hs text htext hled.beginsWithDigit
  · rintro ⟨s, hs, text, htext, hdigit⟩
    refine malformed_of_numberLed h hs htext ?_
    exact (hnames s hs text htext).resolve_left fun hid =>
      not_beginsWithDigit_of_isIdentifier hid hdigit

theorem malformed_of_leading_underscore :
    (∃ book, read "_1INCH_USD = kraken(_1INCH_USD)" = .ok book ∧
      book.render = "1INCH_USD = kraken(1INCH_USD);\n" ∧
      ∃ error, read book.render = .error (.malformed error)) ∧
    ∃ book, read "btcusd = Kraken(BTC__USD) * 2" = .ok book ∧
      book.render = "BTC_USD = kraken(BTC_USD) * 2;\n" ∧ read book.render = .ok book := by
  constructor
  · have hscript : (read "_1INCH_USD = kraken(_1INCH_USD)").toOption.map
        (fun book => (book.render, book.statements.map Statement.names)) =
        some ("1INCH_USD = kraken(1INCH_USD);\n", [["1INCH_USD", "kraken", "1INCH_USD"]]) := by
      decide +kernel
    cases hread : read "_1INCH_USD = kraken(_1INCH_USD)" with
    | error e => simp [hread, Except.toOption] at hscript
    | ok book =>
        rw [hread] at hscript
        obtain ⟨hrender, hnames⟩ := Prod.mk.inj (Option.some.inj hscript)
        obtain ⟨s, hstatements, hs⟩ := List.map_eq_singleton_iff.mp hnames
        refine ⟨book, rfl, hrender, (read_render_of_read hread).2 ⟨s, ?_, "1INCH_USD", ?_, ?_⟩⟩
        · simp [hstatements]
        · simp [hs]
        · exact ⟨'1', by decide, by decide⟩
  · have hscript : (read "btcusd = Kraken(BTC__USD) * 2").toOption.map
        (fun book => (book.render, book.statements.map Statement.names)) =
        some ("BTC_USD = kraken(BTC_USD) * 2;\n", [["BTC_USD", "kraken", "BTC_USD"]]) := by
      decide +kernel
    cases hread : read "btcusd = Kraken(BTC__USD) * 2" with
    | error e => simp [hread, Except.toOption] at hscript
    | ok book =>
        rw [hread] at hscript
        obtain ⟨hrender, hnames⟩ := Prod.mk.inj (Option.some.inj hscript)
        obtain ⟨s, hstatements, hs⟩ := List.map_eq_singleton_iff.mp hnames
        refine ⟨book, rfl, hrender, (read_render_of_read hread).1 ?_⟩
        rw [hstatements]
        intro t ht text htext
        obtain rfl := List.mem_singleton.mp ht
        rw [hs] at htext
        apply not_beginsWithDigit_of_isIdentifier
        revert text
        decide

end RuleBook

end Paydesk.Rates

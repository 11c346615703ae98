import Paydesk.Proofs.Rates.Plain

/-!
The tokens that the written form of an expression is split into.
-/

namespace Paydesk.Rates

namespace Token

open Text

section Characters

variable {c : Char}

theorem range_of_isNumberChar (h : isNumberChar c) :
    c.toNat = 0x2e ∨ 0x30 ≤ c.toNat ∧ c.toNat ≤ 0x39 := by
  rw [isNumberChar, Bool.or_eq_true] at h
  rcases h with h | h
  · simp only [isAsciiDigit, Bool.and_eq_true, decide_eq_true_eq] at h
    exact .inr h
  · rw [eq_of_beq h]
    exact .inl rfl

theorem range_of_isNameStart (h : isNameStart c) : 0x41 ≤ c.toNat ∧ c.toNat ≤ 0x7a := by
  rw [isNameStart, Bool.or_eq_true] at h
  rcases h with h | h
  · simp only [isAsciiLetter, Bool.and_eq_true, Bool.or_eq_true, decide_eq_true_eq] at h
    omega
  · rw [eq_of_beq h]
    decide

theorem not_isBlank (hlow : 0x21 ≤ c.toNat) (hhigh : c.toNat ≤ 0x7e) : isBlank c = false := by
  simp only [isBlank, Bool.or_eq_false_iff, Bool.and_eq_false_iff, decide_eq_false_iff_not,
    beq_eq_false_iff_ne]
  omega

end Characters

theorem map_map {ε α β γ : Type} (f : α → β) (g : β → γ) (x : Except ε α) :
    (x.map f).map g = x.map (g ∘ f) := by
  cases x <;> rfl

section Scan

variable {line depth : Nat} {c : Char} {cs rest : List Char}

attribute [local simp] scan

theorem scan_number (hc : isNumberChar c) {value : Decimal}
    (hvalue : Decimal.read (c :: cs.takeWhile isNumberChar) = .ok value) :
    scan line depth (c :: cs) =
      (scan line depth (cs.dropWhile isNumberChar)).map (⟨.number value, line⟩ :: ·) := by
  have hrange := range_of_isNumberChar hc
  have hslash : c ≠ '/' := by
    rintro rfl
    exact absurd hrange (by decide)
  rw [scan, not_isBlank (by omega) (by omega), if_neg Bool.false_ne_true, if_pos hc]
  · simp only [hvalue]
  · rintro rfl
    exact absurd hrange (by decide)
  · exact fun _ h _ => hslash h
  · exact hslash

theorem scan_name (hc : isNameStart c) :
    scan line depth (c :: cs) = (scan line depth (cs.dropWhile isNameChar)).map
      (⟨.name (String.ofList (c :: cs.takeWhile isNameChar)), line⟩ :: ·) := by
  have hrange := range_of_isNameStart hc
  have hnumber : ¬isNumberChar c := by
    intro h
    have := range_of_isNumberChar h
    omega
  have hne : ∀ d : Char, d.toNat < 0x41 → c ≠ d := by
    rintro d hd rfl
    omega
  rw [scan, not_isBlank (by omega) (by omega), if_neg Bool.false_ne_true, if_neg hnumber, if_pos hc]
  · exact hne _ (by decide)
  · exact fun _ h _ => hne _ (by decide) h
  · exact hne _ (by decide)

theorem scan_symbol {t : Token} (h : symbol? c = some t) :
    scan line depth (c :: cs) = (scan line (t.depthAfter depth) cs).map (⟨t, line⟩ :: ·) := by
  unfold symbol? at h
  split at h <;> cases h
  all_goals
    rw [scan]
    · rfl
    all_goals simp

theorem scan_space : scan line depth (' ' :: cs) = scan line depth cs := by
  simp [isBlank]

theorem scan_slash : scan line depth ('/' :: ' ' :: cs) =
    (scan line depth (' ' :: cs)).map (⟨.slash, line⟩ :: ·) := by
  rw [scan]
  simp

theorem scan_newline : scan line 0 ('\n' :: cs) =
    (scan (line + 1) 0 cs).map (⟨.newline, line⟩ :: ·) := by
  simp

end Scan

/-- That no word goes on here. -/
def Ends (cs : List Char) : Prop := ∀ c ∈ cs.head?, ¬isNumberChar c ∧ ¬isNameChar c

theorem ends_cons {c : Char} (hc : ¬isNumberChar c ∧ ¬isNameChar c) (cs : List Char) :
    Ends (c :: cs) := by
  rintro _ ⟨⟩
  exact hc

/-- That a text is split into tokens, all on one line, whatever text follows that does
not continue its last word. -/
def Spells (cs : List Char) (ts : List Token) : Prop :=
  ∀ line depth rest, Ends rest →
    scan line depth (cs ++ rest) = (scan line depth rest).map (ts.map (Placed.mk · line) ++ ·)

theorem takeWhile_append_of_ends {p : Char → Bool} {cs rest : List Char} (hcs : ∀ c ∈ cs, p c)
    (hrest : ∀ c ∈ rest.head?, ¬p c) :
    (cs ++ rest).takeWhile p = cs ∧ (cs ++ rest).dropWhile p = rest := by
  rw [List.takeWhile_append_of_pos hcs, List.dropWhile_append_of_pos hcs]
  cases rest with
  | nil => simp
  | cons d rest =>
      have hd : ¬p d := hrest d rfl
      simp [hd]

namespace Spells

variable {as bs : List Char} {ts us : List Token} {c : Char}

theorem nil : Spells [] [] := by
  intro line depth rest _
  cases h : scan line depth rest <;> simp [h, Except.map]

theorem append (ha : Spells as ts) (hb : Spells (c :: bs) us)
    (hc : ¬isNumberChar c ∧ ¬isNameChar c) : Spells (as ++ c :: bs) (ts ++ us) := by
  intro line depth rest hrest
  have hends : Ends (c :: bs ++ rest) := ends_cons hc _
  rw [List.append_assoc, ha line depth _ hends, hb line depth rest hrest, map_map]
  simp [Function.comp_def]

theorem space (h : Spells as ts) : Spells (' ' :: as) ts := by
  intro line depth rest hrest
  rw [List.cons_append, scan_space, h line depth rest hrest]

theorem symbol {t : Token} (hc : symbol? c = some t) (hdepth : ∀ depth, t.depthAfter depth = depth)
    (h : Spells as ts) : Spells (c :: as) (t :: ts) := by
  intro line depth rest hrest
  rw [List.cons_append, scan_symbol hc, hdepth, h line depth rest hrest, map_map]
  rfl

theorem slash (h : Spells as ts) : Spells ('/' :: ' ' :: as) (.slash :: ts) := by
  intro line depth rest hrest
  rw [List.cons_append, List.cons_append, scan_slash, scan_space, h line depth rest hrest, map_map]
  rfl

theorem operator (op : BinaryOp) (h : Spells as ts) :
    Spells (' ' :: (op.symbol.toList ++ ' ' :: as)) (op.token :: ts) := by
  cases op with
  | div => exact h.slash.space
  | add | sub | mul => exact (h.space.symbol rfl fun _ => rfl).space

theorem sign (s : Sign) (h : Spells as ts) : Spells (s.symbol.toList ++ as) (s.token :: ts) := by
  cases s with
  | plus | minus => exact h.symbol rfl fun _ => rfl

theorem comma (ha : Spells as ts) (hb : Spells bs us) :
    Spells (as ++ ',' :: ' ' :: bs) (ts ++ .comma :: us) :=
  ha.append (hb.space.symbol rfl fun _ => rfl) (by decide)

theorem group (h : Spells as ts) :
    Spells ('(' :: (as ++ [')'])) (.opening :: (ts ++ [.closing])) := by
  intro line depth rest hrest
  have hclosing : Ends (')' :: rest) := ends_cons (by decide) rest
  rw [List.cons_append, List.append_assoc, List.cons_append, List.nil_append, scan_symbol rfl,
    h line _ _ hclosing, scan_symbol rfl, map_map, map_map]
  simp [depthAfter, Function.comp_def]

theorem number {d : Decimal} (h : d.negative = false) : Spells d.render.toList [.number d] := by
  intro line depth rest hrest
  have hchars : ∀ c ∈ d.render.toList, isNumberChar c := by
    intro c hc
    rw [Decimal.toList_render, h, if_neg Bool.false_ne_true, List.nil_append] at hc
    have hdigit : ∀ c ∈ d.parts.1 ++ d.parts.2, isNumberChar c := by
      intro c hc
      simp [isNumberChar, d.isAsciiDigit_of_mem_parts hc]
    split_ifs at hc
    · exact hdigit c (List.mem_append_left _ (by simpa using hc))
    · rcases List.mem_append.mp hc with hc | hc
      · exact hdigit c (List.mem_append_left _ hc)
      · rcases List.mem_cons.mp hc with rfl | hc
        · decide
        · exact hdigit c (List.mem_append_right _ hc)
  have hread := Decimal.read_render h
  generalize d.render.toList = cs at hchars hread
  cases cs with
  | nil => cases hread
  | cons c cs =>
      obtain ⟨hc, hcs⟩ := List.forall_mem_cons.mp hchars
      obtain ⟨htake, hdrop⟩ := takeWhile_append_of_ends hcs fun d hd => (hrest d hd).1
      rw [List.cons_append, scan_number hc (by rw [htake, hread]), hdrop]
      rfl

theorem name {text : String} (h : isIdentifier text) : Spells text.toList [.name text] := by
  intro line depth rest hrest
  unfold isIdentifier at h
  split at h
  · cases h
  · next c cs htext =>
    rw [Bool.and_eq_true, List.all_eq_true] at h
    obtain ⟨htake, hdrop⟩ := takeWhile_append_of_ends h.2 fun d hd => (hrest d hd).2
    rw [htext, List.cons_append, scan_name h.1, htake, hdrop, ← htext, String.ofList_toList]
    rfl

end Spells

/-- The tokens of a text that may stand in parentheses. -/
def parenthesized (always : Bool) (ts : List Token) : List Token :=
  if always then .opening :: (ts ++ [.closing]) else ts

theorem Spells.parenthesized {text : String} {ts : List Token} (always : Bool)
    (h : Spells text.toList ts) :
    Spells (Expr.parenthesized always text).toList (Token.parenthesized always ts) := by
  cases always with
  | false => exact h
  | true =>
      have hgroup := h.group
      simpa [Expr.parenthesized, Token.parenthesized] using hgroup

end Token

namespace Expr

mutual

/-- The tokens of the written form, given those of the names. -/
def tokens (spell : String → List Token) : Expr → List Token
  | .literal value => [.number value]
  | .quoted spread => [.number spread.bid]
  | .name text => spell text
  | .tuple items => .opening :: (tokensList spell items ++ [.closing])
  | .call callee args =>
      Token.parenthesized (callee.precedence < primaryPrecedence) (callee.tokens spell) ++
        .opening :: (tokensList spell args ++ [.closing])
  | .signed sign operand =>
      sign.token ::
        Token.parenthesized (operand.precedence < signPrecedence) (operand.tokens spell)
  | .binary op left right =>
      Token.parenthesized (left.precedence < op.precedence) (left.tokens spell) ++
        op.token :: Token.parenthesized (right.precedence ≤ op.precedence) (right.tokens spell)

def tokensList (spell : String → List Token) : List Expr → List Token
  | [] => []
  | [e] => e.tokens spell
  | e :: es => e.tokens spell ++ .comma :: tokensList spell es

end

section Written

open Token

variable {p : String → Prop} {spell : String → List Token}

mutual

theorem spells_render (hspell : ∀ text, p text → Spells text.toList (spell text)) :
    (e : Expr) → e.Plain p → Spells e.render.toList (e.tokens spell)
  | .literal _, h => .number h
  | .quoted _, h => h.elim
  | .name _, h => hspell _ h
  | .tuple items, h => by
      have hitems := (spells_renderList hspell items h.2).group
      simpa [render, tokens] using hitems
  | .call callee args, h => by
      have hcallee := spells_render hspell callee h.1
      have hargs := (spells_renderList hspell args h.2).group
      have hcall := (hcallee.parenthesized (callee.precedence < primaryPrecedence)).append hargs
        (by decide)
      simpa [render, tokens] using hcall
  | .signed sign operand, h => by
      have hoperand := spells_render hspell operand h
      have hsigned := (hoperand.parenthesized (operand.precedence < signPrecedence)).sign sign
      simpa [render, tokens] using hsigned
  | .binary op left right, h => by
      have hleft := spells_render hspell left h.1
      have hright := spells_render hspell right h.2
      have hboth := (hleft.parenthesized (left.precedence < op.precedence)).append
        ((hright.parenthesized (right.precedence ≤ op.precedence)).operator op) (by decide)
      simpa [render, tokens] using hboth

theorem spells_renderList (hspell : ∀ text, p text → Spells text.toList (spell text)) :
    (es : List Expr) → PlainList p es →
      Spells (", ".intercalate (renderList es)).toList (tokensList spell es)
  | [], _ => .nil
  | [e], h => by
      simpa [renderList, tokensList] using spells_render hspell e h.1
  | e :: e' :: es, h => by
      have hfirst := spells_render hspell e h.1
      have hrest := spells_renderList hspell (e' :: es) h.2
      simpa [renderList, tokensList, String.toList_intercalate] using hfirst.comma hrest

end

end Written

end Expr

end Paydesk.Rates

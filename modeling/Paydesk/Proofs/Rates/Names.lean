import Paydesk.Proofs.Rates.Pairs
import Paydesk.Proofs.Rates.Quotes
import Paydesk.Proofs.Rates.Spelling

/-!
What becomes of names in normal form: the name of a pair is read as that pair, and is
either a name of scripts again or digits in front of one.
-/

namespace Paydesk

namespace Rates

open Text

namespace Token

theorem isNameChar_iff {c : Char} : isNameChar c ↔ IsCodeChar c ∨ c = '_' := by
  simp only [isNameChar, isNameStart, IsCodeChar, Bool.or_eq_true, beq_iff_eq]
  tauto

theorem range_of_isNameChar {c : Char} (h : isNameChar c) : 0x30 ≤ c.toNat ∧ c.toNat ≤ 0x7a := by
  rcases isNameChar_iff.mp h with h | rfl
  · rw [isCodeChar_iff] at h
    omega
  · decide

theorem trim_of_isNameChar {cs : List Char} (h : ∀ c ∈ cs, isNameChar c) : trim cs = cs := by
  apply trim_of_no_blank
  intro c hc
  obtain ⟨hlow, hhigh⟩ := range_of_isNameChar (h c hc)
  simp [not_isBlank (by omega : 0x21 ≤ c.toNat) (by omega)]

theorem byteLength_of_isNameChar {cs : List Char} (h : ∀ c ∈ cs, isNameChar c) :
    byteLength cs = cs.length := by
  apply byteLength_of_ascii
  intro c hc
  obtain ⟨-, hhigh⟩ := range_of_isNameChar (h c hc)
  simp only [isAscii, decide_eq_true_eq]
  omega

theorem isNameStart_toLower {c : Char} (h : isNameStart c) : isNameStart c.toLower := by
  rw [isNameStart, Bool.or_eq_true] at h ⊢
  rcases h with h | h
  · left
    simp only [isAsciiLetter, Bool.or_eq_true, Bool.and_eq_true, decide_eq_true_eq,
      toNat_toLower] at h ⊢
    split_ifs <;> omega
  · rw [eq_of_beq h]
    decide

theorem isNameChar_toLower {c : Char} (h : isNameChar c) : isNameChar c.toLower := by
  rw [isNameChar, Bool.or_eq_true] at h ⊢
  rcases h with h | h
  · exact .inl (isNameStart_toLower h)
  · right
    simp only [isAsciiDigit, Bool.and_eq_true, decide_eq_true_eq, toNat_toLower] at h ⊢
    split_ifs <;> omega

theorem isIdentifier_iff {text : String} : isIdentifier text ↔
    ∃ c cs, text.toList = c :: cs ∧ isNameStart c ∧ ∀ d ∈ cs, isNameChar d := by
  unfold isIdentifier
  cases text.toList with
  | nil => simp
  | cons c cs => simp

theorem isIdentifier_lower {text : String} (h : isIdentifier text) :
    isIdentifier (Text.lower text) := by
  obtain ⟨c, cs, htext, hc, hcs⟩ := isIdentifier_iff.mp h
  refine isIdentifier_iff.mpr ⟨c.toLower, cs.map Char.toLower, ?_, isNameStart_toLower hc, ?_⟩
  · simp [Text.lower, htext]
  · intro d hd
    obtain ⟨d, hmem, rfl⟩ := List.mem_map.mp hd
    exact isNameChar_toLower (hcs d hmem)

theorem isNameChar_of_isIdentifier {text : String} (h : isIdentifier text) :
    ∀ c ∈ text.toList, isNameChar c := by
  obtain ⟨c, cs, htext, hc, hcs⟩ := isIdentifier_iff.mp h
  rw [htext]
  exact List.forall_mem_cons.mpr ⟨by simp [isNameChar, hc], hcs⟩

end Token

namespace Pair

/-- The letters and digits of one currency code. -/
def IsCode (cs : List Char) : Prop := cs ≠ [] ∧ ∀ c ∈ cs, IsCodeChar c

theorem isNameChar_of_mem_joinWith {runs : List (List Char)} (h : ∀ run ∈ runs, IsCode run) :
    ∀ c ∈ joinWith ['_'] runs, Token.isNameChar c := by
  induction runs with
  | nil => exact List.forall_mem_nil _
  | cons run runs ih =>
      obtain ⟨hrun, hruns⟩ := List.forall_mem_cons.mp h
      have hfirst : ∀ c ∈ run, Token.isNameChar c :=
        fun c hc => Token.isNameChar_iff.mpr (.inl (hrun.2 c hc))
      cases runs with
      | nil => exact hfirst
      | cons next runs =>
          rw [joinWith_cons_cons]
          exact List.forall_mem_append.mpr
            ⟨List.forall_mem_append.mpr ⟨hfirst, List.forall_mem_singleton.mpr rfl⟩, ih hruns⟩

theorem letters_of_isNameChar {text : String} (hname : ∀ c ∈ text.toList, Token.isNameChar c) :
    ∀ c ∈ letters text, IsCodeChar c := by
  intro c hc
  rw [letters, Token.trim_of_isNameChar hname, List.mem_filter] at hc
  rcases Token.isNameChar_iff.mp (hname c hc.1) with hcode | rfl
  · exact hcode
  · exact absurd hc.2 (by decide)

/-- The name of a pair that was read is read as the same pair. -/
theorem exists_render_of_parse? {text : String} {pair : Pair}
    (hname : ∀ c ∈ text.toList, Token.isNameChar c) (h : parse? text = some pair) :
    parse? pair.render = some pair ∧ ∃ left right more,
      (∀ run ∈ left :: right :: more, IsCode run) ∧
      (joinWith ['_'] (left :: right :: more)).length ≤ maxLength ∧
      pair.render.toList = joinWith ['_'] (left :: right :: more) := by
  have hletters := letters_of_isNameChar hname
  refine ⟨(parse?_render_iff h).mpr (Token.trim_of_isNameChar fun c hc =>
    Token.isNameChar_iff.mpr (.inl (hletters c hc))), ?_⟩
  obtain ⟨left, right, more, hruns, hflatten, hlength, hrender, -⟩ := exists_render_runs h
  have hcodes : ∀ run ∈ left :: right :: more, IsCode run := by
    intro run hrun
    refine ⟨(hruns run hrun).1, fun c hc => ?_⟩
    have hmem := List.mem_flatten_of_mem hrun hc
    rw [hflatten] at hmem
    obtain ⟨d, hd, rfl⟩ := List.mem_map.mp hmem
    exact (hletters d hd).toUpper
  rw [Token.byteLength_of_isNameChar (isNameChar_of_mem_joinWith hcodes)] at hlength
  exact ⟨left, right, more, hcodes, hlength, hrender⟩

end Pair

namespace Token

/-- Digits in front of a name. -/
def NumberLed (text : String) : Prop :=
  ∃ ds cs value, text.toList = ds ++ cs ∧ (∀ d ∈ ds, isAsciiDigit d) ∧
    Decimal.read ds = .ok value ∧ isIdentifier (String.ofList cs)

/-- The tokens that a name in normal form is split into. -/
def spelling (text : String) : List Token :=
  if isIdentifier text then [.name text]
  else
    match Decimal.read (text.toList.takeWhile isNumberChar) with
    | .ok value => [.number value, .name (String.ofList (text.toList.dropWhile isNumberChar))]
    | .error _ => []

theorem not_isNumberChar_of_isNameStart {c : Char} (h : isNameStart c) : ¬isNumberChar c := by
  intro hnumber
  have hlow := range_of_isNameStart h
  have hhigh := range_of_isNumberChar hnumber
  omega

theorem NumberLed.spells {text : String} (h : NumberLed text) :
    ∃ value name, spelling text = [.number value, .name name] ∧
      Spells text.toList (spelling text) := by
  obtain ⟨ds, cs, value, htext, hdigits, hvalue, hname⟩ := h
  have hds : ∀ d ∈ ds, isNumberChar d := fun d hd => by simp [isNumberChar, hdigits d hd]
  obtain ⟨d, ds, rfl⟩ : ∃ d ds', ds = d :: ds' := by
    cases ds with
    | nil => cases hvalue
    | cons d ds => exact ⟨d, ds, rfl⟩
  obtain ⟨c, cs', hcs, hc, -⟩ := isIdentifier_iff.mp hname
  rw [String.toList_ofList] at hcs
  have hhead : ∀ rest, ∀ e ∈ (cs ++ rest).head?, ¬isNumberChar e := by
    intro rest e he
    rw [hcs] at he
    cases he
    exact not_isNumberChar_of_isNameStart hc
  obtain ⟨hd, hds⟩ := List.forall_mem_cons.mp hds
  have hnot : ¬isIdentifier text := by
    intro hid
    obtain ⟨e, es, htext', he, -⟩ := isIdentifier_iff.mp hid
    rw [htext] at htext'
    cases htext'
    exact not_isNumberChar_of_isNameStart he hd
  have hspelling : spelling text = [.number value, .name (String.ofList cs)] := by
    obtain ⟨htake, hdrop⟩ := takeWhile_append_of_ends (List.forall_mem_cons.mpr ⟨hd, hds⟩)
      (by simpa using hhead [])
    rw [spelling, if_neg hnot, htext, htake, hdrop]
    simp only [hvalue]
  refine ⟨value, _, hspelling, ?_⟩
  intro line depth rest hrest
  obtain ⟨htake, hdrop⟩ := takeWhile_append_of_ends hds (hhead rest)
  have hrest' := Spells.name hname line depth rest hrest
  rw [String.toList_ofList] at hrest'
  rw [hspelling, htext, List.append_assoc, List.cons_append,
    scan_number hd (by rw [htake, hvalue]), hdrop, hrest', map_map]
  rfl

theorem isAsciiDigit_of_isNumberChar {c : Char} (hname : isNameChar c) (h : isNumberChar c) :
    isAsciiDigit c := by
  rw [isNumberChar, Bool.or_eq_true] at h
  rcases h with h | h
  · exact h
  · rw [eq_of_beq h] at hname
    exact absurd hname (by decide)

theorem isNameStart_of_not_isNumberChar {c : Char} (hname : isNameChar c) (h : ¬isNumberChar c) :
    isNameStart c := by
  rw [isNameChar, Bool.or_eq_true] at hname
  refine hname.resolve_right fun hdigit => h ?_
  simp [isNumberChar, hdigit]

theorem numberLed_of_isNumberChar {c : Char} {cs : List Char} (hc : isNumberChar c)
    (hname : ∀ d ∈ c :: cs, isNameChar d) (hlength : (c :: cs).length ≤ Pair.maxLength)
    (hunderscore : '_' ∈ c :: cs) : NumberLed (String.ofList (c :: cs)) := by
  have hdigits : ∀ d ∈ (c :: cs).takeWhile isNumberChar, isAsciiDigit d := by
    intro d hd
    exact isAsciiDigit_of_isNumberChar (hname d ((List.takeWhile_prefix _).subset hd))
      (List.mem_takeWhile_imp hd)
  have hne : (c :: cs).takeWhile isNumberChar ≠ [] := by
    rw [List.takeWhile_cons_of_pos hc]
    exact List.cons_ne_nil _ _
  have hshort : ((c :: cs).takeWhile isNumberChar).length ≤ Decimal.maxScale :=
    ((List.takeWhile_prefix _).length_le.trans hlength).trans (by decide)
  obtain ⟨value, hvalue⟩ := Decimal.exists_read_digits hne hdigits hshort
  refine ⟨_, _, value, by rw [String.toList_ofList, List.takeWhile_append_dropWhile], hdigits,
    hvalue, isIdentifier_iff.mpr ?_⟩
  cases hdrop : (c :: cs).dropWhile isNumberChar with
  | nil => exact absurd (List.dropWhile_eq_nil_iff.mp hdrop _ hunderscore) (by decide)
  | cons e es =>
      have hmem : ∀ d ∈ e :: es, d ∈ c :: cs :=
        fun d hd => (List.dropWhile_suffix _).subset (hdrop ▸ hd)
      have he : ¬isNumberChar e := by
        have hhead := List.head?_dropWhile_not isNumberChar (c :: cs)
        rw [hdrop] at hhead
        simpa using hhead
      refine ⟨e, es, String.toList_ofList, ?_, fun d hd => ?_⟩
      · exact isNameStart_of_not_isNumberChar (hname e (hmem e List.mem_cons_self)) he
      · exact hname d (hmem d (List.mem_cons_of_mem _ hd))

def BeginsWithDigit (text : String) : Prop := ∃ c ∈ text.toList.head?, isAsciiDigit c

theorem NumberLed.beginsWithDigit {text : String} (h : NumberLed text) : BeginsWithDigit text := by
  obtain ⟨ds, cs, value, htext, hds, hvalue, -⟩ := h
  cases ds with
  | nil => cases hvalue
  | cons d ds => exact ⟨d, by rw [htext]; rfl, hds d List.mem_cons_self⟩

theorem not_beginsWithDigit_of_isIdentifier {text : String} (h : isIdentifier text) :
    ¬BeginsWithDigit text := by
  obtain ⟨c, cs, htext, hc, -⟩ := isIdentifier_iff.mp h
  rintro ⟨d, hd, hdigit⟩
  rw [htext] at hd
  cases hd
  exact not_isNumberChar_of_isNameStart hc (by simp [isNumberChar, hdigit])

end Token

namespace Pair

/-- The name of a pair is a name of scripts, but for digits that it may begin with. -/
theorem isIdentifier_or_numberLed {text : String} {pair : Pair}
    (hname : ∀ c ∈ text.toList, Token.isNameChar c) (h : parse? text = some pair) :
    Token.isIdentifier pair.render ∨ Token.NumberLed pair.render := by
  obtain ⟨-, left, right, more, hcodes, hlength, hrender⟩ := exists_render_of_parse? hname h
  have hchars := isNameChar_of_mem_joinWith hcodes
  have hunderscore : '_' ∈ joinWith ['_'] (left :: right :: more) := by
    simp [joinWith_cons_cons]
  rw [← String.ofList_toList (s := pair.render), hrender]
  cases hjoined : joinWith ['_'] (left :: right :: more) with
  | nil =>
      rw [hjoined] at hunderscore
      cases hunderscore
  | cons c cs =>
      rw [hjoined] at hchars hunderscore hlength
      by_cases hc : Token.isNumberChar c
      · exact .inr (Token.numberLed_of_isNumberChar hc hchars hlength hunderscore)
      · obtain ⟨hfirst, hrest⟩ := List.forall_mem_cons.mp hchars
        exact .inl (Token.isIdentifier_iff.mpr ⟨c, cs, String.toList_ofList,
          Token.isNameStart_of_not_isNumberChar hfirst hc, hrest⟩)

end Pair

end Rates

end Paydesk

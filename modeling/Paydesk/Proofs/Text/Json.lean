import Mathlib.Tactic.SplitIfs
import Paydesk.Proofs.Text.Digits
import Paydesk.Text.Json

/-!
What is written of a value is read as that value again.
-/

namespace Paydesk.Text.Json

section Strings

theorem hexDigit?_hexChar {n : Nat} (h : n < 16) : hexDigit? (hexChar n) = some n := by
  have hall : ∀ n < 16, hexDigit? (hexChar n) = some n := by decide
  exact hall n h

theorem escapedUnit?_control {c : Char} (h : c.toNat < 0x20) (rest : List Char) :
    escapedUnit? ('0' :: '0' :: hexChar (c.toNat / 16) :: hexChar (c.toNat % 16) :: rest) =
      some (c, rest) := by
  have hunit : hexQuad?
      ('0' :: '0' :: hexChar (c.toNat / 16) :: hexChar (c.toNat % 16) :: rest) =
        some (c.toNat, rest) := by
    have hzero : hexDigit? '0' = some 0 := by decide
    simp only [hexQuad?, hzero, hexDigit?_hexChar (by omega : c.toNat / 16 < 16),
      hexDigit?_hexChar (by omega : c.toNat % 16 < 16), Option.bind_eq_bind, Option.bind_some]
    congr 2
    omega
  have hlow : ¬(0xd800 ≤ c.toNat ∧ c.toNat < 0xdc00) := by omega
  have hhigh : ¬(0xdc00 ≤ c.toNat ∧ c.toNat < 0xe000) := by omega
  simp [escapedUnit?, hunit, hlow, hhigh]

/-- A character is read back from its escape. -/
theorem stringTail?_escape (fuel : Nat) (done : List Char) (c : Char) (rest : List Char) :
    stringTail? (fuel + 1) done (escape c ++ rest) = stringTail? fuel (c :: done) rest := by
  unfold escape
  split
  · rfl
  · rfl
  · rfl
  · rfl
  · rfl
  · rfl
  · rfl
  · split
    · next hcontrol =>
      simp only [List.cons_append, List.nil_append, stringTail?, escapedUnit?_control hcontrol]
      rfl
    · next hquote hslash _ _ _ _ _ hplain =>
      rw [List.singleton_append, stringTail?.eq_def]
      dsimp only
      split
      · next h => cases h
      · next h => exact absurd (List.cons.inj h).1 hquote
      · next h => exact absurd (List.cons.inj h).1 hslash
      · next h => exact absurd (List.cons.inj h).1 hslash
      · next h =>
        cases h
        rw [if_neg hplain]

theorem stringTail?_flatMap {fuel : Nat} {cs : List Char} (h : cs.length < fuel)
    (done rest : List Char) :
    stringTail? fuel done (cs.flatMap escape ++ '"' :: rest) =
      some (String.ofList (done.reverse ++ cs), rest) := by
  induction cs generalizing fuel done with
  | nil =>
      cases fuel with
      | zero => cases h
      | succ fuel => simp [stringTail?]
  | cons c cs ih =>
      cases fuel with
      | zero => cases h
      | succ fuel =>
          rw [List.flatMap_cons, List.append_assoc, stringTail?_escape, ih (by simpa using h)]
          simp

theorem length_le_flatMap_escape (cs : List Char) : cs.length ≤ (cs.flatMap escape).length := by
  have hescape : ∀ c : Char, 1 ≤ (escape c).length := by
    intro c
    unfold escape
    split
    all_goals try exact Nat.le_add_left 1 _
    split <;> exact Nat.le_add_left 1 _
  induction cs with
  | nil => exact Nat.le_refl _
  | cons c cs ih =>
      have hc := hescape c
      rw [List.flatMap_cons, List.length_append, List.length_cons]
      omega

theorem toList_quote (s : String) :
    (quote s).toList = '"' :: (s.toList.flatMap escape ++ ['"']) := by
  simp [quote]

/-- A string is read back up to its closing quote. -/
theorem stringTail?_quote (s : String) (rest : List Char) :
    stringTail? ((s.toList.flatMap escape ++ '"' :: rest).length + 1) []
      (s.toList.flatMap escape ++ '"' :: rest) = some (s, rest) := by
  have hlength := length_le_flatMap_escape s.toList
  rw [stringTail?_flatMap]
  · simp
  · rw [List.length_append]
    omega

end Strings

section Numbers

/-- What may stand behind a value: its end, or that of an item, an array or an object. -/
def Closes (rest : List Char) : Prop := ∀ c ∈ rest.head?, c = ',' ∨ c = ']' ∨ c = '\x7d'

theorem digits_append {ds rest : List Char} (hds : ∀ d ∈ ds, isAsciiDigit d)
    (hrest : Closes rest) : digits (ds ++ rest) = (ds, rest) := by
  have hhead : ∀ c ∈ rest.head?, ¬isAsciiDigit c := by
    intro c hc
    rcases hrest c hc with rfl | rfl | rfl <;> decide
  rw [digits, List.takeWhile_append_of_pos hds, List.dropWhile_append_of_pos hds]
  cases rest with
  | nil => simp
  | cons c rest => simp [hhead c rfl]

/-- A literal that is read as a number in front of all that may stand behind one. -/
structure IsNumber (literal : String) : Prop where
  head : ∃ c cs, literal.toList = c :: cs ∧ (c = '-' ∨ isAsciiDigit c)
  reads : ∀ rest, Closes rest → number? (literal.toList ++ rest) = some (literal, rest)

theorem plain_of_begins {c : Char} (h : c = '-' ∨ isAsciiDigit c) :
    isBlank c = false ∧ c ≠ ']' ∧ c ∉ ['n', 't', 'f', '"', '[', '\x7b'] := by
  rcases h with rfl | h
  · decide
  · have hrange : 0x30 ≤ c.toNat ∧ c.toNat ≤ 0x39 := by simpa [isAsciiDigit] using h
    have hne : ∀ d : Char, ¬(0x30 ≤ d.toNat ∧ d.toNat ≤ 0x39) → c ≠ d := by
      rintro d hd rfl
      exact hd hrange
    refine ⟨?_, hne _ (by decide), ?_⟩
    · simp [isBlank, hne ' ' (by decide), hne '\t' (by decide), hne '\n' (by decide),
        hne '\r' (by decide)]
    · simp only [List.mem_cons, List.not_mem_nil, or_false, not_or]
      exact ⟨hne _ (by decide), hne _ (by decide), hne _ (by decide), hne _ (by decide),
        hne _ (by decide), hne _ (by decide)⟩

theorem isNumber_toString (n : Nat) : IsNumber (toString n) := by
  obtain ⟨d, ds, hdigits, hd⟩ := exists_toDigits n
  have htext : (toString n).toList = d :: ds := by rw [toList_toString, hdigits]
  have hall : ∀ c ∈ d :: ds, isAsciiDigit c := htext ▸ fun _ => isAsciiDigit_of_mem_toString
  refine ⟨⟨d, ds, htext, .inr hd⟩, fun rest hrest => ?_⟩
  have hminus : d ≠ '-' := by
    rintro rfl
    exact absurd hd (by decide)
  have hzero : d = '0' → ds = [] := by
    rintro rfl
    rcases Nat.eq_zero_or_pos n with rfl | hpos
    · cases hdigits
      rfl
    · exact absurd (by rw [hdigits]; rfl) (head?_toDigits_ne hpos)
  have hwhole := digits_append hall hrest
  rw [htext]
  rw [List.cons_append] at hwhole ⊢
  have hliteral : String.singleton d ++ String.ofList ds = n.repr := by
    rw [← String.toList_inj]
    simp [hdigits]
  cases rest with
  | nil =>
      rw [List.append_nil] at hwhole ⊢
      simpa [number?, hminus, hwhole, hliteral] using hzero
  | cons c rest =>
      have hc : c ≠ '.' ∧ c ≠ 'e' ∧ c ≠ 'E' := by
        rcases hrest c rfl with rfl | rfl | rfl <;> decide
      simpa [number?, hminus, hwhole, hliteral, hc] using hzero

end Numbers

section Values

mutual

/-- A value with numbers that can be read. -/
def WellFormed : Json → Prop
  | .number literal => IsNumber literal
  | .array items => WellFormedItems items
  | .object fields => WellFormedFields fields
  | .null | .bool _ | .string _ => True

def WellFormedItems : List Json → Prop
  | [] => True
  | item :: items => item.WellFormed ∧ WellFormedItems items

def WellFormedFields : List (String × Json) → Prop
  | [] => True
  | (_, value) :: fields => value.WellFormed ∧ WellFormedFields fields

end

/-- Texts with commas in between. -/
def joined (texts : List String) : List Char := [','].intercalate (texts.map String.toList)

theorem joined_singleton (text : String) : joined [text] = text.toList := List.intercalate_singleton

theorem joined_cons_cons (text next : String) (texts : List String) :
    joined (text :: next :: texts) = text.toList ++ ',' :: joined (next :: texts) := by
  simp [joined]

theorem exists_joined (text : String) (texts : List String) :
    ∃ others, joined (text :: texts) = text.toList ++ others := by
  cases texts with
  | nil => exact ⟨[], by rw [joined_singleton, List.append_nil]⟩
  | cons next texts => exact ⟨_, joined_cons_cons text next texts⟩

theorem toList_array (items : List Json) :
    (array items).render.toList = '[' :: (joined (renderItems items) ++ [']']) := by
  simp [render, joined, String.toList_intercalate]

theorem toList_object (fields : List (String × Json)) :
    (object fields).render.toList = '\x7b' :: (joined (renderFields fields) ++ ['\x7d']) := by
  simp [render, joined, String.toList_intercalate]

/-- What the text of a value begins with. -/
theorem exists_render {j : Json} (h : j.WellFormed) :
    ∃ c cs, j.render.toList = c :: cs ∧ isBlank c = false ∧ c ≠ ']' := by
  cases j with
  | null => exact ⟨'n', _, rfl, rfl, by decide⟩
  | bool value => cases value <;> exact ⟨_, _, rfl, rfl, by decide⟩
  | number literal =>
      obtain ⟨c, cs, hliteral, hc⟩ := h.head
      obtain ⟨hblank, hbracket, -⟩ := plain_of_begins hc
      exact ⟨c, cs, hliteral, hblank, hbracket⟩
  | string value => exact ⟨'"', _, toList_quote value, rfl, by decide⟩
  | array items => exact ⟨'[', _, toList_array items, rfl, by decide⟩
  | object fields => exact ⟨'\x7b', _, toList_object fields, rfl, by decide⟩

theorem skipBlanks_cons {c : Char} (h : isBlank c = false) (cs : List Char) :
    skipBlanks (c :: cs) = c :: cs := by
  simp [skipBlanks, h]

/-- What begins as no word, string, array or object does is read as a number. -/
theorem value?_of_plain {c : Char} (hblank : isBlank c = false)
    (hother : c ∉ ['n', 't', 'f', '"', '[', '\x7b']) (fuel : Nat) (cs : List Char) :
    value? (fuel + 1) (c :: cs) =
      (number? (c :: cs)).map fun (literal, rest) => (.number literal, rest) := by
  rw [value?, skipBlanks_cons hblank]
  split
  all_goals try
    next h =>
      refine absurd ?_ hother
      rw [(List.cons.inj h).1]
      decide
  rfl

theorem value?_number {literal : String} (h : IsNumber literal) (fuel : Nat) {rest : List Char}
    (hrest : Closes rest) :
    value? (fuel + 1) (literal.toList ++ rest) = some (.number literal, rest) := by
  have hreads := h.reads rest hrest
  obtain ⟨c, cs, hliteral, hc⟩ := h.head
  obtain ⟨hblank, -, hother⟩ := plain_of_begins hc
  rw [hliteral, List.cons_append] at hreads ⊢
  rw [value?_of_plain hblank hother, hreads]
  rfl

/-- Values whose text is no longer than there is fuel are read back. -/
def ReadsValues (fuel : Nat) : Prop := ∀ (j : Json) (rest : List Char), j.WellFormed →
  j.render.toList.length ≤ fuel → Closes rest →
    value? fuel (j.render.toList ++ rest) = some (j, rest)

def ReadsItems (fuel : Nat) : Prop := ∀ (items : List Json) (rest : List Char), items ≠ [] →
  WellFormedItems items → (joined (renderItems items)).length < fuel →
    items? fuel (joined (renderItems items) ++ ']' :: rest) = some (items, rest)

def ReadsFields (fuel : Nat) : Prop := ∀ (fields : List (String × Json)) (rest : List Char),
  fields ≠ [] → WellFormedFields fields → (joined (renderFields fields)).length < fuel →
    fields? fuel (joined (renderFields fields) ++ '\x7d' :: rest) = some (fields, rest)

variable {fuel : Nat}

theorem ReadsValues.items (hvalues : ReadsValues fuel) (hitems : ReadsItems fuel) :
    ReadsItems (fuel + 1) := by
  intro items rest hne h hfuel
  match items, hne with
  | [item], _ =>
      rw [renderItems, renderItems, joined_singleton] at hfuel ⊢
      have hitem := hvalues item (']' :: rest) h.1 (Nat.le_of_lt_succ hfuel) (by simp [Closes])
      simp [items?, hitem, skipBlanks_cons (c := ']') rfl]
  | item :: next :: items, _ =>
      rw [renderItems, renderItems, joined_cons_cons] at hfuel ⊢
      rw [List.length_append, List.length_cons] at hfuel
      have hitem := hvalues item
        (',' :: (joined (renderItems (next :: items)) ++ ']' :: rest)) h.1 (by omega)
        (by simp [Closes])
      have hrest := hitems (next :: items) rest (List.cons_ne_nil _ _) h.2 (by
        rw [renderItems]
        omega)
      rw [renderItems] at hitem hrest
      simp [items?, hitem, hrest, skipBlanks_cons (c := ',') rfl]

theorem toList_field (key : String) (value : Json) :
    (quote key ++ ":" ++ value.render).toList =
      '"' :: (key.toList.flatMap escape ++ '"' :: ':' :: value.render.toList) := by
  simp [toList_quote]

/-- A field that stands last in its object. -/
theorem fields?_last {key : String} {value : Json} {rest : List Char}
    (hvalue : value? fuel (value.render.toList ++ '\x7d' :: rest) = some (value, '\x7d' :: rest)) :
    fields? (fuel + 1) ((quote key ++ ":" ++ value.render).toList ++ '\x7d' :: rest) =
      some ([(key, value)], rest) := by
  have hkey := stringTail?_quote key (':' :: (value.render.toList ++ '\x7d' :: rest))
  rw [toList_field, List.cons_append, List.append_assoc]
  simp only [List.cons_append, fields?, skipBlanks_cons (c := '"') rfl, hkey,
    skipBlanks_cons (c := ':') rfl, Option.bind_eq_bind, Option.bind_some, hvalue,
    skipBlanks_cons (c := '\x7d') rfl]

/-- A field with another behind it. -/
theorem fields?_cons {key : String} {value : Json} {others : List Char}
    (hvalue : value? fuel (value.render.toList ++ ',' :: others) = some (value, ',' :: others)) :
    fields? (fuel + 1) ((quote key ++ ":" ++ value.render).toList ++ ',' :: others) =
      (fields? fuel others).map fun (fields, rest) => ((key, value) :: fields, rest) := by
  have hkey := stringTail?_quote key (':' :: (value.render.toList ++ ',' :: others))
  rw [toList_field, List.cons_append, List.append_assoc]
  simp only [List.cons_append, fields?, skipBlanks_cons (c := '"') rfl, hkey,
    skipBlanks_cons (c := ':') rfl, Option.bind_eq_bind, Option.bind_some, hvalue,
    skipBlanks_cons (c := ',') rfl]
  cases fields? fuel others <;> rfl

theorem ReadsValues.fields (hvalues : ReadsValues fuel) (hfields : ReadsFields fuel) :
    ReadsFields (fuel + 1) := by
  intro fields rest hne h hfuel
  rcases fields with _ | ⟨⟨key, value⟩, _ | ⟨next, fields⟩⟩
  · exact absurd rfl hne
  · rw [renderFields, renderFields, joined_singleton] at hfuel ⊢
    have hlength : value.render.toList.length ≤ fuel := by
      rw [toList_field] at hfuel
      simp only [List.length_cons, List.length_append] at hfuel
      omega
    exact fields?_last (hvalues value ('\x7d' :: rest) h.1 hlength (by simp [Closes]))
  · obtain ⟨nextKey, nextValue⟩ := next
    have hothers := hfields ((nextKey, nextValue) :: fields) rest (List.cons_ne_nil _ _) h.2
    rw [renderFields, renderFields] at hfuel ⊢
    rw [renderFields] at hothers
    rw [joined_cons_cons] at hfuel ⊢
    have hlengths : value.render.toList.length ≤ fuel ∧
        (joined ((quote nextKey ++ ":" ++ nextValue.render) :: renderFields fields)).length <
          fuel := by
      rw [toList_field] at hfuel
      simp only [List.length_cons, List.length_append] at hfuel
      omega
    rw [List.append_assoc, List.cons_append,
      fields?_cons (hvalues value _ h.1 hlengths.1 (by simp [Closes])), hothers hlengths.2]
    rfl

theorem ReadsItems.array (hitems : ReadsItems fuel) {items : List Json} (h : WellFormedItems items)
    (hfuel : (joined (renderItems items)).length < fuel) (rest : List Char) :
    value? (fuel + 1) ('[' :: (joined (renderItems items) ++ ']' :: rest)) =
      some (.array items, rest) := by
  cases items with
  | nil => rfl
  | cons item items =>
      have hread := hitems (item :: items) rest (List.cons_ne_nil _ _) h hfuel
      obtain ⟨c, cs, htext, hblank, hbracket⟩ := exists_render h.1
      obtain ⟨others, hjoined⟩ := exists_joined item.render (renderItems items)
      rw [renderItems, hjoined, htext] at hread ⊢
      simp only [List.cons_append, value?, skipBlanks_cons (c := '[') rfl,
        skipBlanks_cons hblank] at hread ⊢
      split
      · next h => exact absurd (List.cons.inj h).1 hbracket
      · rw [hread, Option.map_some]

theorem ReadsFields.object (hfields : ReadsFields fuel) {fields : List (String × Json)}
    (h : WellFormedFields fields) (hfuel : (joined (renderFields fields)).length < fuel)
    (rest : List Char) :
    value? (fuel + 1) ('\x7b' :: (joined (renderFields fields) ++ '\x7d' :: rest)) =
      some (.object fields, rest) := by
  rcases fields with _ | ⟨⟨key, value⟩, fields⟩
  · rfl
  · have hread := hfields ((key, value) :: fields) rest (List.cons_ne_nil _ _) h hfuel
    obtain ⟨others, hjoined⟩ :=
      exists_joined (quote key ++ ":" ++ value.render) (renderFields fields)
    rw [renderFields, hjoined, toList_field] at hread ⊢
    simp only [List.cons_append, value?, skipBlanks_cons (c := '\x7b') rfl,
      skipBlanks_cons (c := '"') rfl] at hread ⊢
    split
    · next h => exact absurd (List.cons.inj h).1 (by decide)
    · rw [hread, Option.map_some]

theorem ReadsItems.values (hitems : ReadsItems fuel) (hfields : ReadsFields fuel) :
    ReadsValues (fuel + 1) := by
  intro j rest h hfuel hrest
  cases j with
  | null => rfl
  | bool value => cases value <;> rfl
  | number literal => exact value?_number h fuel hrest
  | string value =>
      have hvalue := stringTail?_quote value rest
      rw [render, toList_quote, List.cons_append, List.append_assoc]
      simp only [value?, skipBlanks_cons (c := '"') rfl, List.singleton_append, hvalue,
        Option.map_some]
  | array items =>
      rw [toList_array] at hfuel ⊢
      have hlength : (joined (renderItems items)).length < fuel := by
        simp only [List.length_cons, List.length_append] at hfuel
        omega
      rw [List.cons_append, List.append_assoc]
      exact hitems.array h hlength rest
  | object fields =>
      rw [toList_object] at hfuel ⊢
      have hlength : (joined (renderFields fields)).length < fuel := by
        simp only [List.length_cons, List.length_append] at hfuel
        omega
      rw [List.cons_append, List.append_assoc]
      exact hfields.object h hlength rest

theorem reads_render (fuel : Nat) : ReadsValues fuel ∧ ReadsItems fuel ∧ ReadsFields fuel := by
  induction fuel with
  | zero =>
      refine ⟨?_, ?_, ?_⟩
      · intro j rest h hfuel
        obtain ⟨c, cs, htext, -⟩ := exists_render h
        rw [htext] at hfuel
        cases hfuel
      · exact fun _ _ _ _ hfuel => absurd hfuel (Nat.not_lt_zero _)
      · exact fun _ _ _ _ hfuel => absurd hfuel (Nat.not_lt_zero _)
  | succ fuel ih =>
      obtain ⟨hvalues, hitems, hfields⟩ := ih
      exact ⟨hitems.values hfields, hvalues.items hitems, hvalues.fields hfields⟩

/-- A written document is read back, given that its numbers can be. -/
theorem parse?_render {j : Json} (h : j.WellFormed) : parse? j.render = some j := by
  have hvalue := (reads_render (j.render.toList.length + 1)).1 j [] h (Nat.le_succ _)
    (by simp [Closes])
  rw [List.append_nil] at hvalue
  have hend : (skipBlanks []).isEmpty = true := rfl
  simp only [parse?, hvalue, Option.bind_eq_bind, Option.bind_some, hend, if_true]

theorem wellFormed_strings (texts : List String) : (strings texts).WellFormed := by
  rw [strings, WellFormed]
  induction texts with
  | nil => trivial
  | cons text texts ih => exact ⟨trivial, ih⟩

theorem nat?_ofNat (n : Nat) : (ofNat n).nat? = some n := by
  have hdigits : ∀ c ∈ (toString n).toList, isAsciiDigit c :=
    fun _ => isAsciiDigit_of_mem_toString
  rw [ofNat, nat?]
  simp only [List.all_eq_true.mpr hdigits, if_true, foldl_toString]

end Values

end Paydesk.Text.Json

import Mathlib.Tactic.SplitIfs
import Paydesk.Proofs.Text.Json
import Paydesk.Proofs.Text.Segments
import Paydesk.Rates.Documents

/-!
What a text is read as, and when the written form of that is read as the same pair: the
blanks at the ends of a text are no part of a pair, but inside of separators they are.
-/

namespace Paydesk.Rates.Pair

open Text

variable {text : String} {pair : Pair}

/-- The characters of a text that belong to codes. -/
def letters (text : String) : List Char := (trim text.toList).filter (!isSeparator ·)

/-- A code, or a part of one: what stands between separators. -/
def IsRun (cs : List Char) : Prop := cs ≠ [] ∧ ∀ c ∈ cs, ¬isSeparator c

theorem isSeparator_toUpper (c : Char) : isSeparator c.toUpper = isSeparator c := by
  have hchar (c d : Char) : c = d ↔ c.toNat = d.toNat := Char.toNat_inj.symm
  rw [Bool.eq_iff_iff]
  simp only [isSeparator, Bool.or_eq_true, beq_iff_eq, hchar, toNat_toUpper,
    show '_'.toNat = 0x5f from rfl, show '-'.toNat = 0x2d from rfl]
  split_ifs <;> omega

theorem IsRun.map_toUpper {cs : List Char} (h : IsRun cs) : IsRun (cs.map Char.toUpper) := by
  refine ⟨by simpa using h.1, ?_⟩
  intro c hc
  obtain ⟨d, hd, rfl⟩ := List.mem_map.mp hc
  rw [isSeparator_toUpper]
  exact h.2 d hd

theorem isRun_of_mem_segments {cs run : List Char} (h : run ∈ segments isSeparator cs) :
    IsRun run := by
  refine ⟨ne_nil_of_mem_segments cs run h, fun c hc => ?_⟩
  have hmem := List.mem_flatten_of_mem h hc
  rw [flatten_segments, List.mem_filter] at hmem
  simpa using hmem.2

theorem exists_take_of_splitCode? {code : List Char} (h : splitCode? code = some pair) :
    byteLength code ≤ 10 ∧ ∃ k, 0 < k ∧ k < code.length ∧
      pair = of (String.ofList (code.take k)) (String.ofList (code.drop k)) := by
  unfold splitCode? at h
  split_ifs at h with hbounds hsix <;>
    simp only [Bool.or_eq_true, Bool.not_eq_true', decide_eq_true_eq, not_or, Nat.not_lt,
      Bool.not_eq_false, List.all_eq_true] at hbounds <;>
    refine ⟨(byteLength_of_ascii hbounds.1.1).trans_le hbounds.2, ?_⟩
  · have hlength := eq_of_beq hsix
    exact ⟨3, by decide, by omega, (Option.some.inj h).symm⟩
  · obtain ⟨k, hk, rfl⟩ := Option.map_eq_some_iff.mp h
    have hmem := List.mem_of_find?_eq_some hk
    simp only [List.mem_cons, List.not_mem_nil, or_false] at hmem
    exact ⟨k, by omega, by omega, rfl⟩

theorem exists_runs_of_splitCode? {code : List Char} (hcode : IsRun code)
    (h : splitCode? code = some pair) : ∃ left right, IsRun left ∧ IsRun right ∧
      left ++ right = code ∧ byteLength (joinWith ['_'] [left, right]) ≤ maxLength ∧
      pair = of (String.ofList left) (String.ofList right) := by
  obtain ⟨hbytes, k, hpos, hlt, rfl⟩ := exists_take_of_splitCode? h
  refine ⟨code.take k, code.drop k, ⟨?_, ?_⟩, ⟨?_, ?_⟩, List.take_append_drop k code, ?_, rfl⟩
  · apply List.ne_nil_of_length_pos
    rw [List.length_take]
    omega
  · exact fun c hc => hcode.2 c (List.mem_of_mem_take hc)
  · apply List.ne_nil_of_length_pos
    rw [List.length_drop]
    omega
  · exact fun c hc => hcode.2 c (List.mem_of_mem_drop hc)
  · have hparts : byteLength (code.take k) + byteLength (code.drop k) = byteLength code := by
      rw [← byteLength_append, List.take_append_drop]
    have hseparator : byteLength ['_'] = 1 := by decide
    rw [joinWith_cons_cons, byteLength_append, byteLength_append, joinWith, maxLength]
    omega

/-- A pair is read from two codes or more. They have all the characters that belong to codes,
and with one separator between them they are not too long. -/
theorem exists_runs_of_parse? (h : parse? text = some pair) : ∃ left right more,
    (∀ run ∈ left :: right :: more, IsRun run) ∧
      (left :: right :: more).flatten = letters text ∧
      byteLength (joinWith ['_'] (left :: right :: more)) ≤ maxLength ∧
      pair = of (String.ofList left) (String.ofList (joinWith ['_'] (right :: more))) := by
  have hruns : ∀ run ∈ segments isSeparator (trim text.toList), IsRun run :=
    fun _ => isRun_of_mem_segments
  have hflatten : (segments isSeparator (trim text.toList)).flatten = letters text :=
    flatten_segments _
  have hjoined : byteLength (joinWith ['_'] (segments isSeparator (trim text.toList))) ≤
      byteLength (trim text.toList) := byteLength_joinWith_segments (by decide) _
  unfold parse? parse at h
  dsimp only at h
  split_ifs at h with hlong
  · cases h
  · split at h
    · cases h
    · next code hcode =>
      rw [hcode] at hruns hflatten
      split at h
      · next found hfound =>
        cases h
        obtain ⟨left, right, hleft, hright, hparts, hlength, rfl⟩ :=
          exists_runs_of_splitCode? (hruns code List.mem_cons_self) hfound
        refine ⟨left, right, [], ?_, ?_, hlength, rfl⟩
        · simp [hleft, hright]
        · simpa [hparts] using hflatten
      · cases h
    · next left rights hne hsegments =>
      cases h
      cases rights with
      | nil => exact absurd rfl hne
      | cons right more =>
          rw [hsegments] at hruns hflatten hjoined
          exact ⟨left, right, more, hruns, hflatten, hjoined.trans (Nat.not_lt.mp hlong), rfl⟩

theorem upper_of (left right : String) :
    of (Text.upper left) (Text.upper right) = of left right := by
  simp [of, upper_upper]

/-- The codes of a pair that was read are in upper case. -/
theorem of_sides_of_parse? (h : parse? text = some pair) : of pair.left pair.right = pair := by
  obtain ⟨left, right, more, -, -, -, rfl⟩ := exists_runs_of_parse? h
  exact upper_of _ _

theorem upper_ofList_joinWith (runs : List (List Char)) :
    String.ofList (joinWith ['_'] (runs.map (List.map Char.toUpper))) =
      Text.upper (String.ofList (joinWith ['_'] runs)) := by
  have hmap := joinWith_map Char.toUpper ['_'] runs
  rw [show ['_'].map Char.toUpper = ['_'] from rfl] at hmap
  rw [← hmap]
  simp [Text.upper]

section Render

variable {left right : List Char} {more : List (List Char)}

theorem render_of (left right : List Char) (more : List (List Char)) :
    (of (String.ofList left) (String.ofList (joinWith ['_'] (right :: more)))).render =
      String.ofList (joinWith ['_'] ((left :: right :: more).map (List.map Char.toUpper))) := by
  rw [upper_ofList_joinWith, joinWith_cons_cons]
  simp [render, of, Text.upper, String.ofList_append, String.append_assoc]

/-- A pair is read from its codes with one separator between them, if those begin and end
with no blank. -/
theorem parse?_joinWith (hruns : ∀ run ∈ left :: right :: more, IsRun run)
    (htrim : trim (joinWith ['_'] (left :: right :: more)) =
      joinWith ['_'] (left :: right :: more))
    (hlength : byteLength (joinWith ['_'] (left :: right :: more)) ≤ maxLength) :
    parse? (String.ofList (joinWith ['_'] (left :: right :: more))) =
      some (of (String.ofList left) (String.ofList (joinWith ['_'] (right :: more)))) := by
  have hsegments : segments isSeparator (joinWith ['_'] (left :: right :: more)) =
      left :: right :: more := segments_joinWith rfl hruns
  simp only [parse?, parse, String.toList_ofList, htrim, hsegments, if_neg (Nat.not_lt.mpr hlength)]
  rfl

end Render

/-- The written form of a pair that was read: its codes with one separator between them. -/
theorem exists_render_runs (h : parse? text = some pair) : ∃ left right more,
    (∀ run ∈ left :: right :: more, IsRun run) ∧
      (left :: right :: more).flatten = (letters text).map Char.toUpper ∧
      byteLength (joinWith ['_'] (left :: right :: more)) ≤ maxLength ∧
      pair.render.toList = joinWith ['_'] (left :: right :: more) ∧
      pair = of (String.ofList left) (String.ofList (joinWith ['_'] (right :: more))) := by
  obtain ⟨left, right, more, hruns, hflatten, hlength, rfl⟩ := exists_runs_of_parse? h
  refine ⟨left.map Char.toUpper, right.map Char.toUpper, more.map (List.map Char.toUpper),
    ?_, ?_, ?_, by rw [render_of, String.toList_ofList]; rfl, ?_⟩
  · rw [← List.map_cons, ← List.map_cons]
    exact List.forall_mem_map.mpr fun run hrun => (hruns run hrun).map_toUpper
  · rw [← hflatten, List.map_flatten]
    rfl
  · rw [← List.map_cons, ← List.map_cons, ← show ['_'].map Char.toUpper = ['_'] from rfl,
      ← joinWith_map, byteLength_map_toUpper]
    exact hlength
  · rw [← List.map_cons, upper_ofList_joinWith, ← upper_of (String.ofList left)]
    simp [Text.upper]

theorem filter_render (h : parse? text = some pair) :
    pair.render.toList.filter (!isSeparator ·) = (letters text).map Char.toUpper := by
  obtain ⟨left, right, more, hruns, hflatten, -, hrender, -⟩ := exists_render_runs h
  rw [hrender, ← flatten_segments, segments_joinWith rfl hruns, hflatten]

theorem ends_render (h : parse? text = some pair) :
    pair.render.toList.head? = (letters text).head?.map Char.toUpper ∧
      pair.render.toList.getLast? = (letters text).getLast?.map Char.toUpper := by
  obtain ⟨left, right, more, hruns, hflatten, -, hrender, -⟩ := exists_render_runs h
  rw [hrender, head?_joinWith (hruns left List.mem_cons_self).1,
    getLast?_joinWith fun run hrun => (hruns run hrun).1, hflatten, List.head?_map,
    List.getLast?_map]
  exact ⟨rfl, rfl⟩

theorem trim_render_iff (h : parse? text = some pair) :
    trim pair.render.toList = pair.render.toList ↔ trim (letters text) = letters text := by
  obtain ⟨hhead, hlast⟩ := ends_render h
  rw [trim_eq_self_iff, trim_eq_self_iff, hhead, hlast]
  simp [isBlank_toUpper]

/-- The written form of a pair is read as that pair if and only if no code that was read
begins or ends the pair with a blank. -/
theorem parse?_render_iff (h : parse? text = some pair) :
    parse? pair.render = some pair ↔ trim (letters text) = letters text := by
  rw [← trim_render_iff h]
  constructor
  · intro hagain
    -- Every character of the codes is there when the written form is read again.
    have hkept : (letters pair.render).map Char.toUpper = (letters text).map Char.toUpper :=
      (filter_render hagain).symm.trans (filter_render h)
    have hcount : (pair.render.toList.filter (!isSeparator ·)).length ≤
        (letters pair.render).length := by
      rw [filter_render h, ← hkept, List.length_map]
    obtain ⟨hhead, hlast⟩ := ends_render h
    have hletter : ∀ c ∈ (letters text).map Char.toUpper, !isSeparator c := by
      intro c hc
      rw [← filter_render h] at hc
      exact (List.mem_filter.mp hc).2
    apply trim_eq_self_iff.mpr
    refine not_isBlank_of_length_filter (fun c hc => hletter c ?_) (fun c hc => hletter c ?_) hcount
    · rw [hhead, ← List.head?_map] at hc
      exact List.mem_of_mem_head? hc
    · rw [hlast, ← List.getLast?_map] at hc
      exact List.mem_of_mem_getLast? hc
  · intro htrim
    obtain ⟨left, right, more, hruns, -, hlength, hrender, hpair⟩ := exists_render_runs h
    rw [hrender] at htrim
    rw [← String.ofList_toList (s := pair.render), hrender]
    exact (parse?_joinWith hruns htrim hlength).trans (congrArg some hpair.symm)

/-- Reading is stable: the written form of a pair that was read gives the same pair, and so
does its JSON form, but for a pair that begins or ends with a blank. -/
theorem reads_back_iff (h : parse? text = some pair) :
    (parse? pair.render = some pair ↔ trim (letters text) = letters text) ∧
      ((Json.parse? pair.toJson.render).bind ofJson? = some pair ↔
        trim (letters text) = letters text) := by
  have hjson : (Json.parse? pair.toJson.render).bind ofJson? = parse? pair.render := by
    have hdocument : Json.parse? pair.toJson.render = some pair.toJson := Json.parse?_render trivial
    rw [hdocument, Option.bind_some, ofJson?, toJson, Json.string?, Option.bind_some]
  rw [hjson]
  exact ⟨parse?_render_iff h, parse?_render_iff h⟩

/-- A blank that follows a separator becomes the beginning of a pair, and is lost when that
is read again; blanks around a text and within it are not. -/
theorem reads_back_unless_blank :
    (parse? "_ A_USD" = some ⟨" A", "USD"⟩ ∧ parse? (render ⟨" A", "USD"⟩) = some ⟨"A", "USD"⟩ ∧
      (Json.parse? (toJson ⟨" A", "USD"⟩).render).bind ofJson? ≠ some ⟨" A", "USD"⟩) ∧
    parse? " -a b--c_d " = some ⟨"A B", "C_D"⟩ ∧
      parse? (render ⟨"A B", "C_D"⟩) = some ⟨"A B", "C_D"⟩ ∧
      (Json.parse? (toJson ⟨"A B", "C_D"⟩).render).bind ofJson? = some ⟨"A B", "C_D"⟩ := by
  have hlost : parse? "_ A_USD" = some ⟨" A", "USD"⟩ := by decide +kernel
  have hkept : parse? " -a b--c_d " = some ⟨"A B", "C_D"⟩ := by decide +kernel
  refine ⟨⟨hlost, by decide +kernel, ?_⟩, hkept, ?_, ?_⟩
  · rw [ne_eq, (reads_back_iff hlost).2]
    decide +kernel
  · exact (reads_back_iff hkept).1.mpr (by decide +kernel)
  · exact (reads_back_iff hkept).2.mpr (by decide +kernel)

end Paydesk.Rates.Pair

import Mathlib.Data.List.Basic
import Paydesk.Text.Blank

/-!
Texts split at separators and joined again, and what is the same of them in either case.
-/

namespace Paydesk

namespace Text

section Segments

variable {isSeparator : Char → Bool} {c d e : Char} {cs run : List Char}

attribute [local simp] segments

theorem segments_separator (hc : isSeparator c) :
    segments isSeparator (c :: cs) = segments isSeparator cs := by
  simp [hc]

theorem segments_singleton (hc : ¬isSeparator c) : segments isSeparator [c] = [[c]] := by
  simp [hc]

theorem segments_cons_separator (hc : ¬isSeparator c) (hd : isSeparator d) :
    segments isSeparator (c :: d :: cs) = [c] :: segments isSeparator cs := by
  simp [hc, hd]

theorem segments_cons_cons (hc : ¬isSeparator c) (hd : ¬isSeparator d) {runs : List (List Char)}
    (h : segments isSeparator (d :: cs) = run :: runs) :
    segments isSeparator (c :: d :: cs) = (c :: run) :: runs := by
  rw [segments, if_neg hc, h]
  exact if_neg hd

theorem exists_segments_cons (hc : ¬isSeparator c) (cs : List Char) :
    ∃ run runs, segments isSeparator (c :: cs) = (c :: run) :: runs := by
  induction cs generalizing c with
  | nil => exact ⟨[], [], segments_singleton hc⟩
  | cons d cs ih =>
      by_cases hd : isSeparator d
      · exact ⟨[], _, segments_cons_separator hc hd⟩
      · obtain ⟨run, runs, h⟩ := ih hd
        exact ⟨d :: run, runs, segments_cons_cons hc hd h⟩

theorem segments_run (hne : run ≠ []) (hrun : ∀ d ∈ run, ¬isSeparator d) :
    segments isSeparator run = [run] := by
  induction run with
  | nil => exact absurd rfl hne
  | cons d run ih =>
      obtain ⟨hd, hrun⟩ := List.forall_mem_cons.mp hrun
      cases run with
      | nil => exact segments_singleton hd
      | cons e run =>
          exact segments_cons_cons hd (hrun e List.mem_cons_self) (ih (List.cons_ne_nil _ _) hrun)

theorem segments_run_append (hne : run ≠ []) (hrun : ∀ d ∈ run, ¬isSeparator d)
    (hc : isSeparator c) :
    segments isSeparator (run ++ c :: cs) = run :: segments isSeparator cs := by
  induction run with
  | nil => exact absurd rfl hne
  | cons d run ih =>
      obtain ⟨hd, hrun⟩ := List.forall_mem_cons.mp hrun
      cases run with
      | nil => exact segments_cons_separator hd hc
      | cons e run =>
          exact segments_cons_cons hd (hrun e List.mem_cons_self) (ih (List.cons_ne_nil _ _) hrun)

/-- Runs are found again when they are joined. -/
theorem segments_joinWith {runs : List (List Char)} (hc : isSeparator c)
    (hruns : ∀ run ∈ runs, run ≠ [] ∧ ∀ d ∈ run, ¬isSeparator d) :
    segments isSeparator (joinWith [c] runs) = runs := by
  induction runs with
  | nil => rfl
  | cons run runs ih =>
      obtain ⟨⟨hne, hrun⟩, hruns⟩ := List.forall_mem_cons.mp hruns
      cases runs with
      | nil => exact segments_run hne hrun
      | cons next runs =>
          rw [joinWith, List.append_assoc, List.singleton_append,
            segments_run_append hne hrun hc, ih hruns]
          exact List.cons_ne_nil _ _

/-- What holds of a text and its runs, if every character leads from what comes behind it. -/
theorem segments_induction {motive : List Char → List (List Char) → Prop} (nil : motive [] [])
    (skip : ∀ {c cs runs}, isSeparator c → motive cs runs → motive (c :: cs) runs)
    (last : ∀ {c}, ¬isSeparator c → motive [c] [[c]])
    (close : ∀ {c d cs runs}, ¬isSeparator c → isSeparator d → motive cs runs →
      motive (c :: d :: cs) ([c] :: runs))
    (extend : ∀ {c cs run runs}, ¬isSeparator c → motive cs (run :: runs) →
      motive (c :: cs) ((c :: run) :: runs)) : ∀ cs, motive cs (segments isSeparator cs)
  | [] => nil
  | [c] => by
      by_cases hc : isSeparator c
      · rw [segments_separator hc]
        exact skip hc nil
      · rw [segments_singleton hc]
        exact last hc
  | c :: d :: cs => by
      by_cases hc : isSeparator c
      · rw [segments_separator hc]
        exact skip hc (segments_induction nil skip last close extend (d :: cs))
      · by_cases hd : isSeparator d
        · rw [segments_cons_separator hc hd]
          exact close hc hd (segments_induction nil skip last close extend cs)
        · obtain ⟨run, runs, h⟩ := exists_segments_cons hd cs
          have hrest := segments_induction nil skip last close extend (d :: cs)
          rw [h] at hrest
          rw [segments_cons_cons hc hd h]
          exact extend hc hrest

theorem flatten_segments (cs : List Char) :
    (segments isSeparator cs).flatten = cs.filter (!isSeparator ·) := by
  refine segments_induction (motive := fun cs runs => runs.flatten = cs.filter (!isSeparator ·))
    rfl ?_ ?_ ?_ ?_ cs
  · intro c cs runs hc ih
    simp [hc, ih]
  · intro c hc
    simp [hc]
  · intro c d cs runs hc hd ih
    simp [hc, hd, ih]
  · intro c cs run runs hc ih
    rw [List.flatten_cons] at ih
    simp [hc, ← ih]

theorem ne_nil_of_mem_segments (cs : List Char) : ∀ run ∈ segments isSeparator cs, run ≠ [] := by
  refine segments_induction (motive := fun _ runs => ∀ run ∈ runs, run ≠ [])
    (List.forall_mem_nil _) ?_ ?_ ?_ ?_ cs
  · exact fun _ ih => ih
  · exact fun _ => List.forall_mem_singleton.mpr (List.cons_ne_nil _ _)
  · exact fun _ _ ih => List.forall_mem_cons.mpr ⟨List.cons_ne_nil _ _, ih⟩
  · exact fun _ ih => List.forall_mem_cons.mpr
      ⟨List.cons_ne_nil _ _, (List.forall_mem_cons.mp ih).2⟩

theorem joinWith_cons_cons (separator run next : List Char) (runs : List (List Char)) :
    joinWith separator (run :: next :: runs) =
      run ++ separator ++ joinWith separator (next :: runs) := rfl

theorem head?_joinWith {separator : List Char} {runs : List (List Char)} (hne : run ≠ []) :
    (joinWith separator (run :: runs)).head? = (run :: runs).flatten.head? := by
  obtain ⟨c, run, rfl⟩ := List.exists_cons_of_ne_nil hne
  cases runs <;> simp [joinWith]

theorem getLast?_joinWith {separator : List Char} {runs : List (List Char)}
    (hruns : ∀ run ∈ runs, run ≠ []) :
    (joinWith separator runs).getLast? = runs.flatten.getLast? := by
  induction runs with
  | nil => rfl
  | cons run runs ih =>
      obtain ⟨-, hrest⟩ := List.forall_mem_cons.mp hruns
      cases runs with
      | nil => simp [joinWith]
      | cons next runs =>
          have hnext : (next :: runs).flatten ≠ [] := by
            simp [(List.forall_mem_cons.mp hrest).1]
          obtain ⟨last, hlast⟩ := Option.ne_none_iff_exists'.mp (mt List.getLast?_eq_none_iff.mp hnext)
          rw [joinWith_cons_cons, List.getLast?_append, ih hrest, hlast, Option.some_or,
            List.flatten_cons, List.getLast?_append, hlast, Option.some_or]

theorem byteLength_append (cs ds : List Char) :
    byteLength (cs ++ ds) = byteLength cs + byteLength ds := by
  simp [byteLength]

theorem byteLength_joinWith_cons (run : List Char) (runs : List (List Char)) :
    byteLength (joinWith [e] (run :: runs)) ≤
      byteLength run + e.utf8Size + byteLength (joinWith [e] runs) := by
  cases runs with
  | nil => simp [joinWith, Nat.add_assoc]
  | cons next runs =>
      rw [joinWith_cons_cons, byteLength_append, byteLength_append]
      exact Nat.le_refl _

/-- Joined by a separator of one byte each, the runs are no longer than before. -/
theorem byteLength_joinWith_segments (he : e.utf8Size = 1) (cs : List Char) :
    byteLength (joinWith [e] (segments isSeparator cs)) ≤ byteLength cs := by
  have hcons (c : Char) (cs : List Char) : byteLength (c :: cs) = c.utf8Size + byteLength cs := rfl
  refine segments_induction
    (motive := fun cs runs => byteLength (joinWith [e] runs) ≤ byteLength cs)
    (Nat.le_refl _) ?_ ?_ ?_ ?_ cs
  · intro c cs runs _ ih
    rw [hcons]
    omega
  · exact fun _ => Nat.le_refl _
  · intro c d cs runs _ _ ih
    have hjoined := byteLength_joinWith_cons (e := e) [c] runs
    have hd := d.utf8Size_pos
    rw [hcons c []] at hjoined
    rw [hcons, hcons]
    change _ ≤ c.utf8Size + 0 + _ + _ at hjoined
    omega
  · intro c cs run runs _ ih
    have hfront : joinWith [e] ((c :: run) :: runs) = c :: joinWith [e] (run :: runs) := by
      cases runs <;> rfl
    rw [hfront, hcons, hcons]
    omega

theorem joinWith_map (f : Char → Char) (separator : List Char) : ∀ runs : List (List Char),
    (joinWith separator runs).map f = joinWith (separator.map f) (runs.map (List.map f))
  | [] => rfl
  | [_] => rfl
  | run :: next :: runs => by
      have hrest := joinWith_map f separator (next :: runs)
      simp only [List.map_cons, joinWith_cons_cons, List.map_append] at hrest ⊢
      rw [hrest]

end Segments

section Bytes

variable {cs : List Char}

theorem byteLength_of_ascii (h : ∀ c ∈ cs, isAscii c) : byteLength cs = cs.length := by
  induction cs with
  | nil => rfl
  | cons c cs ih =>
      obtain ⟨hc, hcs⟩ := List.forall_mem_cons.mp h
      have hsize : c.utf8Size = 1 := by
        have hascii : c.toNat < 128 := by simpa [isAscii] using hc
        exact Char.utf8Size_eq_one_iff.mpr (Nat.le_of_lt_succ hascii)
      have hrest := ih hcs
      simp only [byteLength, List.map_cons, total_cons, List.length_cons] at hrest ⊢
      omega

end Bytes

section Trim

variable {c : Char} {cs : List Char}

theorem trim_sublist (cs : List Char) : (trim cs).Sublist cs := by
  rw [trim, ← List.reverse_sublist, List.reverse_reverse]
  exact (List.dropWhile_sublist _).trans (List.reverse_sublist.mpr (List.dropWhile_sublist _))

theorem trim_cons_blank (hc : isBlank c) (cs : List Char) : trim (c :: cs) = trim cs := by
  rw [trim, List.dropWhile_cons_of_pos hc, trim]

theorem trim_concat_blank (hc : isBlank c) (cs : List Char) : trim (cs ++ [c]) = trim cs := by
  rw [trim, trim, List.dropWhile_append]
  split_ifs with hnone
  · simp [hc, List.isEmpty_iff.mp hnone]
  · rw [List.reverse_append, List.reverse_singleton, List.singleton_append,
      List.dropWhile_cons_of_pos hc]

/-- Nothing is taken off if there are no blanks at the ends. -/
theorem trim_of_ends (hhead : ∀ c ∈ cs.head?, ¬isBlank c)
    (hlast : ∀ c ∈ cs.getLast?, ¬isBlank c) : trim cs = cs := by
  have hdrop : ∀ ds : List Char, (∀ c ∈ ds.head?, ¬isBlank c) → ds.dropWhile isBlank = ds := by
    intro ds hds
    cases ds with
    | nil => rfl
    | cons d ds => exact List.dropWhile_cons_of_neg (hds d rfl)
  rw [trim, hdrop cs hhead, hdrop, List.reverse_reverse]
  rwa [List.head?_reverse]

/-- If the ends are of a kind of which nothing is taken off, there are no blanks at the ends. -/
theorem not_isBlank_of_length_filter {p : Char → Bool} (hhead : ∀ c ∈ cs.head?, p c)
    (hlast : ∀ c ∈ cs.getLast?, p c) (h : (cs.filter p).length ≤ ((trim cs).filter p).length) :
    (∀ c ∈ cs.head?, ¬isBlank c) ∧ ∀ c ∈ cs.getLast?, ¬isBlank c := by
  have hkept (ds : List Char) : ((trim ds).filter p).length ≤ (ds.filter p).length :=
    ((trim_sublist ds).filter p).length_le
  constructor
  · intro c hc hblank
    obtain ⟨rest, rfl⟩ := List.head?_eq_some_iff.mp hc
    have hrest := hkept rest
    rw [trim_cons_blank hblank, List.filter_cons_of_pos (hhead c hc), List.length_cons] at h
    omega
  · intro c hc hblank
    obtain ⟨rest, rfl⟩ := List.getLast?_eq_some_iff.mp hc
    have hrest := hkept rest
    rw [trim_concat_blank hblank, List.filter_append, List.length_append,
      List.filter_cons_of_pos (hlast c hc), List.length_cons] at h
    omega

theorem trim_eq_self_iff : trim cs = cs ↔
    (∀ c ∈ cs.head?, ¬isBlank c) ∧ ∀ c ∈ cs.getLast?, ¬isBlank c := by
  constructor
  · intro h
    apply not_isBlank_of_length_filter (p := fun _ => true) (by simp) (by simp)
    simp [h]
  · rintro ⟨hhead, hlast⟩
    exact trim_of_ends hhead hlast

theorem trim_of_no_blank (h : ∀ c ∈ cs, ¬isBlank c) : trim cs = cs :=
  trim_of_ends (fun c hc => h c (List.mem_of_mem_head? hc))
    fun c hc => h c (List.mem_of_mem_getLast? hc)

end Trim

section Case

theorem toNat_toUpper (c : Char) : c.toUpper.toNat =
    if 0x61 ≤ c.toNat ∧ c.toNat ≤ 0x7a then c.toNat - 0x20 else c.toNat := by
  have hval : c.val.toNat = c.toNat := rfl
  unfold Char.toUpper
  simp only [UInt32.le_iff_toNat_le, show 'a'.val.toNat = 0x61 from rfl,
    show 'z'.val.toNat = 0x7a from rfl, hval]
  split_ifs with h
  · change (c.val + ('A'.val - 'a'.val)).toNat = _
    rw [UInt32.toNat_add, show ('A'.val - 'a'.val).toNat = 0xffffffe0 from rfl, hval]
    omega
  · rfl

theorem toNat_toLower (c : Char) : c.toLower.toNat =
    if 0x41 ≤ c.toNat ∧ c.toNat ≤ 0x5a then c.toNat + 0x20 else c.toNat := by
  have hval : c.val.toNat = c.toNat := rfl
  unfold Char.toLower
  simp only [UInt32.le_iff_toNat_le, show 'A'.val.toNat = 0x41 from rfl,
    show 'Z'.val.toNat = 0x5a from rfl, hval]
  split_ifs with h
  · change (c.val + ('a'.val - 'A'.val)).toNat = _
    rw [UInt32.toNat_add, show ('a'.val - 'A'.val).toNat = 0x20 from rfl, hval]
    omega
  · rfl

theorem upper_upper (text : String) : upper (upper text) = upper text := by
  have hchar : ∀ c : Char, c.toUpper.toUpper = c.toUpper := by
    intro c
    apply Char.toNat_inj.mp
    rw [toNat_toUpper c.toUpper, toNat_toUpper c]
    split_ifs <;> omega
  simp only [upper, String.toList_ofList, List.map_map, Function.comp_def, hchar]

theorem isBlank_toUpper (c : Char) : isBlank c.toUpper = isBlank c := by
  rw [Bool.eq_iff_iff]
  simp only [isBlank, Bool.or_eq_true, Bool.and_eq_true, decide_eq_true_eq, beq_iff_eq,
    toNat_toUpper]
  split_ifs <;> omega

theorem utf8Size_toUpper (c : Char) : c.toUpper.utf8Size = c.utf8Size := by
  by_cases h : 0x61 ≤ c.toNat ∧ c.toNat ≤ 0x7a
  · have hupper : c.toUpper.toNat ≤ 127 := by
      rw [toNat_toUpper, if_pos h]
      omega
    have hlower : c.toNat ≤ 127 := by omega
    rw [Char.utf8Size_eq_one_iff.mpr hupper, Char.utf8Size_eq_one_iff.mpr hlower]
  · rw [Char.toNat_inj.mp ((toNat_toUpper c).trans (if_neg h))]

theorem byteLength_map_toUpper (cs : List Char) :
    byteLength (cs.map Char.toUpper) = byteLength cs := by
  simp [byteLength, Function.comp_def, utf8Size_toUpper]

/-- The letters and digits of currency codes. -/
def IsCodeChar (c : Char) : Prop := isAsciiLetter c ∨ isAsciiDigit c

theorem isCodeChar_iff {c : Char} : IsCodeChar c ↔
    (0x41 ≤ c.toNat ∧ c.toNat ≤ 0x5a ∨ 0x61 ≤ c.toNat ∧ c.toNat ≤ 0x7a) ∨
      0x30 ≤ c.toNat ∧ c.toNat ≤ 0x39 := by
  simp [IsCodeChar, isAsciiLetter, isAsciiDigit]

theorem IsCodeChar.toUpper {c : Char} (h : IsCodeChar c) : IsCodeChar c.toUpper := by
  rw [isCodeChar_iff] at h ⊢
  rw [toNat_toUpper]
  split_ifs <;> omega

end Case

end Text

end Paydesk

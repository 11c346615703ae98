import Mathlib.Data.List.Basic
import Mathlib.Data.Nat.Digits.Defs
import Paydesk.Proofs.Decimal.Sign
import Paydesk.Proofs.Text.Digits
import Paydesk.Decimal.Read

/-!
What is read of the digits of a number, and that a decimal is read back as it was
written, with all its places.
-/

namespace Paydesk

namespace Decimal

open Text

namespace Reading

/-- A reading after further digits. -/
def through (r : Reading) (ds : List Char) : Reading :=
  ⟨Nat.ofDigitChars 10 ds r.mantissa, if r.point then r.scale + ds.length else 0, r.point,
    r.digits || !ds.isEmpty⟩

theorem through_nil {r : Reading} (h : r.point = false → r.scale = 0) : r.through [] = r := by
  obtain ⟨mantissa, scale, point, digits⟩ := r
  cases point <;> simp_all [through]

end Reading

theorem readDigits_nil (negative : Bool) (r : Reading) :
    readDigits negative r [] = r.finish negative := rfl

/-- Digits for which there is room are all read. -/
theorem readDigits_append (negative : Bool) {ds : List Char} (hds : ∀ c ∈ ds, isAsciiDigit c)
    (rest : List Char) {r : Reading} (hscale : r.point = false → r.scale = 0)
    (hplaces : r.point → r.scale + ds.length ≤ maxScale)
    (hfits : Nat.ofDigitChars 10 ds r.mantissa < mantissaLimit) :
    readDigits negative r (ds ++ rest) = readDigits negative (r.through ds) rest := by
  induction ds generalizing r with
  | nil => rw [List.nil_append, Reading.through_nil hscale]
  | cons c ds ih =>
      obtain ⟨hc, hrest⟩ := List.forall_mem_cons.mp hds
      have hvalue : Nat.ofDigitChars 10 (c :: ds) r.mantissa =
          Nat.ofDigitChars 10 ds (r.mantissa * 10 + digitValue c) := by
        rw [Nat.ofDigitChars_cons, mul_comm, digitValue_eq]
      rw [hvalue] at hfits
      have hlater : r.point = true → r.scale + 1 + ds.length ≤ maxScale := by
        intro hpoint
        have := hplaces hpoint
        rw [List.length_cons] at this
        omega
      have hroom : ¬(r.point && maxScale ≤ r.scale) := by
        simp only [Bool.and_eq_true, decide_eq_true_eq]
        rintro ⟨hpoint, hfull⟩
        have := hlater hpoint
        omega
      have hnext : r.mantissa * 10 + digitValue c < mantissaLimit :=
        (le_ofDigitChars ds _).trans_lt hfits
      rw [List.cons_append, readDigits, if_neg hroom, if_pos hc]
      dsimp only
      rw [if_pos hnext, ih hrest (by simp +contextual) ?_ hfits]
      · congr 1
        simp only [Reading.through, hvalue, List.length_cons]
        cases r.point <;> simp [Nat.add_assoc, Nat.add_comm ds.length 1]
      · intro hpoint
        dsimp only at hpoint ⊢
        rw [if_pos hpoint]
        exact hlater hpoint

theorem finish_eq_ok {mantissa scale : Nat} (hmantissa : mantissa < mantissaLimit)
    (hscale : scale ≤ 28) (point : Bool) :
    Reading.finish false ⟨mantissa, scale, point, true⟩ =
      .ok ⟨false, mantissa, scale, hmantissa, hscale⟩ := by
  simp [Reading.finish, ofParts?, hmantissa, hscale]

/-- What begins with a digit has no sign. -/
theorem read_unsigned {c : Char} (hc : isAsciiDigit c) (cs : List Char) :
    read (c :: cs) = readDigits false ⟨0, 0, false, false⟩ (c :: cs) := by
  rw [read]
  · rintro ⟨⟩
  · rintro cs ⟨⟩
    exact absurd hc (by decide)
  · rintro cs ⟨⟩
    exact absurd hc (by decide)

theorem ofDigitChars_lt {ds : List Char} (h : ∀ c ∈ ds, isAsciiDigit c) :
    Nat.ofDigitChars 10 ds 0 < 10 ^ ds.length := by
  induction ds with
  | nil => exact Nat.one_pos
  | cons c ds ih =>
      obtain ⟨hc, hds⟩ := List.forall_mem_cons.mp h
      have hrest := ih hds
      have hdigit : c.toNat - '0'.toNat ≤ 9 := by
        simp only [isAsciiDigit, Bool.and_eq_true, decide_eq_true_eq] at hc
        have hzero : '0'.toNat = 0x30 := rfl
        omega
      have hscaled := Nat.mul_le_mul_left (10 ^ ds.length) hdigit
      rw [Nat.ofDigitChars_cons, Nat.ofDigitChars_eq_ofDigitChars_zero, Nat.mul_zero, Nat.zero_add,
        List.length_cons, pow_succ]
      omega

/-- A few digits alone are read as a number. -/
theorem exists_read_digits {ds : List Char} (hne : ds ≠ []) (hds : ∀ c ∈ ds, isAsciiDigit c)
    (hlength : ds.length ≤ maxScale) : ∃ d, read ds = .ok d := by
  obtain ⟨c, cs, rfl⟩ := List.exists_cons_of_ne_nil hne
  have hfits : Nat.ofDigitChars 10 (c :: cs) 0 < mantissaLimit := by
    refine (ofDigitChars_lt hds).trans_le ?_
    exact (Nat.pow_le_pow_right (by decide) hlength).trans (by decide)
  have hread := readDigits_append false hds [] (r := ⟨0, 0, false, false⟩) (fun _ => rfl)
    (by simp) hfits
  rw [List.append_nil] at hread
  refine ⟨⟨false, _, 0, hfits, Nat.zero_le _⟩, ?_⟩
  rw [read_unsigned (hds c List.mem_cons_self), hread, readDigits_nil]
  exact finish_eq_ok hfits _ _

section Render

variable (width n : Nat)

theorem ofDigitChars_paddedDigits : Nat.ofDigitChars 10 (paddedDigits width n) 0 = n := by
  simp [paddedDigits, Nat.ofDigitChars_append]

theorem isAsciiDigit_of_mem_paddedDigits {c : Char} (h : c ∈ paddedDigits width n) :
    isAsciiDigit c := by
  rcases List.mem_append.mp h with hzero | hdigit
  · rw [List.eq_of_mem_replicate hzero]
    decide
  · exact isAsciiDigit_iff.mpr (Nat.isDigit_of_mem_toDigits (by decide) (by decide) hdigit)

theorem le_length_paddedDigits : width ≤ (paddedDigits width n).length := by
  simp only [paddedDigits, List.length_append, List.length_replicate]
  omega

end Render

/-- The digits before the point, and those behind it. -/
def parts (d : Decimal) : List Char × List Char :=
  let digits := paddedDigits (d.scale + 1) d.mantissa
  digits.splitAt (digits.length - d.scale)

section Parts

variable (d : Decimal)

theorem parts_append : d.parts.1 ++ d.parts.2 = paddedDigits (d.scale + 1) d.mantissa := by
  simp [parts]

theorem parts_fst_ne_nil : d.parts.1 ≠ [] := by
  have := le_length_paddedDigits (d.scale + 1) d.mantissa
  rw [← List.length_pos_iff_ne_nil]
  simp only [parts, List.splitAt_eq, List.length_take]
  omega

theorem length_parts_snd : d.parts.2.length = d.scale := by
  have := le_length_paddedDigits (d.scale + 1) d.mantissa
  simp only [parts, List.splitAt_eq, List.length_drop]
  omega

theorem isAsciiDigit_of_mem_parts {c : Char} (h : c ∈ d.parts.1 ++ d.parts.2) :
    isAsciiDigit c := by
  rw [parts_append] at h
  exact isAsciiDigit_of_mem_paddedDigits _ _ h

theorem toList_render : d.render.toList = (if d.negative then ['-'] else []) ++ d.parts.1 ++
    if d.scale = 0 then [] else '.' :: d.parts.2 := by
  simp [render, parts]

end Parts

/-- A decimal without a sign is read back from its written form. -/
theorem read_render {d : Decimal} (h : d.negative = false) : read d.render.toList = .ok d := by
  obtain ⟨hwhole, hfraction⟩ := List.forall_mem_append.mp fun c => d.isAsciiDigit_of_mem_parts
  have hvalue : Nat.ofDigitChars 10 d.parts.2 (Nat.ofDigitChars 10 d.parts.1 0) = d.mantissa := by
    rw [← Nat.ofDigitChars_append, parts_append, ofDigitChars_paddedDigits]
  have hdigits : (!d.parts.1.isEmpty) = true := by
    simp [d.parts_fst_ne_nil]
  have hunsigned : read d.render.toList =
      readDigits false ⟨0, 0, false, false⟩ d.render.toList := by
    obtain ⟨c, cs, hcons⟩ := List.exists_cons_of_ne_nil d.parts_fst_ne_nil
    rw [toList_render, h, hcons]
    exact read_unsigned (hwhole c (by simp [hcons])) _
  have hbefore := readDigits_append false hwhole (if d.scale = 0 then [] else '.' :: d.parts.2)
    (r := ⟨0, 0, false, false⟩) (fun _ => rfl) (by simp)
    ((le_ofDigitChars d.parts.2 _).trans_lt (hvalue ▸ d.mantissa_lt))
  rw [hunsigned, toList_render, h, if_neg Bool.false_ne_true, List.nil_append, hbefore]
  simp only [Reading.through, hdigits, Bool.or_true, Bool.false_eq_true, if_false]
  by_cases hscale : d.scale = 0
  · have hnone : d.parts.2 = [] := List.length_eq_zero_iff.mp (d.length_parts_snd.trans hscale)
    rw [hnone, Nat.ofDigitChars_nil] at hvalue
    rw [if_pos hscale, readDigits_nil, hvalue, ← hscale, finish_eq_ok d.mantissa_lt d.scale_le, ← h]
  · have hbehind := readDigits_append false hfraction []
      (r := ⟨Nat.ofDigitChars 10 d.parts.1 0, 0, true, true⟩) (by simp)
      (fun _ => by simpa [length_parts_snd, maxScale] using d.scale_le) (hvalue ▸ d.mantissa_lt)
    rw [if_neg hscale, readDigits, if_neg (by simp), if_neg (by decide), if_pos (by simp)]
    dsimp only
    rw [List.append_nil] at hbehind
    rw [hbehind, readDigits_nil]
    simp only [Reading.through, hvalue, length_parts_snd, Nat.zero_add, Bool.true_or, if_true]
    rw [finish_eq_ok d.mantissa_lt d.scale_le, ← h]

section Sign

variable {d : Decimal} {r : Reading}

theorem nonnegative_of_finish (h : r.finish false = .ok d) : d.negative = false := by
  unfold Reading.finish at h
  split_ifs at h
  split at h
  · next hparts =>
    cases h
    exact nonnegative_of_ofParts? hparts
  · cases h

theorem nonnegative_of_round {next : Char} (h : r.round false next = .ok d) :
    d.negative = false := by
  unfold Reading.round at h
  dsimp only at h
  split_ifs at h <;> first | cases h | exact nonnegative_of_finish h

theorem nonnegative_of_readDigits {cs : List Char} (h : readDigits false r cs = .ok d) :
    d.negative = false := by
  induction cs generalizing r with
  | nil => exact nonnegative_of_finish h
  | cons c cs ih =>
      unfold readDigits at h
      dsimp only at h
      split_ifs at h <;> first | exact nonnegative_of_round h | exact ih h

/-- Only a sign in front makes a number negative. -/
theorem nonnegative_of_read {c : Char} {cs : List Char} (hc : c ≠ '-')
    (h : read (c :: cs) = .ok d) : d.negative = false := by
  unfold read at h
  split at h
  · cases h
  · next heq =>
    cases heq
    exact absurd rfl hc
  · exact nonnegative_of_readDigits h
  · exact nonnegative_of_readDigits h

end Sign

end Decimal

end Paydesk

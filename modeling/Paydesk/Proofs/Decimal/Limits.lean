import Paydesk.Proofs.Decimal.Quotient

/-!
Where products and quotients end: there is one unless it is rounded past the
largest mantissa. How far the rounded number is from the exact one.
-/

namespace Paydesk.Decimal

/-- A magnitude that is not rounded past the largest mantissa. The least magnitude that
is lies in the middle between two integers, of which the limit is the even one. -/
def InReach (x : ℚ) : Prop := |x| < mantissaLimit - 1 / 2

section Reach

variable {x y : ℚ} {n : ℤ}

theorem Nearest.lt_limit_iff (h : Nearest x n) :
    n < mantissaLimit ↔ x < mantissaLimit - 1 / 2 := by
  have hlower := h.lower
  have hupper := h.upper
  constructor
  · intro hlt
    have hle : (n : ℚ) ≤ mantissaLimit - 1 := by exact_mod_cast Int.le_sub_one_of_lt hlt
    refine lt_of_le_of_ne (by linarith) fun hmiddle => ?_
    have hlast : (n : ℚ) = mantissaLimit - 1 := le_antisymm hle (by linarith)
    have heven := h.even (.inr (by linarith))
    have hlast : n = (mantissaLimit : ℤ) - 1 := by exact_mod_cast hlast
    simp only [mantissaLimit] at hlast
    omega
  · intro hlt
    have : (n : ℚ) < mantissaLimit := by linarith
    exact_mod_cast this

theorem InReach.mono (h : InReach y) (hle : |x| ≤ |y|) : InReach x := lt_of_le_of_lt hle h

theorem inReach_withSign (negative : Bool) (x : ℚ) : InReach (withSign negative x) ↔ InReach x := by
  cases negative <;> simp [InReach, withSign]

theorem inReach_iff_of_nonneg (hx : 0 ≤ x) : InReach x ↔ x < mantissaLimit - 1 / 2 := by
  rw [InReach, abs_of_nonneg hx]

theorem inReach_zero : InReach 0 := by
  norm_num [InReach, mantissaLimit]

end Reach

section Products

variable {a b : Decimal}

theorem roundDiv_antitone (n : Nat) {j k : Nat} (h : j ≤ k) :
    roundDiv n (tenTo k) ≤ roundDiv n (tenTo j) := by
  have hle : (n : ℚ) / tenTo k ≤ n / tenTo j :=
    div_le_div_of_nonneg_left (Nat.cast_nonneg n) (tenTo_cast_pos j)
      (by exact_mod_cast tenTo_mono h)
  exact_mod_cast (Nearest.roundDiv n (tenTo_pos k)).mono (Nearest.roundDiv n (tenTo_pos j)) hle

/-- A number fits at some of its places if it fits without any. -/
theorem isSome_fit?_iff (negative : Bool) (n scale : Nat) :
    (fit? negative n scale).isSome ↔ InReach (n / tenTo scale) := by
  have hinteger := Nearest.roundDiv n (tenTo_pos scale)
  rw [inReach_iff_of_nonneg (by positivity), ← hinteger.lt_limit_iff, Nat.cast_lt, fit?,
    Option.isSome_bind, Option.any_eq_true]
  constructor
  · rintro ⟨k, hfind, -⟩
    have hmem := List.mem_range'_1.mp (List.mem_of_find?_eq_some hfind)
    have hfits : roundDiv n (tenTo k) < mantissaLimit := by
      simpa using List.find?_some hfind
    exact lt_of_le_of_lt (roundDiv_antitone n (by omega)) hfits
  · intro hfits
    have hfound : ((List.range' (scale - maxScale) (scale - (scale - maxScale) + 1)).find?
        fun k => roundDiv n (tenTo k) < mantissaLimit).isSome := by
      rw [List.find?_isSome]
      exact ⟨scale, List.mem_range'_1.mpr (by omega), by simpa using hfits⟩
    obtain ⟨k, hk⟩ := Option.isSome_iff_exists.mp hfound
    have hmem := List.mem_range'_1.mp (List.mem_of_find?_eq_some hk)
    have hsmall : roundDiv n (tenTo k) < mantissaLimit := by
      simpa using List.find?_some hk
    have hscale : scale - k ≤ 28 := by
      simp only [maxScale] at hmem
      omega
    exact ⟨k, hk, by simp [ofParts?, hsmall, hscale]⟩

theorem isSome_mul?_iff (a b : Decimal) : (a.mul? b).isSome ↔ InReach (a.value * b.value) := by
  unfold mul?
  dsimp only
  split_ifs with hzero hwords
  · have : a.value * b.value = 0 := by
      rw [mul_eq_zero, value_eq_zero_iff, value_eq_zero_iff]
      simpa using hzero
    simp [this, inReach_zero]
  · simp only [Bool.and_eq_true, decide_eq_true_eq] at hwords
    have hproduct : a.mantissa * b.mantissa < mantissaLimit - 1 :=
      lt_trans (Nat.mul_lt_mul'' hwords.1.1 hwords.1.2) (by decide)
    have hone : (1 : ℚ) ≤ tenTo (a.scale + b.scale) := by exact_mod_cast tenTo_pos _
    have hsmall : ((a.mantissa * b.mantissa : Nat) : ℚ) / tenTo (a.scale + b.scale) <
        mantissaLimit - 1 / 2 := by
      have hcast : ((a.mantissa * b.mantissa : Nat) : ℚ) < mantissaLimit - 1 := by
        have : (((mantissaLimit - 1 : Nat)) : ℚ) = mantissaLimit - 1 := by norm_num [mantissaLimit]
        rw [← this]
        exact_mod_cast hproduct
      refine lt_of_le_of_lt (div_le_self (Nat.cast_nonneg _) hone) ?_
      linarith
    rw [value_mul_value, inReach_withSign, inReach_iff_of_nonneg (by positivity)]
    simp only [Option.isSome_some, true_iff]
    exact hsmall
  · rw [isSome_fit?_iff, value_mul_value, inReach_withSign]

end Products

section Sums

/-- Every decimal is in reach. -/
theorem inReach_value (d : Decimal) : InReach d.value := by
  have hmantissa : (d.mantissa : ℚ) ≤ mantissaLimit - 1 := by
    have : d.mantissa + 1 ≤ mantissaLimit := d.mantissa_lt
    have : (d.mantissa : ℚ) + 1 ≤ mantissaLimit := by exact_mod_cast this
    linarith
  have hone : (1 : ℚ) ≤ tenTo d.scale := by exact_mod_cast tenTo_pos _
  rw [InReach, value, abs_div, ← Int.cast_abs, abs_signed, abs_of_pos (tenTo_cast_pos _),
    Int.cast_natCast]
  exact (div_le_self (Nat.cast_nonneg _) hone).trans_lt (by linarith)

theorem isSome_add?_iff (a b : Decimal) : (a.add? b).isSome ↔ InReach (a.value + b.value) := by
  unfold add?
  split_ifs with ha hb
  · simp [value_eq_zero_iff.mpr ha, inReach_value]
  · simp [value_eq_zero_iff.mpr hb, inReach_value]
  · dsimp only
    rw [isSome_fit?_iff, value_add_value, ← withSign_natAbs, inReach_withSign]

theorem isSome_sub?_iff (a b : Decimal) : (a.sub? b).isSome ↔ InReach (a.value - b.value) := by
  unfold sub?
  split_ifs with hb ha
  · simp [value_eq_zero_iff.mpr ha, value_eq_zero_iff.mpr hb, inReach_zero]
  · simp [value_eq_zero_iff.mpr hb, inReach_value]
  · rw [isSome_add?_iff, value_neg, sub_eq_add_neg]

end Sums

section Quotients

/-- Digits that are too many before the last integer place is taken. -/
theorem limit_le_of_digits {n k left : Nat} {f : ℚ} (hf : 0 ≤ f)
    (hlarge : mantissaLimit ≤ n * tenTo k) (hleft : maxScale + k ≤ left) :
    (mantissaLimit : ℚ) - 1 / 2 ≤ (n + f) * tenTo left / tenTo maxScale := by
  have hsplit := tenTo_cast_add maxScale (left - maxScale)
  rw [Nat.add_sub_cancel' (by omega)] at hsplit
  have hmono : (tenTo k : ℚ) ≤ tenTo (left - maxScale) := by
    exact_mod_cast tenTo_mono (by omega)
  have hcast : (mantissaLimit : ℚ) ≤ n * tenTo k := by exact_mod_cast hlarge
  have hn : (0 : ℚ) ≤ n := Nat.cast_nonneg n
  rw [hsplit, ← mul_assoc, mul_right_comm, mul_div_cancel_right₀ _ (tenTo_cast_pos _).ne']
  calc (mantissaLimit : ℚ) - 1 / 2 ≤ n * tenTo k := by linarith
    _ ≤ n * tenTo (left - maxScale) := mul_le_mul_of_nonneg_left hmono hn
    _ ≤ (n + f) * tenTo (left - maxScale) :=
        mul_le_mul_of_nonneg_right (by linarith) (tenTo_cast_pos _).le

theorem maxScale_le_of_dropPlace? {α : Type} {q places : Nat} {more : Bool} {f : Nat × Nat → α}
    (h : (dropPlace? q places more).map f = none) : maxScale ≤ places := by
  have hdrop := Option.map_eq_none_iff.mp h
  unfold dropPlace? at hdrop
  split_ifs at hdrop with hfull
  exact hfull

/-- A long division comes to nothing only if its integer part outgrows the limit. -/
theorem limit_le_of_divideFrom {divisor q r places : Nat} {inexact : Bool} (hr : r < divisor)
    (hq : q < mantissaLimit) (h : divideFrom divisor q r places inexact = none) :
    (mantissaLimit : ℚ) - 1 / 2 ≤ (q + r / divisor) * tenTo places / tenTo maxScale := by
  have hpos : 0 < divisor := Nat.zero_lt_of_lt hr
  have hfraction (r : Nat) : (0 : ℚ) ≤ (r : ℚ) / divisor := by positivity
  induction q, r, places, inexact using divideFrom.induct divisor with
  | case1 q places inexact hplaces =>
      rw [divideFrom, if_pos rfl, if_pos hplaces] at h
      cases h
  | case2 q places inexact hplaces k hfits ih =>
      rw [divideFrom, if_pos rfl, if_neg hplaces] at h
      dsimp only at h
      rw [if_pos hfits] at h
      have := ih hr hfits h
      rw [widen_quotient hpos q 0 (show k ≤ places by omega)]
      simpa using this
  | case3 q places inexact hplaces k hover =>
      exact limit_le_of_digits (hfraction 0) (Nat.le_of_not_lt hover) (by omega)
  | case4 q r places inexact hrest k hmany =>
      obtain ⟨hnine, hleft⟩ : k < 9 ∧ maxScale + k < places := by simpa using hmany
      have hlarge : mantissaLimit ≤ q * tenTo (k + 1) := by
        by_contra hfits
        have : k + 1 ≤ widening q places :=
          le_widening (by omega) (by omega) (Nat.lt_of_not_le hfits)
        omega
      exact limit_le_of_digits (hfraction r) hlarge (by omega)
  | case5 q r places inexact hrest k hmany hzero up hup =>
      rw [divideFrom, if_neg hrest] at h
      dsimp only at h
      rw [if_neg hmany, if_pos hzero, if_pos hup] at h
      cases h
  | case6 q r places inexact hrest k hmany hzero up hup hfits =>
      rw [divideFrom, if_neg hrest] at h
      dsimp only at h
      rw [if_neg hmany, if_pos hzero, if_neg hup, if_pos hfits] at h
      cases h
  | case7 q r places inexact hrest k hmany hzero up hup hover =>
      rw [divideFrom, if_neg hrest] at h
      dsimp only at h
      rw [if_neg hmany, if_pos hzero, if_neg hup, if_neg hover] at h
      rw [Bool.not_eq_true', Bool.not_eq_false] at hup
      have hplaces : places = maxScale := by
        have hfull := maxScale_le_of_dropPlace? h
        have : ¬(k < 9 ∧ maxScale + k < places) := by simpa using hmany
        omega
      have hnearest := Nearest.of_remainder q hr
      rw [if_pos hup] at hnearest
      have hlower := hnearest.lower
      have hcast : (mantissaLimit : ℚ) ≤ ((q + 1 : Nat) : ℤ) := by
        exact_mod_cast Nat.le_of_not_lt hover
      rw [hplaces, mul_div_cancel_right₀ _ (tenTo_cast_pos _).ne']
      linarith
  | case8 q r places inexact hrest k hmany hzero q' r' hfits ih =>
      rw [divideFrom, if_neg hrest] at h
      dsimp only at h
      rw [if_neg hmany, if_neg hzero, if_pos hfits] at h
      have := ih (Nat.mod_lt _ hpos) hfits h
      rwa [widen_quotient hpos q r (widening_le q places)]
  | case9 q r places inexact hrest k hmany hzero q' hover =>
      rw [divideFrom, if_neg hrest] at h
      dsimp only at h
      rw [if_neg hmany, if_neg hzero, if_neg hover] at h
      have hlarge : mantissaLimit ≤ q' * tenTo 0 := by
        rw [show tenTo 0 = 1 from rfl, Nat.mul_one]
        exact Nat.le_of_not_lt hover
      rw [widen_quotient hpos q r (widening_le q places)]
      exact limit_le_of_digits (hfraction _) hlarge (maxScale_le_of_dropPlace? h)

theorem inReach_of_settled {u : ℚ} {q places : Nat} (hu : 0 ≤ u) (h : Settled u q places) :
    InReach (u / tenTo maxScale) := by
  have hlt := h.nearest.lt_limit_iff.mp (by exact_mod_cast h.fits)
  have hmono : (tenTo places : ℚ) ≤ tenTo maxScale := by
    exact_mod_cast tenTo_mono h.places_le
  rw [inReach_iff_of_nonneg (div_nonneg hu (tenTo_cast_pos _).le)]
  exact lt_of_le_of_lt (div_le_div_of_nonneg_left hu (tenTo_cast_pos _) hmono) hlt

section Zeros

theorem dropZeros_le (k : Nat) (n : Nat × Nat) :
    (dropZeros k n).1 ≤ n.1 ∧ (dropZeros k n).2 ≤ n.2 := by
  unfold dropZeros
  split_ifs
  · exact ⟨Nat.div_le_self _ _, Nat.sub_le _ _⟩
  · exact ⟨le_rfl, le_rfl⟩

theorem dropEights_le (q scale : Nat) :
    (dropEights q scale).1 ≤ q ∧ (dropEights q scale).2 ≤ scale := by
  induction q, scale using dropEights.induct with
  | case1 q scale h ih =>
      rw [dropEights, if_pos h]
      exact ⟨ih.1.trans (Nat.div_le_self _ _), ih.2.trans (Nat.le_add_right scale 8)⟩
  | case2 q scale h =>
      rw [dropEights, if_neg h]
      exact ⟨le_rfl, le_rfl⟩
  | case3 q scale h =>
      rw [dropEights]
      · exact ⟨le_rfl, le_rfl⟩
      · exact h

theorem stripZeros_le (q scale : Nat) :
    (stripZeros q scale).1 ≤ q ∧ (stripZeros q scale).2 ≤ scale := by
  have heights := dropEights_le q scale
  have hfours := dropZeros_le 4 (dropEights q scale)
  have htwos := dropZeros_le 2 (dropZeros 4 (dropEights q scale))
  have hones := dropZeros_le 1 (dropZeros 2 (dropZeros 4 (dropEights q scale)))
  exact ⟨hones.1.trans (htwos.1.trans (hfours.1.trans heights.1)),
    hones.2.trans (htwos.2.trans (hfours.2.trans heights.2))⟩

end Zeros

/-- The digits of a settled division make a decimal, with or without their last zeros. -/
theorem isSome_ofParts? (negative inexact : Bool) {u : ℚ} {q places : Nat}
    (h : Settled u q places) :
    (let scale := maxScale - places
      let (q, scale) := if inexact then stripZeros q scale else (q, scale)
      ofParts? negative q scale).isSome := by
  have hscale : maxScale - places ≤ 28 := Nat.sub_le _ _
  cases inexact with
  | false => simp [ofParts?, h.fits, hscale]
  | true =>
      obtain ⟨hmantissa, hplaces⟩ := stripZeros_le q (maxScale - places)
      have hparts : (stripZeros q (maxScale - places)).1 < mantissaLimit ∧
          (stripZeros q (maxScale - places)).2 ≤ 28 :=
        ⟨hmantissa.trans_lt h.fits, hplaces.trans hscale⟩
      simp [ofParts?, hparts]

theorem isSome_div?_iff (a b : Decimal) :
    (a.div? b).isSome ↔ b.value ≠ 0 ∧ InReach (a.value / b.value) := by
  unfold div?
  split_ifs with hb ha
  · simp [value_eq_zero_iff, hb]
  · rw [value_eq_zero_iff.mpr ha, zero_div, ne_eq, value_eq_zero_iff]
    simp [hb, inReach_zero]
  · have hpos : 0 < b.mantissa := Nat.pos_of_ne_zero (by simpa [isZero] using hb)
    have hrest := Nat.mod_lt a.mantissa hpos
    have hdigits := Nat.lt_of_le_of_lt (Nat.div_le_self a.mantissa b.mantissa) a.mantissa_lt
    have hnonneg : (0 : ℚ) ≤ a.mantissa / b.mantissa * tenTo (maxScale + b.scale - a.scale) := by
      positivity
    rw [value_div_value a hpos, inReach_withSign, ne_eq, value_eq_zero_iff]
    simp only [hb, Bool.false_eq_true, not_false_eq_true, true_and]
    cases hdivide : divideFrom b.mantissa (a.mantissa / b.mantissa) (a.mantissa % b.mantissa)
        (maxScale + b.scale - a.scale) false with
    | none =>
        have hover := limit_le_of_divideFrom hrest hdigits hdivide
        rw [div_add_mod_div _ hpos] at hover
        rw [inReach_iff_of_nonneg (div_nonneg hnonneg (tenTo_cast_pos _).le)]
        simpa using hover
    | some result =>
        obtain ⟨q, places, inexact⟩ := result
        have hsettled := settled_divideFrom hrest hdigits hdivide
        rw [div_add_mod_div _ hpos] at hsettled
        have hreach := inReach_of_settled hnonneg hsettled
        have hparts := isSome_ofParts? (a.negative != b.negative) inexact hsettled
        simpa [hreach] using hparts

/-- No reciprocal of a decimal is too large. -/
theorem exists_reciprocal {d : Decimal} (hd : d.value ≠ 0) :
    ∃ r, one.div? d = some r ∧ Rounds (1 / d.value) r.value := by
  have hreach : InReach (1 / d.value) := by
    have hmantissa : (1 : ℚ) ≤ d.mantissa := by
      have : d.mantissa ≠ 0 := by simpa [isZero] using mt value_eq_zero_iff.mpr hd
      exact_mod_cast Nat.one_le_iff_ne_zero.mpr this
    have hscale : (tenTo d.scale : ℚ) ≤ tenTo maxScale := by
      exact_mod_cast tenTo_mono d.scale_le
    have hlimit : (tenTo maxScale : ℚ) < mantissaLimit - 1 / 2 := by
      norm_num [maxScale, tenTo, mantissaLimit]
    rw [InReach, abs_div, abs_one, value, abs_div, ← Int.cast_abs, abs_signed,
      abs_of_pos (tenTo_cast_pos _), one_div_div, Int.cast_natCast]
    exact (div_le_self (tenTo_cast_pos _).le hmantissa).trans_lt (hscale.trans_lt hlimit)
  have hone : (one.div? d).isSome := by
    rw [isSome_div?_iff, value_one]
    exact ⟨hd, hreach⟩
  obtain ⟨r, hr⟩ := Option.isSome_iff_exists.mp hone
  have hrounds := rounds_div? hr
  rw [value_one] at hrounds
  exact ⟨r, hr, hrounds⟩

end Quotients

section Error

variable {x w : ℚ}

theorem Nearest.abs_sub_le {n : ℤ} (h : Nearest x n) : |n - x| ≤ 1 / 2 := by
  have hlower := h.lower
  have hupper := h.upper
  rw [abs_le]
  constructor <;> linarith

/-- A rounded number is half a unit of the 28th place off, or it has no more places
because it is large, and then it is off by a fraction of itself as small as that. -/
theorem Rounds.error_le (h : Rounds x w) : |w - x| * tenTo maxScale ≤ max (1 / 2) |x| := by
  obtain ⟨scale, m, h⟩ := h
  have hpos := tenTo_cast_pos scale
  have hplace : |w - x| * tenTo scale ≤ 1 / 2 := by
    have hnear := h.nearest.abs_sub_le
    rwa [← h.value_eq, ← sub_mul, abs_mul, abs_of_pos hpos] at hnear
  rcases h.places with rfl | rfl | ⟨n, hn, hlarge⟩
  · simp
  · exact hplace.trans (le_max_left _ _)
  · refine le_trans ?_ (le_max_right _ _)
    have hsplit := tenTo_cast_add scale (maxScale - scale)
    rw [Nat.add_sub_cancel' h.scale_le] at hsplit
    have hsize : (mantissaLimit : ℚ) - 1 / 2 ≤ |x| * (tenTo scale * 10) := by
      have hcast : (mantissaLimit : ℚ) ≤ |(n : ℚ)| := by exact_mod_cast hlarge
      have hnear : |(n : ℚ)| ≤ |x * tenTo (scale + 1)| + 1 / 2 := by
        have hdiff := hn.abs_sub_le
        have := abs_sub_abs_le_abs_sub (n : ℚ) (x * tenTo (scale + 1))
        linarith
      rw [abs_mul, abs_of_pos (tenTo_cast_pos _), tenTo_cast_succ] at hnear
      linarith
    have hlimit : (5 : ℚ) * tenTo maxScale ≤ mantissaLimit - 1 / 2 := by
      norm_num [maxScale, tenTo, mantissaLimit]
    have hrest := tenTo_cast_pos (maxScale - scale)
    rw [hsplit, ← mul_assoc]
    calc |w - x| * tenTo scale * tenTo (maxScale - scale)
        ≤ 1 / 2 * tenTo (maxScale - scale) := mul_le_mul_of_nonneg_right hplace hrest.le
      _ ≤ |x| := by
        refine le_of_mul_le_mul_right ?_ (mul_pos hpos (by norm_num : (0 : ℚ) < 10))
        refine le_trans (le_of_eq ?_) (hlimit.trans hsize)
        rw [hsplit]
        ring

end Error

end Paydesk.Decimal

import Paydesk.Proofs.Decimal.Rounding

/-!
Sums, differences and products of decimals are the exact ones with as many of
their places as fit.
-/

namespace Paydesk.Decimal

variable {a b d : Decimal}

theorem ofParts?_eq_some {negative : Bool} {mantissa scale : Nat}
    (h : ofParts? negative mantissa scale = some d) :
    mantissa < mantissaLimit ∧ scale ≤ maxScale ∧
      d.value = withSign negative (mantissa / tenTo scale) := by
  unfold ofParts? at h
  split_ifs at h with hparts
  cases h
  refine ⟨hparts.1, hparts.2, ?_⟩
  rw [value_eq_withSign]
  -- zero is the same number with and without a sign
  rcases Nat.eq_zero_or_pos mantissa with rfl | hpos
  · simp [withSign]
  · rw [bne_iff_ne.mpr hpos.ne', Bool.and_true]

/-- A mantissa that is rounded at some place, where it does not fit at the next. -/
theorem roundsAt_roundDiv {n scale k : Nat} (hk : k ≤ scale) (hscale : scale - k ≤ maxScale)
    (hfits : roundDiv n (tenTo k) < mantissaLimit)
    (hplaces : k = 0 ∨ scale - k = maxScale ∨ mantissaLimit ≤ roundDiv n (tenTo (k - 1))) :
    RoundsAt (n / tenTo scale) (roundDiv n (tenTo k) / tenTo (scale - k)) (scale - k)
      (roundDiv n (tenTo k) : Nat) := by
  refine ⟨hscale, ?_, div_mul_cancel₀ _ (tenTo_cast_pos _).ne', ?_, ?_⟩
  · rw [Nat.abs_cast]
    exact_mod_cast hfits
  · rw [div_tenTo_mul_tenTo _ hk]
    exact Nearest.roundDiv n (tenTo_pos k)
  · rcases hplaces with rfl | hmax | hlarge
    · have hone : roundDiv n (tenTo 0) = n := by
        simp [roundDiv, tenTo, Nat.mod_one]
      exact .inl (by rw [hone, Nat.sub_zero])
    · exact .inr (.inl hmax)
    · rcases Nat.eq_zero_or_pos k with rfl | hpos
      · exact absurd hfits (Nat.not_lt.mpr hlarge)
      · refine .inr (.inr ⟨(roundDiv n (tenTo (k - 1)) : Nat), ?_, ?_⟩)
        · rw [show scale - k + 1 = scale - (k - 1) by omega,
            div_tenTo_mul_tenTo _ (by omega)]
          exact Nearest.roundDiv n (tenTo_pos _)
        · rw [Nat.abs_cast]
          exact_mod_cast hlarge

theorem rounds_fit? {negative : Bool} {n scale : Nat} (h : fit? negative n scale = some d) :
    Rounds (withSign negative (n / tenTo scale)) d.value := by
  obtain ⟨k, hfind, hparts⟩ := Option.bind_eq_some_iff.mp h
  obtain ⟨hfits, hmem, hbefore⟩ := List.find?_range'_eq_some.mp hfind
  obtain ⟨hlow, hhigh⟩ := List.mem_range'_1.mp hmem
  obtain ⟨-, hscale, hvalue⟩ := ofParts?_eq_some hparts
  rw [hvalue]
  refine Rounds.withSign ⟨_, _, roundsAt_roundDiv (by omega) hscale (by simpa using hfits) ?_⟩ _
  -- the first place that was tried is the 28th or the last one of the number
  by_cases hfirst : scale - maxScale = k
  · omega
  · have := hbefore (k - 1) (by omega) (by omega)
    exact .inr (.inr (by simpa using this))

theorem value_add_value (a b : Decimal) :
    a.value + b.value = ((a.signed * tenTo (max a.scale b.scale - a.scale) +
      b.signed * tenTo (max a.scale b.scale - b.scale) : ℤ) : ℚ) / tenTo (max a.scale b.scale) := by
  have hshift {c : Decimal} {scale : Nat} (hc : c.scale ≤ scale) :
      c.value = (c.signed * tenTo (scale - c.scale) : ℤ) / tenTo scale := by
    rw [value, div_eq_div_iff (tenTo_cast_pos _).ne' (tenTo_cast_pos _).ne']
    have hsplit := tenTo_cast_add (scale - c.scale) c.scale
    rw [Nat.sub_add_cancel hc] at hsplit
    rw [hsplit]
    push_cast
    ring
  rw [hshift (le_max_left a.scale b.scale), hshift (le_max_right a.scale b.scale), ← add_div,
    ← Int.cast_add]

theorem withSign_natAbs (n : ℤ) (d : ℚ) : withSign (decide (n < 0)) (n.natAbs / d) = n / d := by
  rw [withSign, Nat.cast_natAbs]
  by_cases hneg : n < 0
  · rw [if_pos (by simpa using hneg), abs_of_neg hneg]
    push_cast
    rw [neg_div, neg_neg]
  · rw [if_neg (by simpa using hneg), abs_of_nonneg (not_lt.mp hneg)]

theorem rounds_add? (h : a.add? b = some d) : Rounds (a.value + b.value) d.value := by
  unfold add? at h
  split_ifs at h with ha hb
  · cases h
    rw [value_eq_zero_iff.mpr ha, zero_add]
    exact rounds_value _
  · cases h
    rw [value_eq_zero_iff.mpr hb, add_zero]
    exact rounds_value _
  · have hrounds := rounds_fit? h
    rwa [withSign_natAbs, ← value_add_value] at hrounds

theorem rounds_sub? (h : a.sub? b = some d) : Rounds (a.value - b.value) d.value := by
  unfold sub? at h
  split_ifs at h with hb ha
  · cases h
    rw [value_eq_zero_iff.mpr hb, value_eq_zero_iff.mpr ha, sub_zero]
    exact value_eq_zero_iff.mpr hb ▸ rounds_value _
  · cases h
    rw [value_eq_zero_iff.mpr hb, sub_zero]
    exact rounds_value _
  · rw [sub_eq_add_neg, ← value_neg]
    exact rounds_add? h

theorem value_mul_value (a b : Decimal) :
    a.value * b.value = withSign (a.negative != b.negative)
      ((a.mantissa * b.mantissa : Nat) / tenTo (a.scale + b.scale)) := by
  rw [value_eq_withSign, value_eq_withSign, tenTo_cast_add, Nat.cast_mul, ← div_mul_div_comm]
  cases a.negative <;> cases b.negative <;> simp [withSign]

/-- A product of two words with this many places is zero at 28 of them. -/
theorem rounds_zero_of_words {p scale : Nat} (hp : p < limit64) (hscale : maxWordScale < scale) :
    Rounds (p / tenTo scale) 0 := by
  have hsmall : 2 * ((p : ℚ) / tenTo scale * tenTo maxScale) < 1 := by
    have hsplit : tenTo scale = tenTo (scale - maxWordScale - 1) * tenTo 20 * tenTo maxScale := by
      rw [← tenTo_add, ← tenTo_add]
      congr 1
      simp only [maxWordScale, maxScale] at hscale ⊢
      omega
    have hlt : 2 * p < tenTo (scale - maxWordScale - 1) * tenTo 20 := by
      have : 2 * limit64 ≤ 1 * tenTo 20 := by decide
      have := Nat.mul_le_mul_right (tenTo 20) (tenTo_pos (scale - maxWordScale - 1))
      omega
    have hpos : (0 : ℚ) < tenTo (scale - maxWordScale - 1) * tenTo 20 := by
      exact_mod_cast Nat.mul_pos (tenTo_pos _) (tenTo_pos _)
    rw [hsplit]
    push_cast
    rw [div_mul_eq_mul_div, mul_div_mul_right _ _ (tenTo_cast_pos _).ne', mul_div_assoc',
      div_lt_iff₀ hpos, one_mul]
    exact_mod_cast hlt
  have hnonneg : 0 ≤ (p : ℚ) / tenTo scale * tenTo maxScale := by positivity
  refine ⟨maxScale, 0, le_rfl, by decide, by simp, ⟨?_, ?_, fun _ => rfl⟩, .inr (.inl rfl)⟩
  · push_cast
    linarith
  · push_cast
    linarith

theorem rounds_mul? (h : a.mul? b = some d) : Rounds (a.value * b.value) d.value := by
  unfold mul? at h
  dsimp only at h
  split_ifs at h with hzero hwords
  · cases h
    have : a.value * b.value = 0 := by
      rw [mul_eq_zero, value_eq_zero_iff, value_eq_zero_iff]
      simpa using hzero
    rw [this, ← value_zero]
    exact rounds_value _
  · cases h
    simp only [Bool.and_eq_true, decide_eq_true_eq] at hwords
    have hproduct : a.mantissa * b.mantissa < limit64 :=
      Nat.mul_lt_mul'' hwords.1.1 hwords.1.2
    have hrounds := (rounds_zero_of_words hproduct hwords.2).withSign (a.negative != b.negative)
    rw [value_mul_value, value_zero]
    simpa [withSign] using hrounds
  · rw [value_mul_value]
    exact rounds_fit? h

end Paydesk.Decimal

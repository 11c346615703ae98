import Mathlib.Data.List.Basic
import Paydesk.Decimal.Arithmetic

/-!
When a sum or a difference has no sign.
-/

namespace Paydesk.Decimal

variable {a b d : Decimal}

theorem nonnegative_of_ofParts? {mantissa scale : Nat} (h : ofParts? false mantissa scale = some d) :
    d.negative = false := by
  unfold ofParts? at h
  split_ifs at h
  cases h
  rfl

theorem nonnegative_of_fit? {n scale : Nat} (h : fit? false n scale = some d) :
    d.negative = false := by
  obtain ⟨k, -, hparts⟩ := Option.bind_eq_some_iff.mp h
  exact nonnegative_of_ofParts? hparts

theorem signed_nonneg (h : a.negative = false) : 0 ≤ a.signed := by
  simp [signed, h]

theorem signed_neg (a : Decimal) : a.neg.signed = -a.signed := by
  cases h : a.negative <;> simp [signed, neg, h]

theorem nonnegative_of_add? (ha : a.negative = false) (hb : b.negative = false)
    (h : a.add? b = some d) : d.negative = false := by
  unfold add? at h
  split_ifs at h
  · exact Option.some.inj h ▸ hb
  · exact Option.some.inj h ▸ ha
  · have hsum : ¬a.signed * tenTo (max a.scale b.scale - a.scale) +
        b.signed * tenTo (max a.scale b.scale - b.scale) < 0 := by
      have := Int.mul_nonneg (signed_nonneg ha)
        (Int.natCast_nonneg (tenTo (max a.scale b.scale - a.scale)))
      have := Int.mul_nonneg (signed_nonneg hb)
        (Int.natCast_nonneg (tenTo (max a.scale b.scale - b.scale)))
      omega
    simp only [hsum, decide_false] at h
    exact nonnegative_of_fit? h

theorem lt_iff : a.lt b ↔ a.signed * tenTo b.scale < b.signed * tenTo a.scale := by
  simp only [lt, compare, beq_iff_eq, Int.compare_eq_lt]

theorem nonnegative_of_not_lt_zero (h : ¬a.lt zero) (hzero : a.isZero = false) :
    a.negative = false := by
  have hmantissa : a.mantissa ≠ 0 := by simpa [isZero] using hzero
  cases hsign : a.negative with
  | false => rfl
  | true =>
      refine absurd (lt_iff.mpr ?_) h
      have hleft : a.signed * tenTo zero.scale = -a.mantissa := by
        simp [signed, hsign, zero, ofNat, tenTo]
      have hright : zero.signed * tenTo a.scale = 0 := by
        simp [signed, zero, ofNat]
      omega

theorem nonnegative_of_one_sub? (hone : ¬one.lt a) (hzero : a.isZero = false)
    (h : one.sub? a = some d) : d.negative = false := by
  have hle : a.signed ≤ tenTo a.scale := by
    have hnot := mt lt_iff.mpr hone
    have hleft : one.signed * tenTo a.scale = tenTo a.scale := by
      simp [signed, one, ofNat]
    have hright : a.signed * tenTo one.scale = a.signed := by
      simp [one, ofNat, tenTo]
    omega
  have hneg : a.neg.isZero = false := hzero
  unfold sub? add? at h
  simp only [hzero, hneg, show one.isZero = false from rfl, Bool.false_eq_true, if_false] at h
  have hsum : ¬one.signed * tenTo (max one.scale a.neg.scale - one.scale) +
      a.neg.signed * tenTo (max one.scale a.neg.scale - a.neg.scale) < 0 := by
    have hleft : one.signed * tenTo (max one.scale a.neg.scale - one.scale) = tenTo a.scale := by
      simp [signed, one, ofNat, neg]
    have hright : a.neg.signed * tenTo (max one.scale a.neg.scale - a.neg.scale) = -a.signed := by
      rw [signed_neg]
      simp [one, ofNat, neg, tenTo]
    omega
  simp only [hsum, decide_false] at h
  exact nonnegative_of_fit? h

end Paydesk.Decimal

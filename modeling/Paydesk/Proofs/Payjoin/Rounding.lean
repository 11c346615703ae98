import Mathlib.Order.Bounds.Basic
import Mathlib.Order.Nat
import Paydesk.Payjoin.Proposal

/-!
Fees are rounded up and rates are rounded down, and the two fit: a fee comes to a rate just if
it is no less than what the rate asks for.
-/

namespace Paydesk.Payjoin.Draft

variable {fee rate weight : Nat}

theorem feeRateOf_eq (hfee : 1000 * fee < limit64) (weight : Nat) :
    feeRateOf fee weight = 1000 * fee / weight := by
  rw [feeRateOf]
  split
  · rename_i hzero
    rw [hzero, Nat.div_zero]
  · congr 1
    omega

theorem feeRateOf_zero (fee : Nat) : feeRateOf fee 0 = 0 := if_pos rfl

theorem feeFor_le_iff : feeFor rate weight ≤ fee ↔ rate * weight ≤ 1000 * fee := by
  unfold feeFor
  omega

/-- No fee comes to a rate whose product with the weight takes more than 64 bits. -/
theorem le_feeRateOf_iff (hweight : 0 < weight) :
    rate ≤ feeRateOf fee weight ↔ rate * weight ≤ 1000 * fee ∧ rate * weight < limit64 := by
  have hlimit : 0 < limit64 := by decide
  rw [feeRateOf, if_neg hweight.ne', Nat.le_div_iff_mul_le hweight]
  omega

theorem le_feeRateOf_iff_feeFor_le (hweight : 0 < weight) (hrate : rate * weight < limit64) :
    rate ≤ feeRateOf fee weight ↔ feeFor rate weight ≤ fee := by
  rw [le_feeRateOf_iff hweight, feeFor_le_iff]
  exact and_iff_left hrate

/-- A rate that is rounded down asks for no more than the fee that it comes from. -/
theorem feeRateOf_mul_le (fee weight : Nat) : feeRateOf fee weight * weight ≤ 1000 * fee := by
  rcases Nat.eq_zero_or_pos weight with rfl | hweight
  · exact Nat.zero_le (1000 * fee)
  · exact ((le_feeRateOf_iff hweight).mp le_rfl).1

theorem feeFor_mono {rate' weight' : Nat} (hrate : rate' ≤ rate) (hweight : weight' ≤ weight) :
    feeFor rate' weight' ≤ feeFor rate weight :=
  Nat.div_le_div_right (Nat.add_le_add_right (Nat.mul_le_mul hrate hweight) _)

theorem feeRateOf_mono (weight : Nat) : Monotone (feeRateOf · weight) := by
  intro fee fee' hle
  dsimp only
  rcases Nat.eq_zero_or_pos weight with rfl | hweight
  · exact (feeRateOf_zero fee).trans_le (Nat.zero_le _)
  · obtain ⟨hpaid, hfits⟩ := (le_feeRateOf_iff hweight).mp (le_refl (feeRateOf fee weight))
    exact (le_feeRateOf_iff hweight).mpr ⟨hpaid.trans (Nat.mul_le_mul_left _ hle), hfits⟩

/-- The fee for a rate is the least that comes to it. What a fee comes to fits into 64 bits with
the weight again, and never asks for more than the fee. A higher rate or a heavier transaction
never asks for less, and a higher fee never comes to less. -/
theorem reaches_rate_iff_pays_fee (hweight : 0 < weight) (hrate : rate * weight < limit64) :
    (∀ fee, rate ≤ feeRateOf fee weight ↔ feeFor rate weight ≤ fee) ∧
    IsLeast {fee | rate ≤ feeRateOf fee weight} (feeFor rate weight) ∧
    (∀ fee, feeRateOf fee weight * weight < limit64 ∧
      feeFor (feeRateOf fee weight) weight ≤ fee) ∧
    (∀ rate' ≤ rate, ∀ weight' ≤ weight, feeFor rate' weight' ≤ feeFor rate weight) ∧
    Monotone (feeRateOf · weight) := by
  have hiff (fee : Nat) : rate ≤ feeRateOf fee weight ↔ feeFor rate weight ≤ fee :=
    le_feeRateOf_iff_feeFor_le hweight hrate
  refine ⟨hiff, ⟨(hiff _).mpr le_rfl, fun fee => (hiff fee).mp⟩, fun fee => ?_,
    fun _ hrate' _ hweight' => feeFor_mono hrate' hweight', feeRateOf_mono weight⟩
  exact ⟨((le_feeRateOf_iff hweight).mp le_rfl).2, feeFor_le_iff.mpr (feeRateOf_mul_le fee weight)⟩

/-- At one satoshi for four units of weight, 573 units need 144 satoshis. -/
theorem relay_rate_needs_fee :
    0 < 573 ∧ 250 * 573 < limit64 ∧ feeRateOf 143 573 = 249 ∧ feeRateOf 144 573 = 251 ∧
    IsLeast {fee | 250 ≤ feeRateOf fee 573} 144 ∧ feeFor (feeRateOf 144 573) 573 ≤ 144 ∧
    feeFor 249 572 ≤ feeFor 250 573 ∧ feeRateOf 143 573 ≤ feeRateOf 144 573 := by
  have hrate : 250 * 573 < limit64 := by decide
  obtain ⟨-, hleast, hback, hfee, hfeeRate⟩ := reaches_rate_iff_pays_fee (by decide) hrate
  exact ⟨by decide, hrate, by decide, by decide, hleast, (hback 144).2,
    hfee 249 (by decide) 572 (by decide), hfeeRate (by decide : 143 ≤ 144)⟩

end Paydesk.Payjoin.Draft

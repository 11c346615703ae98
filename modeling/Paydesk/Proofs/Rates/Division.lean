import Paydesk.Proofs.Decimal.Limits
import Paydesk.Proofs.Rates.Widening

/-!
The quotient of two spreads is taken as the product with a reciprocal, so each of its
sides is rounded twice. When there is a quotient, which number each side is, when that
is the quotient of the sides rounded once, and how far it is from the exact one.
-/

namespace Paydesk

namespace Decimal

/-- The second number over the first, by way of a reciprocal that is rounded before the
product with it is rounded as well. -/
def RoundsTwice (x y w : ℚ) : Prop := ∃ r, Rounds (1 / y) r ∧ Rounds (x * r) w

namespace RoundsTwice

variable {x y v w : ℚ}

theorem unique (hw : RoundsTwice x y w) (hv : RoundsTwice x y v) : w = v := by
  obtain ⟨r, hr, hw⟩ := hw
  obtain ⟨r', hr', hv⟩ := hv
  obtain rfl := hr.unique hr'
  exact hw.unique hv

/-- Of all numbers the one that comes out is known by this. -/
theorem eq_iff (hw : RoundsTwice x y w) : w = v ↔ RoundsTwice x y v :=
  ⟨fun h => h ▸ hw, fun hv => hw.unique hv⟩

/-- Where the reciprocal has no more places than fit, rounding it makes no difference. -/
theorem rounds_of_exact (hw : RoundsTwice x y w) (hexact : Rounds (1 / y) (1 / y)) :
    Rounds (x / y) w := by
  obtain ⟨r, hr, hw⟩ := hw
  obtain rfl := hr.unique hexact
  rwa [mul_one_div] at hw

/-- Both errors together, in units of the 28th place. -/
theorem error_le (hw : RoundsTwice x y w) (hx : 0 ≤ x) (hy : 0 < y) :
    |w - x / y| * tenTo maxScale ≤ 1 / 2 + 3 * x * max (1 / 2) (1 / y) := by
  obtain ⟨r, hr, hw⟩ := hw
  have hone : (1 : ℚ) ≤ tenTo maxScale := by exact_mod_cast tenTo_pos maxScale
  have hinverse : 0 < 1 / y := one_div_pos.mpr hy
  have hreciprocal := hr.error_le
  rw [abs_of_pos hinverse] at hreciprocal
  have hlarger : 1 / y ≤ max (1 / 2) (1 / y) := le_max_right _ _
  generalize max (1 / 2) (1 / y) = larger at hreciprocal hlarger ⊢
  -- the reciprocal is off by less than what bounds it
  have hr_le : |r| ≤ 2 * larger := by
    have hsmall : |r - 1 / y| ≤ larger :=
      (le_mul_of_one_le_right (abs_nonneg _) hone).trans hreciprocal
    have := abs_sub_abs_le_abs_sub r (1 / y)
    rw [abs_of_pos hinverse] at this
    linarith
  have hproduct : |w - x * r| * tenTo maxScale ≤ 1 / 2 + x * (2 * larger) := by
    have hle : |x * r| ≤ x * (2 * larger) := by
      rw [abs_mul, abs_of_nonneg hx]
      exact mul_le_mul_of_nonneg_left hr_le hx
    have := abs_nonneg (x * r)
    exact hw.error_le.trans (max_le (by linarith) (by linarith))
  have hsplit : |w - x / y| ≤ |w - x * r| + x * |r - 1 / y| := by
    have := abs_sub_le w (x * r) (x * (1 / y))
    rwa [← mul_sub, abs_mul, abs_of_nonneg hx, mul_one_div] at this
  calc |w - x / y| * tenTo maxScale
      ≤ (|w - x * r| + x * |r - 1 / y|) * tenTo maxScale :=
        mul_le_mul_of_nonneg_right hsplit (tenTo_cast_pos _).le
    _ = |w - x * r| * tenTo maxScale + x * (|r - 1 / y| * tenTo maxScale) := by ring
    _ ≤ (1 / 2 + x * (2 * larger)) + x * larger :=
        add_le_add hproduct (mul_le_mul_of_nonneg_left hreciprocal hx)
    _ = 1 / 2 + 3 * x * larger := by ring

end RoundsTwice

end Decimal

namespace Rates.Spread

open Decimal

variable {s t u v : Spread}

section Products

/-- Without numbers below zero, bids make the bid of a product and asks its ask. -/
theorem rounds_of_mul? (hs : s.Ordered) (ht : t.Ordered) (hbid : 0 ≤ s.bid.value)
    (hbid' : 0 ≤ t.bid.value) (h : s.mul? t = some v) :
    Rounds (s.bid.value * t.bid.value) v.bid.value ∧
      Rounds (s.ask.value * t.ask.value) v.ask.value := by
  rw [ordered_iff] at hs ht
  have hside {a b : Decimal} (ha : a ∈ [s.bid, s.ask]) (hb : b ∈ [t.bid, t.ask]) :
      s.bid.value * t.bid.value ≤ a.value * b.value ∧
        a.value * b.value ≤ s.ask.value * t.ask.value := by
    have ha : s.bid.value ≤ a.value ∧ a.value ≤ s.ask.value := by
      rcases List.mem_pair.mp ha with rfl | rfl
      · exact ⟨le_rfl, hs⟩
      · exact ⟨hs, le_rfl⟩
    have hb : t.bid.value ≤ b.value ∧ b.value ≤ t.ask.value := by
      rcases List.mem_pair.mp hb with rfl | rfl
      · exact ⟨le_rfl, ht⟩
      · exact ⟨ht, le_rfl⟩
    exact ⟨mul_le_mul ha.1 hb.1 hbid' (hbid.trans ha.1),
      mul_le_mul ha.2 hb.2 (hbid'.trans hb.1) (hbid.trans hs)⟩
  constructor
  · obtain ⟨p, hp, hle, -⟩ := corner_of_mul? h (a := s.bid) (b := t.bid) (by simp) (by simp)
    obtain ⟨a, ha, b, hb, hv⟩ := sides_of_mul? h (d := v.bid) (by simp)
    have hge := (rounds_mul? hp).mono (rounds_mul? hv) (hside ha hb).1
    rw [le_antisymm hle hge]
    exact rounds_mul? hp
  · obtain ⟨p, hp, -, hge⟩ := corner_of_mul? h (a := s.ask) (b := t.ask) (by simp) (by simp)
    obtain ⟨a, ha, b, hb, hv⟩ := sides_of_mul? h (d := v.ask) (by simp)
    have hle := (rounds_mul? hv).mono (rounds_mul? hp) (hside ha hb).2
    rw [le_antisymm hle hge]
    exact rounds_mul? hp

/-- There is a product if the product of the asks can be rounded. -/
theorem isSome_mul?_iff (hs : s.Ordered) (ht : t.Ordered) (hbid : 0 ≤ s.bid.value)
    (hbid' : 0 ≤ t.bid.value) :
    (s.mul? t).isSome ↔ InReach (s.ask.value * t.ask.value) := by
  rw [ordered_iff] at hs ht
  constructor
  · intro h
    obtain ⟨v, hv⟩ := Option.isSome_iff_exists.mp h
    obtain ⟨p, hp, -⟩ := corner_of_mul? hv (a := s.ask) (b := t.ask) (by simp) (by simp)
    exact (Decimal.isSome_mul?_iff _ _).mp (Option.isSome_iff_exists.mpr ⟨p, hp⟩)
  · intro h
    have hcorner {a b : Decimal} (ha : 0 ≤ a.value ∧ a.value ≤ s.ask.value)
        (hb : 0 ≤ b.value ∧ b.value ≤ t.ask.value) : ∃ p, a.mul? b = some p := by
      refine Option.isSome_iff_exists.mp ((Decimal.isSome_mul?_iff _ _).mpr (h.mono ?_))
      rw [abs_of_nonneg (mul_nonneg ha.1 hb.1), abs_of_nonneg
        (mul_nonneg (ha.1.trans ha.2) (hb.1.trans hb.2))]
      exact mul_le_mul ha.2 hb.2 hb.1 (ha.1.trans ha.2)
    obtain ⟨p, hp⟩ := hcorner ⟨hbid, hs⟩ ⟨hbid', ht⟩
    obtain ⟨q, hq⟩ := hcorner ⟨hbid, hs⟩ ⟨hbid'.trans ht, le_rfl⟩
    obtain ⟨r, hr⟩ := hcorner ⟨hbid.trans hs, le_rfl⟩ ⟨hbid', ht⟩
    obtain ⟨w, hw⟩ := hcorner ⟨hbid.trans hs, le_rfl⟩ ⟨hbid'.trans ht, le_rfl⟩
    exact Option.isSome_iff_exists.mpr ⟨_, mul?_eq_some.mpr ⟨p, q, r, w, hp, hq, hr, hw, rfl⟩⟩

end Products

section Quotients

/-- A spread above zero has reciprocals, which are in order and not below zero. -/
theorem exists_inverse? (ht : t.Ordered) (hpos : 0 < t.bid.value) :
    ∃ u, t.inverse? = some u ∧ u.Ordered ∧ 0 ≤ u.bid.value ∧
      Rounds (1 / t.ask.value) u.bid.value ∧ Rounds (1 / t.bid.value) u.ask.value := by
  have hask : 0 < t.ask.value := hpos.trans_le (ordered_iff.mp ht)
  obtain ⟨low, hlow, -⟩ := exists_reciprocal hask.ne'
  obtain ⟨high, hhigh, -⟩ := exists_reciprocal hpos.ne'
  have hinverse := inverse?_eq_some.mpr ⟨low, high, hlow, hhigh, rfl⟩
  obtain ⟨hbid, hask'⟩ := sides_of_inverse? ht (.inl hpos) hinverse
  refine ⟨_, hinverse, ordered_of_inverse? hinverse, ?_, hbid, hask'⟩
  have hzero := rounds_value zero
  rw [value_zero] at hzero
  exact hzero.mono hbid (one_div_pos.mpr hask).le

theorem div?_eq_mul? (hpos : 0 < t.bid.value) (hu : t.inverse? = some u) :
    s.div? t = s.mul? u := by
  have htouches : t.touchesZero = false := by
    rw [touchesZero, Bool.and_eq_false_iff]
    left
    rw [Bool.eq_false_iff, ne_eq, le_iff_value, value_zero]
    exact not_le.mpr hpos
  rw [div?, htouches, if_neg (by decide), hu]
  rfl

/-- The quotient of a spread from zero on by one above zero: there is one unless the
product of the ask with the greater reciprocal is too large. Each side is rounded twice,
and so the sides are the quotients of decimals just where those come out of both roundings
too, as they do wherever the reciprocals are exact. No side is further from the exact
quotient than the two roundings can take it. -/
theorem quotient_rounds_twice (hs : s.Ordered) (ht : t.Ordered) (hbid : 0 ≤ s.bid.value)
    (hpos : 0 < t.bid.value) :
    ((s.div? t).isSome ↔ ∃ r, Rounds (1 / t.bid.value) r ∧ InReach (s.ask.value * r)) ∧
      ∀ v, s.div? t = some v →
        (RoundsTwice s.bid.value t.ask.value v.bid.value ∧
          RoundsTwice s.ask.value t.bid.value v.ask.value) ∧
        (∀ bid ask, s.bid.div? t.ask = some bid → s.ask.div? t.bid = some ask →
          (v.sameValue ⟨bid, ask⟩ ↔ RoundsTwice s.bid.value t.ask.value bid.value ∧
            RoundsTwice s.ask.value t.bid.value ask.value)) ∧
        (Rounds (1 / t.ask.value) (1 / t.ask.value) →
          Rounds (s.bid.value / t.ask.value) v.bid.value) ∧
        (Rounds (1 / t.bid.value) (1 / t.bid.value) →
          Rounds (s.ask.value / t.bid.value) v.ask.value) ∧
        |v.bid.value - s.bid.value / t.ask.value| * tenTo maxScale ≤
          1 / 2 + 3 * s.bid.value * max (1 / 2) (1 / t.ask.value) ∧
        |v.ask.value - s.ask.value / t.bid.value| * tenTo maxScale ≤
          1 / 2 + 3 * s.ask.value * max (1 / 2) (1 / t.bid.value) := by
  obtain ⟨u, hu, hordered, hnonneg, hlow, hhigh⟩ := exists_inverse? ht hpos
  rw [div?_eq_mul? hpos hu]
  constructor
  · rw [isSome_mul?_iff hs hordered hbid hnonneg]
    constructor
    · exact fun h => ⟨_, hhigh, h⟩
    · rintro ⟨r, hr, h⟩
      rwa [hhigh.unique hr]
  · intro v hv
    obtain ⟨hvbid, hvask⟩ := rounds_of_mul? hs hordered hbid hnonneg hv
    have hbids : RoundsTwice s.bid.value t.ask.value v.bid.value := ⟨_, hlow, hvbid⟩
    have hasks : RoundsTwice s.ask.value t.bid.value v.ask.value := ⟨_, hhigh, hvask⟩
    refine ⟨⟨hbids, hasks⟩, fun bid ask _ _ => ?_, hbids.rounds_of_exact, hasks.rounds_of_exact,
      ?_, ?_⟩
    · rw [sameValue, Bool.and_eq_true, sameValue_iff_value, sameValue_iff_value, hbids.eq_iff,
        hasks.eq_iff]
    · exact hbids.error_le hbid (hpos.trans_le (ordered_iff.mp ht))
    · exact hasks.error_le (hbid.trans (ordered_iff.mp hs)) hpos

/-- Seven by seven comes out above one. -/
theorem seven_by_seven :
    let seven : Spread := point (.ofNat 7)
    let v : Spread := point ⟨false, 10000000000000000000000000003, 28, by decide, by decide⟩
    seven.Ordered ∧ 0 ≤ seven.bid.value ∧ 0 < seven.bid.value ∧
      seven.bid.div? seven.ask = some .one ∧ seven.div? seven = some v ∧
      ¬RoundsTwice seven.bid.value seven.ask.value Decimal.one.value := by
  intro seven v
  have hordered : seven.Ordered := ordered_point _
  have hpos : 0 < seven.bid.value := by
    norm_num [seven, point, value, signed, ofNat, tenTo]
  have hone : seven.bid.div? seven.ask = some .one := by decide +kernel
  have hv : seven.div? seven = some v := by decide +kernel
  refine ⟨hordered, hpos.le, hpos, hone, hv, fun hrounds => ?_⟩
  have hiff := ((quotient_rounds_twice hordered hordered hpos.le hpos).2 v hv).2.1 .one .one hone hone
  exact absurd (hiff.mpr ⟨hrounds, hrounds⟩) (by decide +kernel)

end Quotients

end Rates.Spread

end Paydesk

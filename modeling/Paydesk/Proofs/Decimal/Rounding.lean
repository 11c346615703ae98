import Mathlib.Algebra.Order.Field.Basic
import Mathlib.Algebra.Order.Field.Rat
import Mathlib.Tactic.Linarith
import Mathlib.Tactic.Positivity
import Mathlib.Tactic.Ring
import Paydesk.Proofs.Decimal.Sign

/-!
Decimals as rational numbers, and what it means that one of them is a number
with as many of its places as fit. A number that is rounded in this way keeps
its order to others, although each of them is rounded at places of its own.
-/

namespace Paydesk

namespace Decimal

theorem tenTo_cast_pos (k : Nat) : (0 : ℚ) < tenTo k := Nat.cast_pos.mpr (tenTo_pos k)

theorem tenTo_cast_add (j k : Nat) : (tenTo (j + k) : ℚ) = tenTo j * tenTo k := by
  exact_mod_cast tenTo_add j k

theorem tenTo_cast_succ (k : Nat) : (tenTo (k + 1) : ℚ) = tenTo k * 10 := tenTo_cast_add k 1

theorem div_add_mod_div (n : Nat) {d : Nat} (hd : 0 < d) :
    ((n / d : Nat) : ℚ) + ((n % d : Nat) : ℚ) / d = n / d := by
  have hcast : (d : ℚ) ≠ 0 := Nat.cast_ne_zero.mpr hd.ne'
  rw [eq_div_iff hcast, add_mul, div_mul_cancel₀ _ hcast, mul_comm _ (d : ℚ)]
  exact_mod_cast Nat.div_add_mod n d

/-- A shift by all places but some divides by the others. -/
theorem div_tenTo_mul_tenTo (x : ℚ) {k scale : Nat} (hk : k ≤ scale) :
    x / tenTo scale * tenTo (scale - k) = x / tenTo k := by
  have hsplit := tenTo_cast_add (scale - k) k
  rw [Nat.sub_add_cancel hk] at hsplit
  rw [hsplit, div_mul_eq_mul_div, mul_comm (tenTo _ : ℚ),
    mul_div_mul_right _ _ (tenTo_cast_pos _).ne']

/-- The integer nearest to a number; of two such integers, the even one. -/
structure Nearest (x : ℚ) (n : ℤ) : Prop where
  lower : 2 * n - 1 ≤ 2 * x
  upper : 2 * x ≤ 2 * n + 1
  even : 2 * x = 2 * n - 1 ∨ 2 * x = 2 * n + 1 → n % 2 = 0

namespace Nearest

variable {x y : ℚ} {m n : ℤ}

theorem mono (hx : Nearest x m) (hy : Nearest y n) (h : x ≤ y) : m ≤ n := by
  by_contra hlt
  have hstep : n + 1 ≤ m := by omega
  have hcast : (n : ℚ) + 1 ≤ m := by exact_mod_cast hstep
  have hlower := hx.lower
  have hupper := hy.upper
  -- the two numbers meet in the middle between two integers, which are not both even
  have hm := hx.even (.inl (by linarith))
  have hn := hy.even (.inr (by linarith))
  have hsame : m = n + 1 := by
    have : (m : ℚ) = n + 1 := by linarith
    exact_mod_cast this
  omega

protected theorem neg (h : Nearest x n) : Nearest (-x) (-n) := by
  have hlower := h.lower
  have hupper := h.upper
  refine ⟨by push_cast; linarith, by push_cast; linarith, fun hmiddle => ?_⟩
  have := h.even (hmiddle.symm.imp (fun h => by push_cast at h; linarith)
    fun h => by push_cast at h; linarith)
  omega

theorem of_int (n : ℤ) : Nearest n n where
  lower := by linarith
  upper := by linarith
  even := by
    rintro (h | h) <;> linarith

theorem nonneg (h : Nearest x n) (hx : 0 ≤ x) : 0 ≤ n :=
  (of_int 0).mono h (by simpa using hx)

theorem nonpos (h : Nearest x n) (hx : x ≤ 0) : n ≤ 0 :=
  h.mono (of_int 0) (by simpa using hx)

/-- A number between two neighbours goes to the upper one past the middle, and
in the middle if the lower one is odd. -/
theorem of_parts (q : Nat) {f : ℚ} (hf : 0 ≤ f) (hlt : f < 1) {up : Bool}
    (hup : up ↔ 1 < 2 * f ∨ 2 * f = 1 ∧ q % 2 = 1) :
    Nearest (q + f) ((if up then q + 1 else q : Nat) : ℤ) := by
  cases up with
  | true =>
      have hhalf : 1 ≤ 2 * f := by
        rcases hup.mp rfl with h | ⟨h, -⟩ <;> linarith
      rw [if_pos rfl]
      refine ⟨by push_cast; linarith, by push_cast; linarith, fun hmiddle => ?_⟩
      rcases hup.mp rfl with h | ⟨-, hodd⟩
      · rcases hmiddle with h | h <;> push_cast at h <;> linarith
      · omega
  | false =>
      have hnot := not_or.mp (mt hup.mpr (by decide))
      have hhalf : 2 * f ≤ 1 := not_lt.mp hnot.1
      rw [if_neg (by decide)]
      refine ⟨by push_cast; linarith, by push_cast; linarith, fun hmiddle => ?_⟩
      have hone : 2 * f = 1 := by
        rcases hmiddle with h | h <;> push_cast at h <;> linarith
      have := (not_and.mp hnot.2) hone
      omega

/-- The rule of a long division: the remainder is compared with half the divisor. -/
theorem of_remainder (q : Nat) {r d : Nat} (hr : r < d) :
    Nearest (q + r / d)
      ((if d < 2 * r || (2 * r == d && q % 2 == 1) then q + 1 else q : Nat) : ℤ) := by
  have hpos : (0 : ℚ) < d := Nat.cast_pos.mpr (Nat.zero_lt_of_lt hr)
  refine of_parts q (by positivity) ?_ ?_
  · rw [div_lt_iff₀ hpos, one_mul]
    exact_mod_cast hr
  · rw [Bool.or_eq_true, Bool.and_eq_true, decide_eq_true_iff, beq_iff_eq, beq_iff_eq,
      mul_div_assoc', lt_div_iff₀ hpos, one_mul, div_eq_one_iff_eq hpos.ne']
    norm_cast

theorem roundDiv (n : Nat) {d : Nat} (hd : 0 < d) :
    Nearest (n / d) (Decimal.roundDiv n d : Nat) := by
  rw [← div_add_mod_div n hd]
  exact of_remainder _ (Nat.mod_lt n hd)

theorem exists_nearest (x : ℚ) : ∃ n, Nearest x n := by
  have hmagnitude : |x| = (x.num.natAbs : ℚ) / x.den := by
    conv_lhs => rw [← Rat.num_div_den x]
    rw [abs_div, Nat.abs_cast, Nat.cast_natAbs, Int.cast_abs]
  have hnearest := roundDiv x.num.natAbs x.den_pos
  rw [← hmagnitude] at hnearest
  rcases le_total 0 x with h | h
  · rw [abs_of_nonneg h] at hnearest
    exact ⟨_, hnearest⟩
  · rw [abs_of_nonpos h] at hnearest
    exact ⟨_, neg_neg x ▸ hnearest.neg⟩

/-- A number beyond an integer is rounded beyond it as well. -/
theorem exists_of_le (h : n ≤ x) : ∃ k, Nearest x k ∧ n ≤ |k| := by
  obtain ⟨k, hk⟩ := exists_nearest x
  exact ⟨k, hk, ((of_int n).mono hk h).trans (le_abs_self k)⟩

end Nearest

/-- The second number is the first one at a number of places that fit: it is
exact, or has all 28 places, or one more place would take a larger mantissa. -/
structure RoundsAt (x w : ℚ) (scale : Nat) (m : ℤ) : Prop where
  scale_le : scale ≤ maxScale
  fits : |m| < mantissaLimit
  value_eq : w * tenTo scale = m
  nearest : Nearest (x * tenTo scale) m
  places : w = x ∨ scale = maxScale ∨
    ∃ n : ℤ, Nearest (x * tenTo (scale + 1)) n ∧ (mantissaLimit : ℤ) ≤ |n|

/-- The second number is the first one with as many of its places as fit. -/
def Rounds (x w : ℚ) : Prop := ∃ scale m, RoundsAt x w scale m

section Mono

variable {x y w v : ℚ} {s t : Nat} {m n : ℤ}

protected theorem RoundsAt.neg (h : RoundsAt x w s m) : RoundsAt (-x) (-w) s (-m) where
  scale_le := h.scale_le
  fits := by
    rw [abs_neg]
    exact h.fits
  value_eq := by
    push_cast
    rw [neg_mul, h.value_eq]
  nearest := by
    rw [neg_mul]
    exact h.nearest.neg
  places := by
    refine h.places.imp (congrArg _) (Or.imp id ?_)
    rintro ⟨n, hn, hlarge⟩
    refine ⟨-n, ?_, ?_⟩
    · rw [neg_mul]
      exact hn.neg
    · rwa [abs_neg]

protected theorem Rounds.neg (h : Rounds x w) : Rounds (-x) (-w) := by
  obtain ⟨s, m, h⟩ := h
  exact ⟨s, -m, h.neg⟩

/-- The limit divided by ten is rounded up, so that a negative number which has
no room for a further place is not above any mantissa at that place. -/
theorem RoundsAt.mantissa_le {k : ℤ} (h : RoundsAt x w s m) (hk : Nearest (x * tenTo (s + 1)) k)
    (hlarge : k ≤ -mantissaLimit) : 10 * m ≤ -(mantissaLimit - 1) := by
  have hcast : (k : ℚ) ≤ -mantissaLimit := by exact_mod_cast hlarge
  have hupper := hk.upper
  have hlower := h.nearest.lower
  rw [tenTo_cast_succ] at hupper
  have hdropped : 20 * m ≤ -2 * mantissaLimit + 11 := by
    have : (20 : ℚ) * m ≤ -2 * mantissaLimit + 11 := by linarith
    exact_mod_cast this
  simp only [mantissaLimit] at hdropped ⊢
  omega

/-- A number that keeps fewer places than a larger one is not above it: it is
exact, or negative and too large for the places of the other. -/
theorem RoundsAt.le_of_lt (hx : RoundsAt x w s m) (hy : RoundsAt y v t n) (hle : x ≤ y)
    (hst : s < t) : w ≤ v := by
  have htpos := tenTo_cast_pos t
  have hfiner : (tenTo (s + 1) : ℚ) ≤ tenTo t := by exact_mod_cast tenTo_mono hst
  have hbound := abs_lt.mp hy.fits
  rcases hx.places with rfl | rfl | ⟨k, hk, hlarge⟩
  · -- an exact number is an integer at the finer places as well
    have hfine : w * tenTo t = ((m * tenTo (t - s) : ℤ) : ℚ) := by
      rw [show t = s + (t - s) by omega, tenTo_cast_add, ← mul_assoc, hx.value_eq,
        Nat.add_sub_cancel_left]
      norm_cast
    have hint : Nearest (w * tenTo t) (m * tenTo (t - s)) := hfine ▸ Nearest.of_int _
    refine le_of_mul_le_mul_right ?_ htpos
    rw [hfine, hy.value_eq]
    exact_mod_cast hint.mono hy.nearest (mul_le_mul_of_nonneg_right hle htpos.le)
  · exact absurd hy.scale_le (by omega)
  · rcases le_or_gt 0 x with hpos | hneg
    · -- a positive number would be too large for the other places, and the larger one with it
      have hkn := hk.mono hy.nearest ((mul_le_mul_of_nonneg_left hfiner hpos).trans
        (mul_le_mul_of_nonneg_right hle htpos.le))
      have hknonneg := hk.nonneg (mul_nonneg hpos (tenTo_cast_pos _).le)
      rw [abs_of_nonneg hknonneg] at hlarge
      omega
    · have hknonpos := hk.nonpos (mul_nonpos_of_nonpos_of_nonneg hneg.le (tenTo_cast_pos _).le)
      rw [abs_of_nonpos hknonpos] at hlarge
      have hshort := hx.mantissa_le hk (by omega)
      have hleft : w * tenTo (s + 1) ≤ -(mantissaLimit - 1) := by
        rw [tenTo_cast_succ, ← mul_assoc, hx.value_eq, mul_comm]
        exact_mod_cast hshort
      have hright : -((mantissaLimit : ℚ) - 1) ≤ v * tenTo t := by
        rw [hy.value_eq]
        exact_mod_cast (by omega : -((mantissaLimit : ℤ) - 1) ≤ n)
      have hnonpos : -((mantissaLimit : ℚ) - 1) ≤ 0 := by
        have : (1 : ℚ) ≤ mantissaLimit := by exact_mod_cast (by decide : 1 ≤ mantissaLimit)
        linarith
      calc w ≤ -((mantissaLimit : ℚ) - 1) / tenTo (s + 1) :=
            (le_div_iff₀ (tenTo_cast_pos _)).mpr hleft
        _ ≤ -((mantissaLimit : ℚ) - 1) / tenTo t := by
            rw [div_le_div_iff₀ (tenTo_cast_pos _) htpos]
            exact mul_le_mul_of_nonpos_left hfiner hnonpos
        _ ≤ v := (div_le_iff₀ htpos).mpr hright

/-- Rounding keeps the order, at whichever places the two numbers are rounded. -/
theorem Rounds.mono (hx : Rounds x w) (hy : Rounds y v) (hle : x ≤ y) : w ≤ v := by
  obtain ⟨s, m, hx⟩ := hx
  obtain ⟨t, n, hy⟩ := hy
  rcases Nat.lt_trichotomy s t with hst | rfl | hts
  · exact hx.le_of_lt hy hle hst
  · have hpos := tenTo_cast_pos s
    have hmn := hx.nearest.mono hy.nearest (mul_le_mul_of_nonneg_right hle hpos.le)
    refine le_of_mul_le_mul_right ?_ hpos
    rw [hx.value_eq, hy.value_eq]
    exact_mod_cast hmn
  · exact neg_le_neg_iff.mp (hy.neg.le_of_lt hx.neg (neg_le_neg hle) hts)

theorem Rounds.unique (hw : Rounds x w) (hv : Rounds x v) : w = v :=
  le_antisymm (hw.mono hv le_rfl) (hv.mono hw le_rfl)

end Mono

/-- A magnitude with a sign. -/
def withSign (negative : Bool) (x : ℚ) : ℚ := if negative then -x else x

protected theorem Rounds.withSign {x w : ℚ} (h : Rounds x w) (negative : Bool) :
    Rounds (withSign negative x) (withSign negative w) := by
  cases negative with
  | false => exact h
  | true => exact h.neg

/-- The number that a decimal stands for. -/
def value (d : Decimal) : ℚ := d.signed / tenTo d.scale

section Value

variable {a b d : Decimal}

theorem value_eq_withSign (d : Decimal) :
    d.value = withSign d.negative (d.mantissa / tenTo d.scale) := by
  rw [value, signed, withSign]
  split_ifs
  · push_cast
    rw [neg_div]
  · rfl

theorem value_mul_tenTo (d : Decimal) : d.value * tenTo d.scale = d.signed :=
  div_mul_cancel₀ _ (tenTo_cast_pos _).ne'

@[simp] theorem value_neg (d : Decimal) : d.neg.value = -d.value := by
  rw [value, signed_neg, value]
  push_cast
  rw [neg_div]
  rfl

@[simp] theorem value_zero : zero.value = 0 := by
  simp [value, signed, zero, ofNat]

@[simp] theorem value_one : one.value = 1 := by
  simp [value, signed, one, ofNat, tenTo]

theorem value_eq_zero_iff : d.value = 0 ↔ d.isZero := by
  rw [value, div_eq_zero_iff, or_iff_left (tenTo_cast_pos _).ne', Int.cast_eq_zero, signed, isZero,
    beq_iff_eq]
  split_ifs <;> omega

theorem abs_signed (d : Decimal) : |d.signed| = d.mantissa := by
  rw [signed]
  split_ifs
  · rw [abs_neg, Nat.abs_cast]
  · rw [Nat.abs_cast]

theorem lt_iff_value : a.lt b ↔ a.value < b.value := by
  rw [lt_iff, value, value, div_lt_div_iff₀ (tenTo_cast_pos _) (tenTo_cast_pos _)]
  norm_cast

theorem le_iff_value : a.le b ↔ a.value ≤ b.value := by
  rw [value, value, div_le_div_iff₀ (tenTo_cast_pos _) (tenTo_cast_pos _)]
  simp only [le, compare, bne_iff_ne, Int.compare_ne_gt]
  norm_cast

theorem sameValue_iff_value : a.sameValue b ↔ a.value = b.value := by
  rw [value, value, div_eq_div_iff (tenTo_cast_pos _).ne' (tenTo_cast_pos _).ne']
  simp only [sameValue, compare, beq_iff_eq, Int.compare_eq_eq]
  norm_cast

/-- A decimal is its own number at its own places. -/
theorem rounds_value (d : Decimal) : Rounds d.value d.value := by
  refine ⟨d.scale, d.signed, d.scale_le, ?_, value_mul_tenTo d, ?_, .inl rfl⟩
  · rw [abs_signed]
    exact_mod_cast d.mantissa_lt
  · rw [value_mul_tenTo]
    exact Nearest.of_int _

end Value

end Decimal

end Paydesk

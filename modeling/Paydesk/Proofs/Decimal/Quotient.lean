import Mathlib.Tactic.LinearCombination
import Paydesk.Proofs.Decimal.Arithmetic

/-!
The long division of decimals: in which state its digits and its remainder are
the exact quotient, and that it stops at as many places as fit.
-/

namespace Paydesk.Decimal

section Widening

variable {q room : Nat}

theorem widening_le_nine (q room : Nat) : widening q room ≤ 9 := by
  unfold widening
  cases h : (List.range (min 9 room + 1)).reverse.find? fun k => q * tenTo k < mantissaLimit with
  | none => simp
  | some k =>
      have hmem := List.mem_of_find?_eq_some h
      simp only [List.mem_reverse, List.mem_range] at hmem
      simp only [Option.getD_some]
      omega

theorem widening_fits (hq : q < mantissaLimit) : q * tenTo (widening q room) < mantissaLimit := by
  unfold widening
  cases h : (List.range (min 9 room + 1)).reverse.find? fun k => q * tenTo k < mantissaLimit with
  | none => simpa [tenTo] using hq
  | some k => simpa using List.find?_some h

/-- The places are tried from the largest number of them. -/
theorem le_widening {k : Nat} (hnine : k ≤ 9) (hroom : k ≤ room)
    (hfits : q * tenTo k < mantissaLimit) : k ≤ widening q room := by
  unfold widening
  have hmem : k ∈ (List.range (min 9 room + 1)).reverse := by
    simp only [List.mem_reverse, List.mem_range]
    omega
  cases h : (List.range (min 9 room + 1)).reverse.find? fun k => q * tenTo k < mantissaLimit with
  | none => exact absurd hfits (by simpa using List.find?_eq_none.mp h k hmem)
  | some l =>
      obtain ⟨-, before, after, hsplit, hbefore⟩ := List.find?_eq_some_iff_append.mp h
      rw [hsplit, List.mem_append, List.mem_cons] at hmem
      rcases hmem with hmem | rfl | hmem
      · exact absurd hfits (by simpa using hbefore k hmem)
      · exact le_rfl
      · have hsorted : (before ++ l :: after).Pairwise (· > ·) := by
          rw [← hsplit, List.pairwise_reverse]
          exact List.pairwise_lt_range
        have := (List.pairwise_cons.mp (List.pairwise_append.mp hsorted).2.1).1 k hmem
        simpa using Nat.le_of_lt this

/-- No further place is taken only if none is free or the next one does not fit. -/
theorem room_of_widening_eq_zero (h : widening q room = 0) :
    room = 0 ∨ mantissaLimit ≤ q * 10 := by
  by_contra hnot
  obtain ⟨hroom, hfits⟩ := not_or.mp hnot
  have := le_widening (k := 1) (by decide) (Nat.pos_of_ne_zero hroom) (Nat.lt_of_not_le hfits)
  omega

end Widening

/-- Where a long division of `u` may stop: its digits are `u` rounded at the
places that are left, and there is no further place to take. -/
structure Settled (u : ℚ) (q places : Nat) : Prop where
  fits : q < mantissaLimit
  places_le : places ≤ maxScale
  nearest : Nearest (u / tenTo places) q
  ends : q * tenTo places = u ∨ places = 0 ∨
    ∃ n : ℤ, Nearest (u / tenTo (places - 1)) n ∧ (mantissaLimit : ℤ) ≤ |n|

namespace Settled

variable {q n places : Nat} {f : ℚ}

theorem exact (hq : q < mantissaLimit) (hplaces : places ≤ maxScale) :
    Settled (q * tenTo places) q places where
  fits := hq
  places_le := hplaces
  nearest := by
    rw [mul_div_cancel_right₀ _ (tenTo_cast_pos _).ne']
    exact Nearest.of_int q
  ends := .inl rfl

/-- At the last free place, or where the next place would take the digits past
the limit, the remainder is rounded away. -/
theorem of_rounded (hf : 0 ≤ f) (hn : Nearest (q + f) n) (hfits : n < mantissaLimit)
    (hplaces : places ≤ maxScale) (hroom : places = 0 ∨ mantissaLimit ≤ q * 10) :
    Settled ((q + f) * tenTo places) n places where
  fits := hfits
  places_le := hplaces
  nearest := by
    rwa [mul_div_cancel_right₀ _ (tenTo_cast_pos _).ne']
  ends := by
    rcases hroom with rfl | hlarge
    · exact .inr (.inl rfl)
    rcases Nat.eq_zero_or_pos places with rfl | hpos
    · exact .inr (.inl rfl)
    refine .inr (.inr ?_)
    have hnext : (q + f) * tenTo places / tenTo (places - 1) = (q + f) * 10 := by
      rw [show places = places - 1 + 1 by omega, tenTo_cast_succ, Nat.add_sub_cancel,
        ← mul_assoc, mul_right_comm, mul_div_cancel_right₀ _ (tenTo_cast_pos _).ne']
    rw [hnext]
    refine Nearest.exists_of_le ?_
    have : (mantissaLimit : ℚ) ≤ q * 10 := by exact_mod_cast hlarge
    push_cast
    linarith

/-- A digit and what follows it are compared with the middle at five. -/
theorem dropped_iff {digit next : Nat} {more : Bool} (hf : 0 ≤ f) (hlt : f < 1)
    (hmore : more ↔ f ≠ 0) :
    (5 < digit || (digit == 5 && (more || next % 2 == 1))) = true ↔
      1 < 2 * ((digit + f) / 10) ∨ 2 * ((digit + f) / 10) = 1 ∧ next % 2 = 1 := by
  rcases Nat.lt_trichotomy digit 5 with h | rfl | h
  · have : (digit : ℚ) ≤ 4 := by exact_mod_cast Nat.le_of_lt_succ h
    have hbelow : 2 * ((digit + f) / 10) < 1 := by linarith
    simp [h.ne, Nat.lt_asymm h, hbelow.ne, hbelow.le]
  · rcases hf.eq_or_lt with rfl | hpos
    · have : more = false := by simpa using hmore
      norm_num [this]
    · have : more = true := by simpa using hmore.mpr hpos.ne'
      have habove : 1 < 2 * ((5 + f) / 10) := by linarith
      simp [this, habove]
  · have : (6 : ℚ) ≤ digit := by exact_mod_cast h
    have habove : 1 < 2 * ((digit + f) / 10) := by linarith
    simp [h, habove]

/-- The digits have outgrown the limit: the last of them is rounded away, with
the remainder only telling whether more digits follow. -/
theorem of_dropPlace? {more : Bool} {n left : Nat} (hf : 0 ≤ f) (hlt : f < 1)
    (hmore : more ↔ f ≠ 0) (hlarge : ∃ m : ℤ, Nearest (q + f) m ∧ (mantissaLimit : ℤ) ≤ |m|)
    (hsmall : q + 10 < mantissaLimit * 10) (h : dropPlace? q places more = some (n, left)) :
    Settled ((q + f) * tenTo places) n left := by
  unfold dropPlace? at h
  split_ifs at h with hplaces
  obtain ⟨rfl, rfl⟩ := Prod.mk.inj (Option.some.inj h)
  have hten : (q + f) * tenTo places / tenTo (places + 1) =
      (q / 10 : Nat) + ((q % 10 : Nat) + f) / 10 := by
    have hdigits : (q : ℚ) = 10 * (q / 10 : Nat) + (q % 10 : Nat) := by
      exact_mod_cast (Nat.div_add_mod q 10).symm
    rw [tenTo_cast_succ, mul_comm (q + f), mul_div_mul_left _ _ (tenTo_cast_pos _).ne', hdigits]
    ring
  have hdigit : ((q % 10 : Nat) : ℚ) ≤ 9 := by
    exact_mod_cast Nat.le_of_lt_succ (Nat.mod_lt q (by decide))
  refine ⟨by split_ifs <;> omega, Nat.lt_of_not_le hplaces, ?_, .inr (.inr ?_)⟩
  · rw [hten]
    exact Nearest.of_parts _ (by positivity) (by linarith) (dropped_iff hf hlt hmore)
  · rwa [Nat.add_sub_cancel, mul_div_cancel_right₀ _ (tenTo_cast_pos _).ne']

/-- The digits have outgrown the limit only by being rounded up to it. Ten of the
limit is rounded up as well, so that rounding twice makes no difference. -/
theorem of_dropPlace?_roundedUp {n left : Nat} (hlt : f < 1) (hup : Nearest (q + f) (q + 1 : Nat))
    (hq : q + 1 = mantissaLimit) (h : dropPlace? (q + 1) places true = some (n, left)) :
    Settled ((q + f) * tenTo places) n left := by
  unfold dropPlace? at h
  split_ifs at h with hplaces
  obtain ⟨hn, rfl⟩ := Prod.mk.inj (Option.some.inj h)
  rw [hq] at hn
  have hvalue : n = 7922816251426433759354395034 := by rw [← hn]; decide
  have hcast : (q : ℚ) + 1 = 79228162514264337593543950336 := by
    rw [show mantissaLimit = 79228162514264337593543950336 by decide] at hq
    exact_mod_cast hq
  have hlower := hup.lower
  push_cast at hlower
  have hten : (q + f) * tenTo places / tenTo (places + 1) = (q + f) / 10 := by
    rw [tenTo_cast_succ, mul_comm (q + f), mul_div_mul_left _ _ (tenTo_cast_pos _).ne']
  refine ⟨by rw [hvalue]; decide, Nat.lt_of_not_le hplaces, ?_, .inr (.inr ⟨(q + 1 : Nat), ?_, ?_⟩)⟩
  · rw [hten, hvalue]
    refine ⟨by push_cast; linarith, by push_cast; linarith, fun _ => by decide⟩
  · rwa [Nat.add_sub_cancel, mul_div_cancel_right₀ _ (tenTo_cast_pos _).ne']
  · rw [Nat.abs_cast, hq]

end Settled

/-- Widening by some places leaves the quotient as it is. -/
theorem widen_quotient {divisor : Nat} (hpos : 0 < divisor) (q r : Nat) {k places : Nat}
    (hk : k ≤ places) :
    ((q + r / divisor) * tenTo places : ℚ) =
      ((q * tenTo k + r * tenTo k / divisor : Nat) +
        ((r * tenTo k % divisor : Nat) : ℚ) / divisor) * tenTo (places - k) := by
  have hdivisor : (divisor : ℚ) ≠ 0 := Nat.cast_ne_zero.mpr hpos.ne'
  have hparts : (r * tenTo k : ℚ) =
      divisor * (r * tenTo k / divisor : Nat) + (r * tenTo k % divisor : Nat) := by
    exact_mod_cast (Nat.div_add_mod (r * tenTo k) divisor).symm
  have hsplit := tenTo_cast_add k (places - k)
  rw [Nat.add_sub_cancel' hk] at hsplit
  have hrest : (r * tenTo k / divisor : Nat) + ((r * tenTo k % divisor : Nat) : ℚ) / divisor =
      r * tenTo k / divisor := by
    rw [hparts, add_div, mul_div_cancel_left₀ _ hdivisor]
  rw [hsplit]
  push_cast at hrest ⊢
  rw [add_assoc, hrest]
  ring

/-- Places that fit for the digits, but not together with those of the remainder. -/
theorem settled_of_outgrown {divisor q r k places n left : Nat} (hr : r < divisor)
    (hk : k ≤ places) (hnine : k ≤ 9) (hfits : q * tenTo k < mantissaLimit)
    (hover : mantissaLimit ≤ q * tenTo k + r * tenTo k / divisor)
    (hdrop : dropPlace? (q * tenTo k + r * tenTo k / divisor) (places - k)
      (r * tenTo k % divisor != 0) = some (n, left)) :
    Settled ((q + r / divisor) * tenTo places) n left := by
  have hpos : 0 < divisor := Nat.zero_lt_of_lt hr
  have hcast : (0 : ℚ) < divisor := Nat.cast_pos.mpr hpos
  have hrest : (0 : ℚ) ≤ ((r * tenTo k % divisor : Nat) : ℚ) / divisor := by positivity
  rw [widen_quotient hpos q r hk]
  refine Settled.of_dropPlace? hrest ?_ ?_ ?_ ?_ hdrop
  · rw [div_lt_iff₀ hcast, one_mul]
    exact_mod_cast Nat.mod_lt _ hpos
  · rw [bne_iff_ne, div_ne_zero_iff, and_iff_left hcast.ne', Nat.cast_ne_zero]
  · refine Nearest.exists_of_le (le_trans ?_ (le_add_of_nonneg_right hrest))
    rw [Int.cast_natCast]
    exact Nat.cast_le.mpr hover
  · have hdigits : r * tenTo k / divisor < tenTo 9 := by
      rw [Nat.div_lt_iff_lt_mul hpos, Nat.mul_comm (tenTo 9)]
      have := Nat.mul_lt_mul_of_pos_right hr (tenTo_pos k)
      have := Nat.mul_le_mul_left divisor (tenTo_mono hnine)
      omega
    have : tenTo 9 + 10 < mantissaLimit * 9 := by decide
    omega

/-- A long division keeps the exact quotient in its digits and its remainder,
until it is settled. -/
theorem settled_divideFrom {divisor q r places n left : Nat} {inexact more : Bool}
    (hr : r < divisor) (hq : q < mantissaLimit)
    (h : divideFrom divisor q r places inexact = some (n, left, more)) :
    Settled ((q + r / divisor) * tenTo places) n left := by
  have hpos : 0 < divisor := Nat.zero_lt_of_lt hr
  have hcast : (0 : ℚ) < divisor := Nat.cast_pos.mpr hpos
  have hfraction {r : Nat} (hr : r < divisor) : (r : ℚ) / divisor < 1 := by
    rw [div_lt_iff₀ hcast, one_mul]
    exact_mod_cast hr
  have hplaces {q places : Nat}
      (hmany : ¬(decide (widening q places < 9) && decide (maxScale + widening q places < places)))
      (hzero : widening q places = 0) : places ≤ maxScale := by
    rw [hzero] at hmany
    simpa using hmany
  induction q, r, places, inexact using divideFrom.induct divisor with
  | case1 q places inexact hplaces =>
      rw [divideFrom, if_pos rfl, if_pos hplaces] at h
      cases h
      rw [Nat.cast_zero, zero_div, add_zero]
      exact Settled.exact hq hplaces
  | case2 q places inexact hplaces k hfits ih =>
      rw [divideFrom, if_pos rfl, if_neg hplaces] at h
      dsimp only at h
      rw [if_pos hfits] at h
      have := ih hr hfits h
      rw [widen_quotient hpos q 0 (show k ≤ places by omega)]
      simpa using this
  | case3 q places inexact hplaces k hover =>
      rw [divideFrom, if_pos rfl, if_neg hplaces] at h
      dsimp only at h
      rw [if_neg hover] at h
      cases h
  | case4 q r places inexact hrest k hmany =>
      rw [divideFrom, if_neg hrest] at h
      dsimp only at h
      rw [if_pos hmany] at h
      cases h
  | case5 q r places inexact hrest k hmany hzero up hup =>
      rw [divideFrom, if_neg hrest] at h
      dsimp only at h
      rw [if_neg hmany, if_pos hzero, if_pos hup] at h
      have hnearest := Nearest.of_remainder q hr
      rw [if_neg (Bool.not_eq_true _ ▸ Bool.not_eq_true' _ ▸ hup)] at hnearest
      cases h
      exact Settled.of_rounded (by positivity) hnearest hq (hplaces hmany hzero)
        (room_of_widening_eq_zero hzero)
  | case6 q r places inexact hrest k hmany hzero up hup hfits =>
      rw [divideFrom, if_neg hrest] at h
      dsimp only at h
      rw [if_neg hmany, if_pos hzero, if_neg hup, if_pos hfits] at h
      cases h
      rw [Bool.not_eq_true', Bool.not_eq_false] at hup
      have hnearest := Nearest.of_remainder q hr
      rw [if_pos hup] at hnearest
      exact Settled.of_rounded (by positivity) hnearest hfits (hplaces hmany hzero)
        (room_of_widening_eq_zero hzero)
  | case7 q r places inexact hrest k hmany hzero up hup hover =>
      rw [divideFrom, if_neg hrest] at h
      dsimp only at h
      rw [if_neg hmany, if_pos hzero, if_neg hup, if_neg hover] at h
      rw [Bool.not_eq_true', Bool.not_eq_false] at hup
      obtain ⟨⟨_, _⟩, hdrop, hparts⟩ := Option.map_eq_some_iff.mp h
      cases hparts
      have hnearest := Nearest.of_remainder q hr
      rw [if_pos hup] at hnearest
      exact Settled.of_dropPlace?_roundedUp (hfraction hr) hnearest (by omega) hdrop
  | case8 q r places inexact hrest k hmany hzero q' r' hfits ih =>
      rw [divideFrom, if_neg hrest] at h
      dsimp only at h
      rw [if_neg hmany, if_neg hzero, if_pos hfits] at h
      have := ih (Nat.mod_lt _ hpos) hfits h
      rwa [widen_quotient hpos q r (widening_le q places)]
  | case9 q r places inexact hrest k hmany hzero q' hover =>
      rw [divideFrom, if_neg hrest] at h
      dsimp only at h
      rw [if_neg hmany, if_neg hzero, if_neg hover] at h
      obtain ⟨⟨_, _⟩, hdrop, hparts⟩ := Option.map_eq_some_iff.mp h
      cases hparts
      exact settled_of_outgrown hr (widening_le q places) (widening_le_nine q places)
        (widening_fits hq) (Nat.le_of_not_lt hover) hdrop

theorem Settled.roundsAt {u : ℚ} {q places : Nat} (h : Settled u q places) :
    RoundsAt (u / tenTo maxScale) (q / tenTo (maxScale - places)) (maxScale - places) q := by
  have hplaces := h.places_le
  refine ⟨Nat.sub_le _ _, ?_, div_mul_cancel₀ _ (tenTo_cast_pos _).ne', ?_, ?_⟩
  · rw [Nat.abs_cast]
    exact_mod_cast h.fits
  · rw [div_tenTo_mul_tenTo _ hplaces]
    exact h.nearest
  · rcases h.ends with hexact | hzero | ⟨n, hn, hlarge⟩
    · refine .inl ?_
      rw [div_eq_div_iff (tenTo_cast_pos _).ne' (tenTo_cast_pos _).ne', ← hexact, mul_assoc,
        ← tenTo_cast_add, Nat.add_sub_cancel' hplaces]
    · exact .inr (.inl (by omega))
    · rcases Nat.eq_zero_or_pos places with rfl | hpos
      · exact .inr (.inl rfl)
      · refine .inr (.inr ⟨n, ?_, hlarge⟩)
        rwa [show maxScale - places + 1 = maxScale - (places - 1) by omega,
          div_tenTo_mul_tenTo _ (by omega)]

section Zeros

theorem dropZeros_value (k : Nat) (n : Nat × Nat) :
    ((dropZeros k n).1 : ℚ) / tenTo (dropZeros k n).2 = n.1 / tenTo n.2 := by
  unfold dropZeros
  split_ifs with h
  · obtain ⟨hk, hzeros⟩ : k ≤ n.2 ∧ n.1 % tenTo k = 0 := by simpa using h
    rw [div_eq_div_iff (tenTo_cast_pos _).ne' (tenTo_cast_pos _).ne']
    have hmantissa := Nat.div_mul_cancel (Nat.dvd_of_mod_eq_zero hzeros)
    have hscale := tenTo_add k (n.2 - k)
    rw [Nat.add_sub_cancel' hk] at hscale
    rw [hscale, ← hmantissa]
    simp only [Nat.mul_div_cancel _ (tenTo_pos k)]
    push_cast
    ring
  · rfl

theorem dropEights_value (q scale : Nat) :
    ((dropEights q scale).1 : ℚ) / tenTo (dropEights q scale).2 = q / tenTo scale := by
  induction q, scale using dropEights.induct with
  | case1 q scale h ih =>
      rw [dropEights, if_pos h, ih]
      have := dropZeros_value 8 (q, scale + 8)
      rwa [dropZeros, if_pos (by simpa using (Bool.and_eq_true_iff.mp h).2),
        Nat.add_sub_cancel] at this
  | case2 q scale h => rw [dropEights, if_neg h]
  | case3 q scale h => rw [dropEights]; exact h

theorem stripZeros_value (q scale : Nat) :
    ((stripZeros q scale).1 : ℚ) / tenTo (stripZeros q scale).2 = q / tenTo scale := by
  rw [stripZeros, dropZeros_value, dropZeros_value, dropZeros_value, dropEights_value]

end Zeros

/-- The exact quotient of two decimals, by the mantissas and the places that a long
division begins with. -/
theorem value_div_value (a : Decimal) {b : Decimal} (hb : 0 < b.mantissa) :
    a.value / b.value = withSign (a.negative != b.negative)
      ((a.mantissa : ℚ) / b.mantissa * tenTo (maxScale + b.scale - a.scale) / tenTo maxScale) := by
  have hmagnitude : (a.mantissa : ℚ) / b.mantissa * tenTo (maxScale + b.scale - a.scale) /
      tenTo maxScale = a.mantissa / tenTo a.scale / (b.mantissa / tenTo b.scale) := by
    have hplaces := tenTo_cast_add (maxScale + b.scale - a.scale) a.scale
    have hscale : a.scale ≤ maxScale + b.scale := le_trans a.scale_le (Nat.le_add_right _ _)
    rw [Nat.sub_add_cancel hscale, tenTo_cast_add] at hplaces
    have hmantissa : (b.mantissa : ℚ) ≠ 0 := Nat.cast_ne_zero.mpr hb.ne'
    rw [div_mul_eq_mul_div, div_div, div_div_div_eq,
      div_eq_div_iff (mul_ne_zero hmantissa (tenTo_cast_pos _).ne')
        (mul_ne_zero (tenTo_cast_pos _).ne' hmantissa)]
    linear_combination -(a.mantissa * b.mantissa : ℚ) * hplaces
  rw [hmagnitude, value_eq_withSign, value_eq_withSign]
  cases a.negative <;> cases b.negative <;> simp [withSign, neg_div, div_neg]

theorem rounds_div? {a b d : Decimal} (h : a.div? b = some d) :
    Rounds (a.value / b.value) d.value := by
  unfold div? at h
  split_ifs at h with hb ha
  · cases h
    rw [value_eq_zero_iff.mpr ha, zero_div, ← value_zero]
    exact rounds_value _
  · obtain ⟨⟨q, places, inexact⟩, hdivide, hparts⟩ := Option.bind_eq_some_iff.mp h
    have hpos : 0 < b.mantissa := Nat.pos_of_ne_zero (by simpa [isZero] using hb)
    have hsettled := settled_divideFrom (Nat.mod_lt _ hpos)
      (Nat.lt_of_le_of_lt (Nat.div_le_self _ _) a.mantissa_lt) hdivide
    rw [div_add_mod_div _ hpos] at hsettled
    obtain ⟨-, -, hd⟩ := ofParts?_eq_some hparts
    have hstripped : d.value =
        withSign (a.negative != b.negative) (q / tenTo (maxScale - places)) := by
      rw [hd]
      cases inexact with
      | false => rfl
      | true => exact congrArg _ (stripZeros_value q _)
    rw [value_div_value a hpos, hstripped]
    exact Rounds.withSign ⟨_, _, hsettled.roundsAt⟩ _

end Paydesk.Decimal

import Paydesk.Proofs.Decimal.Arithmetic
import Paydesk.Proofs.Rates.Widening

/-!
What the spread of a book does to a rule: around what the rule is without it stands one
multiplication, and nothing else changes.
-/

namespace Paydesk

namespace Decimal

/-- A number that fits keeps all its places. -/
theorem fit?_eq_ofParts? (negative : Bool) {n scale : Nat} (hn : n < mantissaLimit)
    (hscale : scale ≤ maxScale) : fit? negative n scale = ofParts? negative n scale := by
  have hone : roundDiv n (tenTo 0) = n := by simp [roundDiv, tenTo, Nat.mod_one]
  rw [fit?, Nat.sub_eq_zero_of_le hscale, List.range'_succ, List.find?_cons, hone]
  simp [hn, hone]

/-- One and a number make an exact sum if that fits at the places of the number. -/
theorem exists_one_add? (d : Decimal) {n : Nat} (hsum : tenTo d.scale + d.signed = (n : ℤ))
    (hn : n < mantissaLimit) : ∃ r, one.add? d = some r ∧ r.value = 1 + d.value := by
  obtain ⟨r, hr⟩ : ∃ r, ofParts? false n d.scale = some r := ⟨_, dif_pos ⟨hn, d.scale_le⟩⟩
  rw [add?, if_neg (by decide)]
  split_ifs with hzero
  · exact ⟨one, rfl, by rw [value_eq_zero_iff.mpr hzero, value_one, add_zero]⟩
  · have hscale : max one.scale d.scale = d.scale := Nat.max_eq_right (Nat.zero_le _)
    have hshifted : one.signed * tenTo (d.scale - one.scale) +
        d.signed * tenTo (d.scale - d.scale) = n := by
      rw [← hsum]
      simp [one, ofNat, signed, tenTo]
    dsimp only
    rw [hscale, hshifted, decide_eq_false (by omega), Int.natAbs_natCast,
      fit?_eq_ofParts? false hn d.scale_le]
    refine ⟨r, hr, ?_⟩
    obtain ⟨-, -, hvalue⟩ := ofParts?_eq_some hr
    have hcast : (n : ℚ) = tenTo d.scale + d.signed := by exact_mod_cast hsum.symm
    rw [hvalue, hcast, value]
    change (tenTo d.scale + (d.signed : ℚ)) / tenTo d.scale = _
    rw [add_div, div_self (tenTo_cast_pos _).ne']

section Factors

variable {s : Decimal} (hpos : 0 < s.value) (hone : s.value ≤ 1)
include hpos hone

theorem exists_factors : ∃ low high, one.sub? s = some low ∧ one.add? s = some high ∧
    low.value = 1 - s.value ∧ high.value = 1 + s.value := by
  have hscaled := value_mul_tenTo s
  have htenTo := tenTo_cast_pos s.scale
  have hsigned : 0 < s.signed := by
    have : (0 : ℚ) < s.signed := hscaled ▸ mul_pos hpos htenTo
    exact_mod_cast this
  have hle : s.signed ≤ tenTo s.scale := by
    have : (s.signed : ℚ) ≤ tenTo s.scale := hscaled ▸ mul_le_of_le_one_left htenTo.le hone
    exact_mod_cast this
  have hfits : 2 * tenTo s.scale < mantissaLimit :=
    Nat.lt_of_le_of_lt (Nat.mul_le_mul_left 2 (tenTo_mono s.scale_le)) (by decide)
  have habove : tenTo s.scale + s.signed = ((tenTo s.scale + s.signed).toNat : ℤ) := by omega
  have hbelow : tenTo s.neg.scale + s.neg.signed = ((tenTo s.scale - s.signed).toNat : ℤ) := by
    rw [signed_neg, show s.neg.scale = s.scale from rfl]
    omega
  obtain ⟨high, hadd, hhigh⟩ := exists_one_add? s habove (by omega)
  obtain ⟨low, hsub, hlow⟩ := exists_one_add? s.neg hbelow (by omega)
  have hzero : ¬s.isZero := by
    rw [← value_eq_zero_iff]
    exact hpos.ne'
  refine ⟨low, high, ?_, hadd, ?_, hhigh⟩
  · rw [sub?, if_neg hzero]
    exact hsub
  · rw [hlow, value_neg, sub_eq_add_neg]

end Factors

end Decimal

namespace Rates

open Decimal

namespace Expr

/-- The two factors around one. -/
def factors (low high : Decimal) : Expr := .tuple [.literal low, .literal high]

theorem evaluates_factors {low high : Decimal} (hle : ¬high.lt low) (quotes : Quotes) :
    (factors low high).Evaluates quotes ⟨low, high⟩ := by
  refine evaluates_tuple.mpr ⟨_, _, rfl, .point low, .point high, evaluates_literal.mpr rfl,
    evaluates_literal.mpr rfl, ?_⟩
  refine joinSides_eq_ok.mpr ⟨?_, ?_, if_neg hle⟩
  · exact sameValue_iff_value.mpr rfl
  · exact sameValue_iff_value.mpr rfl

end Expr

namespace Rule

/-- Why a rule is not evaluated at all. -/
def faults (r : Rule) : List RuleError := r.resolutionErrors ++ r.expr.quoteErrors r.quotes

theorem reevaluate_eq (r : Rule) : r.reevaluate =
    if (RuleError.collect r.faults).isEmpty then
      match (r.expr.withQuotes r.quotes).value with
      | .ok spread => { r with errors := [], value := some spread }
      | .error error => { r with errors := [error], value := none }
    else { r with errors := RuleError.collect r.faults, value := none } := by
  rw [← Expr.evaluate_eq_value]
  rfl

/-- The rule with a product around its expression. -/
def times (r : Rule) (low high : Decimal) : Rule :=
  { r with expr := .binary .mul r.expr (.factors low high) }

theorem supply_times (r : Rule) (low high : Decimal) (quotes : Quotes) :
    (r.times low high).supply quotes = (r.supply quotes).times low high := rfl

theorem faults_times (r : Rule) (low high : Decimal) : (r.times low high).faults = r.faults :=
  congrArg (r.resolutionErrors ++ ·) (List.append_nil _)

variable {r : Rule} {low high : Decimal} (hle : ¬high.lt low)
include hle

theorem value_times (r : Rule) :
    ((r.times low high).expr.withQuotes (r.times low high).quotes).value =
      (r.expr.withQuotes r.quotes).value.bind fun v => Expr.applyOp .mul v ⟨low, high⟩ := by
  obtain ⟨-, hfactors⟩ := Expr.evaluates_factors hle r.quotes
  rw [times, Expr.withQuotes, Expr.value, hfactors]
  rfl

theorem times_of_failed (h : r.reevaluate.succeeded = false) :
    (r.times low high).reevaluate.succeeded = false ∧
      (r.times low high).reevaluate.errors = r.reevaluate.errors := by
  rw [reevaluate_eq] at h
  rw [reevaluate_eq, reevaluate_eq, faults_times, value_times hle]
  split_ifs at h ⊢ with hnone
  · cases hvalue : (r.expr.withQuotes r.quotes).value with
    | ok v => simp [hvalue, succeeded] at h
    | error e => exact ⟨rfl, rfl⟩
  · exact ⟨Bool.and_false _, rfl⟩

theorem times_of_yields {v w : Spread} (h : r.Yields v) (hw : v.mul? ⟨low, high⟩ = some w) :
    (r.times low high).Yields w := by
  obtain ⟨hresolved, hv⟩ := yields_iff.mp h
  refine yields_iff.mpr ⟨hresolved, Expr.evaluates_binary.mpr
    ⟨v, ⟨low, high⟩, hv, Expr.evaluates_factors hle _, ?_⟩⟩
  rw [Expr.applyOp, hw]
  rfl

theorem times_of_overflow {v : Spread} (h : r.Yields v) (hnone : v.mul? ⟨low, high⟩ = none) :
    (r.times low high).reevaluate.succeeded = false ∧
      (r.times low high).reevaluate.errors = [.unsupportedOperator] := by
  obtain ⟨hresolved, hquoted, hv⟩ := yields_iff.mp h
  have hfaults : r.faults = [] := List.append_eq_nil_iff.mpr ⟨hresolved, hquoted⟩
  have hproduct : Expr.applyOp .mul v ⟨low, high⟩ = .error .unsupportedOperator := by
    rw [Expr.applyOp, hnone]
    rfl
  rw [reevaluate_eq, faults_times, hfaults, value_times hle, hv, Except.bind, hproduct,
    if_pos (RuleError.collect_isEmpty.mpr rfl)]
  exact ⟨rfl, rfl⟩

end Rule

namespace RuleBook

variable {book : RuleBook} {s low high : Decimal}

theorem candidate_withSpread (book : RuleBook) (s : Decimal) (pair : Pair) :
    candidate { book with spread := s } pair = book.candidate pair := rfl

theorem inline_withSpread (book : RuleBook) (s : Decimal) (left : Nat) :
    inline { book with spread := s } left = book.inline left := by
  induction left with
  | zero => rfl
  | succ left ih =>
      funext pair
      rw [inline, inline, ih, candidate_withSpread]

theorem resolve_times (book : RuleBook) (s : Decimal) (pair : Pair) (e : Expr) :
    resolve { book with spread := s } pair (.binary .mul e (.factors low high)) =
      ⟨.binary .mul (book.resolve pair e).value (.factors low high), (book.resolve pair e).calls,
        (book.resolve pair e).cutOff⟩ := by
  unfold resolve
  -- What is inlined comes from the rules, which do not depend on the spread.
  rw [inline_withSpread, Expr.resolve]
  generalize e.resolve pair (book.inline maxIndirections) false = r
  obtain ⟨value, calls, cutOff⟩ := r
  change Resolution.mk (Expr.binary .mul value (.factors low high)) (calls ++ [])
    (cutOff || false) = _
  rw [List.append_nil, Bool.or_false]

theorem ruleFor_withSpread (hplain : book.spread.isZero) (hzero : ¬s.isZero)
    (hlow : one.sub? s = some low) (hhigh : one.add? s = some high) {pair : Pair}
    (hpair : pair.isIdentity = false) :
    ruleFor { book with spread := s } pair = (book.ruleFor pair).times low high := by
  have hfactors : widening? { book with spread := s } = some (.factors low high) := by
    simp [widening?, hlow, hhigh, Expr.factors]
  have hidentity : ¬pair.isIdentity := ne_true_of_eq_false hpair
  rw [ruleFor_eq hplain hpair, ruleFor, if_neg hidentity]
  dsimp only
  rw [if_neg hzero, hfactors]
  dsimp only
  rw [resolve_times]
  rfl

theorem setSpread_of_fraction (hnonneg : 0 ≤ s.value) (hone : s.value ≤ 1) :
    book.setSpread s = .ok { book with spread := s } := by
  refine if_neg ?_
  rw [Bool.or_eq_true, lt_iff_value, lt_iff_value, value_zero, value_one, not_or]
  exact ⟨hnonneg.not_gt, hone.not_gt⟩

theorem spread_of_read {script : String} (h : read script = .ok book) : book.spread = .zero := by
  obtain ⟨statements, -, -, rfl⟩ := read_eq_ok_iff.mp h
  rfl

/-- A spread multiplies what a rule gives once, whatever the rule is. It does not change what
the rule depends on, nor how it fails. -/
theorem spread_multiplies_once {script : String} (hread : read script = .ok book)
    (hpos : 0 < s.value) (hone : s.value ≤ 1) :
    book.setSpread .zero = .ok book ∧ ∃ wide low high,
      book.setSpread s = .ok wide ∧
      Decimal.one.sub? s = some low ∧ low.value = 1 - s.value ∧
      Decimal.one.add? s = some high ∧ high.value = 1 + s.value ∧
      ∀ pair : Pair, pair.isIdentity = false →
        (wide.ruleFor pair).expr =
          .binary .mul (book.ruleFor pair).expr (.tuple [.literal low, .literal high]) ∧
        (wide.ruleFor pair).quotes = (book.ruleFor pair).quotes ∧
        ∀ quotes,
          let plain := (book.ruleFor pair).supply quotes
          let widened := (wide.ruleFor pair).supply quotes
          (plain.reevaluate.succeeded = false →
            widened.reevaluate.succeeded = false ∧
              widened.reevaluate.errors = plain.reevaluate.errors) ∧
          ∀ v, plain.Yields v →
            (∀ w, v.mul? ⟨low, high⟩ = some w → widened.Yields w) ∧
            (v.mul? ⟨low, high⟩ = none → widened.reevaluate.succeeded = false ∧
              widened.reevaluate.errors = [.unsupportedOperator]) := by
  have hspread := spread_of_read hread
  obtain ⟨low, high, hlow, hhigh, hlowValue, hhighValue⟩ := exists_factors hpos hone
  have hle : ¬high.lt low := by
    rw [lt_iff_value, hlowValue, hhighValue]
    linarith
  have hzero : ¬s.isZero := by
    rw [← value_eq_zero_iff]
    exact hpos.ne'
  refine ⟨?_, _, low, high, setSpread_of_fraction hpos.le hone, hlow, hlowValue, hhigh,
    hhighValue, ?_⟩
  · rw [setSpread_of_fraction value_zero.ge (value_zero.trans_le zero_le_one), ← hspread]
  · intro pair hpair
    have hplain : book.spread.isZero := by
      rw [hspread]
      rfl
    rw [ruleFor_withSpread hplain hzero hlow hhigh hpair]
    refine ⟨rfl, rfl, fun quotes => ?_⟩
    dsimp only
    rw [Rule.supply_times]
    refine ⟨Rule.times_of_failed hle, fun v hv => ?_⟩
    exact ⟨fun w => Rule.times_of_yields hle hv, Rule.times_of_overflow hle hv⟩

/-- A spread of one in a hundred around a quote of a hundred. -/
theorem hundred_widened :
    let cent : Decimal := ⟨false, 1, 2, by decide, by decide⟩
    let quotes := Quotes.empty.set "kraken" ⟨"BTC", "USD"⟩ (.point (.ofNat 100))
    ∃ book wide, read "BTC_X = kraken(BTC_X)" = .ok book ∧ 0 < cent.value ∧ cent.value ≤ 1 ∧
      book.setSpread cent = .ok wide ∧
      ((wide.ruleFor ⟨"BTC", "USD"⟩).supply quotes).Yields
        ⟨⟨false, 9900, 2, by decide, by decide⟩, ⟨false, 10100, 2, by decide, by decide⟩⟩ := by
  intro cent quotes
  have hrule : (read "BTC_X = kraken(BTC_X)").toOption.map (fun book =>
      let rule := (book.ruleFor ⟨"BTC", "USD"⟩).supply quotes
      (rule.reevaluate.succeeded, rule.reevaluate.spread?)) =
      some (true, some (.point (.ofNat 100))) := by
    decide +kernel
  have hpos : 0 < cent.value := by
    rw [← value_zero, ← lt_iff_value]
    decide
  have hone : cent.value ≤ 1 := by
    rw [← value_one, ← le_iff_value]
    decide
  cases hread : read "BTC_X = kraken(BTC_X)" with
  | error e => simp [hread, Except.toOption] at hrule
  | ok book =>
      rw [hread] at hrule
      simp only [Except.toOption, Option.map_some, Option.some.injEq, Prod.mk.injEq] at hrule
      obtain ⟨-, wide, low, high, hset, hlow, -, hhigh, -, hrules⟩ :=
        spread_multiplies_once hread hpos hone
      obtain ⟨-, -, houtcome⟩ := hrules ⟨"BTC", "USD"⟩ (by decide)
      have hlowParts : Decimal.one.sub? cent = some ⟨false, 99, 2, by decide, by decide⟩ := by
        decide +kernel
      have hhighParts : Decimal.one.add? cent = some ⟨false, 101, 2, by decide, by decide⟩ := by
        decide +kernel
      obtain rfl := Option.some.inj (hlow.symm.trans hlowParts)
      obtain rfl := Option.some.inj (hhigh.symm.trans hhighParts)
      refine ⟨book, wide, rfl, hpos, hone, hset, ?_⟩
      exact ((houtcome quotes).2 _ ⟨hrule.1, hrule.2⟩).1 _ (by decide +kernel)

end RuleBook

end Rates

end Paydesk

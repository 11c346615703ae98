import Mathlib.Data.Nat.Digits.Defs
import Mathlib.Data.Nat.Log
import Paydesk.Text.Number

/-!
Natural numbers as they are written, and read again.
-/

namespace Paydesk.Text

theorem isAsciiDigit_iff {c : Char} : isAsciiDigit c ↔ c.isDigit := by
  simp only [isAsciiDigit, Char.isDigit, ge_iff_le, Bool.and_eq_true, decide_eq_true_eq]
  rfl

theorem digitValue_eq (c : Char) : digitValue c = c.toNat - '0'.toNat := rfl

theorem le_ofDigitChars (ds : List Char) (n : Nat) : n ≤ Nat.ofDigitChars 10 ds n := by
  rw [Nat.ofDigitChars_eq_ofDigitChars_zero]
  exact Nat.le_add_right_of_le (Nat.le_mul_of_pos_left n (Nat.pow_pos (by decide)))

theorem length_toDigits (n : Nat) : (Nat.toDigits 10 n).length = Nat.log 10 n + 1 := by
  induction n using Nat.strongRecOn with
  | ind n ih =>
      by_cases hn : n < 10
      · simp [Nat.toDigits_of_lt_base hn, Nat.log_of_lt hn]
      · have hbase := Nat.le_of_not_lt hn
        rw [Nat.toDigits_of_base_le (by decide) hbase, List.length_append, ih (n / 10) (by omega),
          Nat.log_of_one_lt_of_le (by decide) hbase]
        rfl

theorem toList_toString (n : Nat) : (toString n).toList = Nat.toDigits 10 n := Nat.toList_repr

theorem isAsciiDigit_of_mem_toString {n : Nat} {c : Char} (h : c ∈ (toString n).toList) :
    isAsciiDigit c := by
  rw [toList_toString] at h
  exact isAsciiDigit_iff.mpr (Nat.isDigit_of_mem_toDigits (by decide) (by decide) h)

theorem foldl_digitValue (cs : List Char) (n : Nat) :
    cs.foldl (fun n c => n * 10 + digitValue c) n = Nat.ofDigitChars 10 cs n := by
  induction cs generalizing n with
  | nil => rfl
  | cons c cs ih =>
      rw [List.foldl_cons, ih, Nat.ofDigitChars_cons, Nat.mul_comm, digitValue_eq]

theorem foldl_toString (n : Nat) :
    (toString n).toList.foldl (fun n c => n * 10 + digitValue c) 0 = n := by
  rw [foldl_digitValue, toList_toString, Nat.ofDigitChars_toDigits (by decide) (by decide)]

theorem readDigits_eq_ok {limit n : Nat} {cs : List Char} (hcs : ∀ c ∈ cs, isAsciiDigit c)
    (h : Nat.ofDigitChars 10 cs n < limit) :
    readDigits limit n cs = .ok (Nat.ofDigitChars 10 cs n) := by
  induction cs generalizing n with
  | nil => rfl
  | cons c cs ih =>
      obtain ⟨hc, hrest⟩ := List.forall_mem_cons.mp hcs
      have hvalue : Nat.ofDigitChars 10 (c :: cs) n =
          Nat.ofDigitChars 10 cs (n * 10 + digitValue c) := by
        rw [Nat.ofDigitChars_cons, Nat.mul_comm, digitValue_eq]
      rw [hvalue] at h ⊢
      have hlt := Nat.lt_of_le_of_lt (le_ofDigitChars cs (n * 10 + digitValue c)) h
      simp only [readDigits, hc, hlt, Bool.not_true, Bool.false_eq_true, if_false, if_true]
      exact ih hrest h

theorem exists_toDigits (n : Nat) : ∃ d ds, Nat.toDigits 10 n = d :: ds ∧ isAsciiDigit d := by
  cases hdigits : Nat.toDigits 10 n with
  | nil => exact absurd hdigits Nat.toDigits_ne_nil
  | cons d ds =>
      refine ⟨d, ds, rfl, isAsciiDigit_of_mem_toString (n := n) ?_⟩
      rw [toList_toString, hdigits]
      exact List.mem_cons_self

theorem readNat_toString {limit n : Nat} (h : n < limit) :
    readNat limit (toString n) = .ok n := by
  obtain ⟨d, ds, hdigits, hd⟩ := exists_toDigits n
  have hplus : d ≠ '+' := by
    rintro rfl
    exact absurd hd (by decide)
  have hvalue : Nat.ofDigitChars 10 (d :: ds) 0 = n := by
    rw [← hdigits, Nat.ofDigitChars_toDigits (by decide) (by decide)]
  have hread : readDigits limit 0 (d :: ds) = .ok n := by
    rw [readDigits_eq_ok _ (hvalue.symm ▸ h), hvalue]
    rw [← hdigits, ← toList_toString]
    exact fun c => isAsciiDigit_of_mem_toString
  rw [readNat, toList_toString, hdigits]
  split
  · rename_i heq
    cases heq
  · rename_i heq
    cases heq
    exact absurd rfl hplus
  · rename_i heq
    cases heq
    exact absurd rfl hplus
  · exact hread

/-- There is no needless zero in front. -/
theorem head?_toDigits_ne {n : Nat} (h : 0 < n) : (Nat.toDigits 10 n).head? ≠ some '0' := by
  induction n using Nat.strongRecOn with
  | ind n ih =>
      by_cases hn : n < 10
      · have hall : ∀ n < 10, 0 < n → [n.digitChar].head? ≠ some '0' := by decide
        rw [Nat.toDigits_of_lt_base hn]
        exact hall n hn h
      · have hrest := ih (n / 10) (by omega) (by omega)
        obtain ⟨d, ds, hdigits, -⟩ := exists_toDigits (n / 10)
        rw [hdigits] at hrest
        rw [Nat.toDigits_of_base_le (by decide) (Nat.le_of_not_lt hn), hdigits]
        exact hrest

end Paydesk.Text

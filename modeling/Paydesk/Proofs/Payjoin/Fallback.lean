import Mathlib.Data.List.Nodup
import Paydesk.Payjoin.Fallback
import Paydesk.Proofs.Outcome

/-!
What is known of a fallback that passed its checks.
-/

namespace Paydesk.Payjoin.Fallback

open Chain Wallet

variable {p : Psbt} {type : ScriptType}

theorem check_eq_ok_iff : check p = .ok type ↔
    inputType? p = some type ∧ checkCounts p = .ok () ∧ checkSanity p = .ok () ∧
      checkUtxosFrom 0 p.inputPairs = .ok () ∧ p.fee?.isSome ∧ p.hasKeyOrigins = false ∧
      p.isFinal := by
  unfold check
  cases htype : inputType? p with
  | none => simp
  | some first =>
      simp only [bind_eq_ok, ite_error_eq_ok]
      constructor
      · rintro ⟨⟨⟩, hcounts, ⟨⟩, hsane, ⟨⟩, hutxos, hfee, horigins, hfinal, hresult⟩
        exact ⟨congrArg some (Except.ok.inj hresult), hcounts, hsane, hutxos,
          by simpa [Option.isSome_iff_ne_none] using hfee, by simpa using horigins,
          by simpa using hfinal⟩
      · rintro ⟨hresult, hcounts, hsane, hutxos, hfee, horigins, hfinal⟩
        exact ⟨(), hcounts, (), hsane, (), hutxos,
          by simpa [Option.isSome_iff_ne_none] using hfee, by simpa using horigins,
          by simpa using hfinal, congrArg Except.ok (Option.some.inj hresult)⟩

theorem duplicate?_eq_none_iff {seen os : List OutPoint} :
    duplicate? seen os = none ↔ os.Nodup ∧ ∀ o ∈ os, o ∉ seen := by
  induction os generalizing seen with
  | nil => simp [duplicate?]
  | cons o os ih =>
      rw [duplicate?, List.contains_eq_mem]
      by_cases hseen : o ∈ seen
      · simp [hseen]
      · simp only [hseen, decide_false, Bool.false_eq_true, if_false, ih, List.nodup_cons,
          List.mem_cons, forall_eq_or_imp, not_false_eq_true, true_and]
        constructor
        · rintro ⟨hnodup, hnew⟩
          exact ⟨⟨fun hmem => hnew o hmem (.inl rfl), hnodup⟩, fun o' ho' hold =>
            hnew o' ho' (.inr hold)⟩
        · rintro ⟨⟨hnew, hnodup⟩, hothers⟩
          refine ⟨hnodup, ?_⟩
          rintro o' ho' (rfl | hold)
          · exact hnew ho'
          · exact hothers o' ho' hold

theorem duplicate?_of_checkSanity (h : checkSanity p = .ok ()) :
    duplicate? [] p.tx.outPoints = none := by
  unfold checkSanity at h
  cases hduplicate : duplicate? [] p.tx.outPoints with
  | none => rfl
  | some input =>
      simp only [hduplicate, ite_error_eq_ok] at h
      cases h.2

theorem nodup_of_check (h : check p = .ok type) : p.tx.outPoints.Nodup := by
  obtain ⟨-, -, hsane, -⟩ := check_eq_ok_iff.mp h
  exact (duplicate?_eq_none_iff.mp (duplicate?_of_checkSanity hsane)).1

theorem length_inputs_of_check (h : check p = .ok type) :
    p.inputs.length = p.tx.inputs.length := by
  obtain ⟨-, hcounts, -⟩ := check_eq_ok_iff.mp h
  unfold checkCounts at hcounts
  split at hcounts
  · cases hcounts
  · rename_i hlength
    exact not_not.mp hlength

end Paydesk.Payjoin.Fallback

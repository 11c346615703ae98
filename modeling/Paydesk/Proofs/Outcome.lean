/-!
Steps that each can fail, one after another.
-/

namespace Paydesk

theorem bind_eq_ok {ε α β : Type} {x : Except ε α} {f : α → Except ε β} {b : β} :
    (x >>= f) = .ok b ↔ ∃ a, x = .ok a ∧ f a = .ok b := by
  cases x with
  | error => simp [bind, Except.bind]
  | ok a => simp [bind, Except.bind]

theorem bind_eq_error {ε α β : Type} {x : Except ε α} {f : α → Except ε β} {err : ε} :
    (x >>= f) = .error err ↔ x = .error err ∨ ∃ a, x = .ok a ∧ f a = .error err := by
  cases x with
  | error => simp [bind, Except.bind]
  | ok a => simp [bind, Except.bind]

theorem toOption_eq_some {ε α : Type} {x : Except ε α} {a : α} :
    x.toOption = some a ↔ x = .ok a := by
  cases x <;> simp [Except.toOption]

/-- A check that stops at an error, and what comes after it. -/
theorem ite_error_eq_ok {ε α : Type} {c : Prop} [Decidable c] {e : ε} {rest : Except ε α} {a : α} :
    (if c then (.error e : Except ε PUnit) >>= fun _ => rest else rest) = .ok a ↔
      ¬c ∧ rest = .ok a := by
  split
  · simp_all [bind, Except.bind]
  · simp_all

/-- A check that nothing comes after. -/
theorem ite_error_pure_eq_ok {ε : Type} {c : Prop} [Decidable c] {e : ε} :
    (if c then (.error e : Except ε Unit) else pure ()) = .ok () ↔ ¬c := by
  split <;> simp_all [pure, Except.pure]

theorem mapError_ok_bind {ε ε' α β : Type} {f : ε → ε'} {a : α} {rest : α → Except ε' β} :
    (Except.ok a).mapError f >>= rest = rest a := rfl

theorem mapM_map_eq_ok {ε α β γ : Type} {f : β → Except ε γ} {row : α → β} {g : α → γ}
    {as : List α} (h : ∀ a ∈ as, f (row a) = .ok (g a)) :
    (as.map row).mapM f = .ok (as.map g) := by
  induction as with
  | nil => rfl
  | cons a as ih =>
      obtain ⟨ha, has⟩ := List.forall_mem_cons.mp h
      rw [List.map_cons, List.mapM_cons, ha, ih has]
      rfl

end Paydesk

import Paydesk.Proofs.Payjoin.Course

/-!
Where the coins come from that are locked: each of them was listed by a wallet
before.
-/

namespace Paydesk.Payjoin

open Chain Wallet Invoices

/-- The coins that a wallet lists. -/
def Phase.listed : (phase : Phase) → phase.call.Outcome → List OutPoint
  | .choosing .., .ok (coins : List Coin) => coins.map Coin.outPoint
  | _, _ => []

theorem Locks.coins_unlock_subset (locks mine : Locks) :
    (locks.unlock mine).coins ⊆ locks.coins := List.filter_subset_self _

namespace Submission

variable {settings : Settings} {a : Accepted} {t : Target}

theorem coins_engage (a : Accepted) (t : Target) (paid : Nat) (s : Session) :
    ((engage a t paid).run s).2.desk.locks.coins = s.desk.locks.coins := by
  by_cases hdue : 0 < remainingDue t.method.due paid
  · rw [engage_of_due hdue]
  · cases hlocks : s.desk.locks.lockInputs? a.fallback.outPoints with
    | none => rw [engage_of_locked hdue hlocks]
    | some locks =>
        have hcoins : locks.coins = s.desk.locks.coins :=
          (Locks.grants_of_lockInputs? hlocks).coins_eq
        cases hconflict : (s.desk.wallets.records t.method.account.wallet).conflict? a.fallback with
        | some conflict =>
            rw [engage_of_conflict? hdue hlocks hconflict]
            exact hcoins
        | none =>
            rw [engage_of_free hdue hlocks hconflict]
            exact hcoins

theorem coins_consider (settings : Settings) (a : Accepted) (index : Nat) (invoice : String)
    (others : List String) (method : PaymentMethod) (s : Session) :
    ((consider settings a index invoice others method).run s).2.desk.locks.coins =
      s.desk.locks.coins := by
  rw [consider]
  split
  · rfl
  · split
    · rfl
    · split
      · rfl
      · split
        · rfl
        · exact coins_engage a _ _ s

theorem coins_draft (settings : Settings) (a : Accepted) (t : Target) (coin : Coin)
    (script : Option Script) (s : Session) :
    ((draft settings a t coin script).run s).2.desk.locks.coins = s.desk.locks.coins := by
  rw [draft_run]

theorem coins_choose_subset (settings : Settings) (a : Accepted) (t : Target)
    (exposed : List OutPoint) (coins : List Coin) (s : Session) :
    ((choose settings a t exposed coins).run s).2.desk.locks.coins ⊆
      coins.map Coin.outPoint ++ s.desk.locks.coins := by
  cases hpicked : picked? settings a t exposed coins s.desk.locks with
  | none =>
      rw [choose_of_none hpicked]
      exact List.subset_append_right _ _
  | some r =>
      obtain ⟨coin, locks⟩ := r
      obtain ⟨hmem, -, -, hlock⟩ := picked?_eq_some hpicked
      have hlocked : locks.coins ⊆ coins.map Coin.outPoint ++ s.desk.locks.coins := by
        rw [(Locks.grants_of_lockCoin? hlock).coins_eq]
        exact List.cons_subset.mpr
          ⟨List.mem_append_left _ (List.mem_map_of_mem hmem), List.subset_append_right _ _⟩
      by_cases hlone : a.fallback.outputs.length = 1
      · rw [choose_of_split hpicked hlone]
        exact hlocked
      · rw [choose_of_draft hpicked hlone, coins_draft]
        exact hlocked

/-- A coin is locked only where coins were listed. -/
theorem coins_resume_subset (settings : Settings) (now : Nat) (phase : Phase)
    (outcome : phase.call.Outcome) (s : Session) :
    ((resume settings now phase outcome).run s).2.desk.locks.coins ⊆
      phase.listed outcome ++ s.desk.locks.coins := by
  cases outcome with
  | error message =>
      rw [resume_error]
      exact List.subset_append_right _ _
  | ok answer =>
      cases phase with
      | choosing a t exposed => exact coins_choose_subset settings a t exposed answer s
      | fetching => exact List.Subset.refl _
      | probing a =>
          simp only [resume]
          split
          · exact List.Subset.refl _
          · exact List.Subset.refl _
      | searching => exact List.Subset.refl _
      | reading a code index invoice others =>
          cases answer with
          | none => exact List.Subset.refl _
          | some method =>
              exact fun o ho => coins_consider settings a index invoice others method s ▸ ho
      | splitting a t coin =>
          exact fun o ho => coins_draft settings a t coin (some answer) s ▸ ho
      | signing => cases answer <;> exact List.Subset.refl _
      | paying a t d payment => cases answer <;> exact List.Subset.refl _

end Submission

theorem Turn.coins_of_subset (step : Step) (s : Session) :
    (Turn.of s step).desk.locks.coins ⊆ s.desk.locks.coins := by
  cases step with
  | failed failure =>
      exact Locks.coins_unlock_subset s.desk.locks ⟨s.holdings.coins, s.holdings.inputs⟩
  | _ => exact List.Subset.refl _

namespace Move

def listed (m : Move) : List OutPoint :=
  match m.cause with
  | .answer phase outcome => phase.listed outcome
  | _ => []

theorem coins_arrive_subset (settings : Settings) (desk : Desk) (code : String)
    (request : Except RequestError Request) (gone : Bool) :
    (Turn.arrive settings desk code request gone).desk.locks.coins ⊆ desk.locks.coins := by
  cases request with
  | error e => exact List.Subset.refl _
  | ok request =>
      cases gone with
      | true => exact List.Subset.refl _
      | false => exact Turn.coins_of_subset _ _

theorem coins_after_subset {settings : Settings} {stage : Stage} {m : Move}
    (h : Makes settings stage m) : m.after.locks.coins ⊆ m.listed ++ m.before.locks.coins := by
  cases h with
  | answer now desk phase holdings outcome =>
      exact List.Subset.trans (Turn.coins_of_subset _ _)
        (Submission.coins_resume_subset settings now phase outcome ⟨desk, holdings⟩)
  | cancel desk phase holdings => exact Turn.coins_of_subset (.failed _) ⟨desk, holdings⟩
  | relay => exact List.Subset.refl _

end Move

end Paydesk.Payjoin

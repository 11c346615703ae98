import Paydesk.Payjoin.Sweep
import Paydesk.Proofs.Payjoin.Locks
import Paydesk.Proofs.Payjoin.Records

/-!
A sweep takes records and frees what they held. A record that it took but has
not freed yet is live all the same.
-/

namespace Paydesk.Payjoin

open Chain

/-- What a record keeps locked. -/
def Record.locks (r : Record) : Locks := ⟨r.coins, r.fallback.outPoints⟩

namespace Sweep

/-- The records that a sweep took and has not freed yet. -/
def Phase.taken : Phase → List Record
  | .checking .. => []
  | .relaying _ r records => r :: records

def Step.phase? : Step → Option Phase
  | .wait phase => some phase
  | .finished _ => none

def Step.taken (step : Step) : List Record := step.phase?.elim [] Phase.taken

/-- The locks without those of some records. -/
def freed (locks : Locks) (records : List Record) : Locks :=
  records.foldl (fun locks r => locks.unlock r.locks) locks

theorem foldl_release (records : List Record) (desk : Desk) :
    records.foldl release desk = { desk with locks := freed desk.locks records } := by
  induction records generalizing desk with
  | nil => rfl
  | cons r records ih => exact ih (release desk r)

/-- Some of the records that were live are freed, and the others are live still. -/
structure Frees (before after : Desk) (live live' : List Record) : Prop where
  freed : ∃ done : List Record, live.Perm (done ++ live') ∧
    after.locks = Sweep.freed before.locks done
  sorted : Table.Sorted before.wallets → Table.Sorted after.wallets

namespace Frees

variable {before middle after : Desk} {live live' live'' : List Record}

theorem of_perm (hlocks : after.locks = before.locks) (hwallets : after.wallets = before.wallets)
    (hperm : live.Perm live') : Frees before after live live' :=
  ⟨⟨[], hperm, hlocks⟩, fun h => hwallets ▸ h⟩

theorem trans (h : Frees before middle live live') (h' : Frees middle after live' live'') :
    Frees before after live live'' := by
  obtain ⟨done, hperm, hlocks⟩ := h.freed
  obtain ⟨done', hperm', hlocks'⟩ := h'.freed
  refine ⟨⟨done ++ done', ?_, ?_⟩, fun hs => h'.sorted (h.sorted hs)⟩
  · rw [List.append_assoc]
    exact hperm.trans (hperm'.append_left done)
  · rw [hlocks', hlocks, Sweep.freed, Sweep.freed, Sweep.freed, List.foldl_append]

theorem mem_of_mem (h : Frees before after live live') {r : Record} (hr : r ∈ live') :
    r ∈ live := by
  obtain ⟨done, hperm, -⟩ := h.freed
  exact hperm.symm.subset (List.mem_append_right _ hr)

theorem freed_balances {done : List Record} {locks : Locks} {others : List Locks}
    (h : Locks.Balances locks (done.map Record.locks ++ others)) :
    Locks.Balances (Sweep.freed locks done) others := by
  induction done generalizing locks with
  | nil => exact h
  | cons r done ih => exact ih h.unlock

/-- If the locks are those of the live records and of others, they still are once
some records are freed. -/
theorem balances (h : Frees before after live live') (others : List Locks)
    (hbalances : Locks.Balances before.locks (live.map Record.locks ++ others)) :
    Locks.Balances after.locks (live'.map Record.locks ++ others) := by
  obtain ⟨done, hperm, hlocks⟩ := h.freed
  rw [hlocks]
  apply freed_balances
  rw [← List.append_assoc, ← List.map_append]
  exact hbalances.perm ((hperm.map _).append_right others)

end Frees

variable {timeout now : Nat}

theorem taken_of_check? {p : Progress} {spent : List Bytes} {records : List Record}
    {phase : Phase} (h : check? p spent records = some phase) : phase.taken = [] := by
  induction records with
  | nil => cases h
  | cons r records ih =>
      rw [check?] at h
      split at h
      · exact ih h
      · obtain rfl := Option.some.inj h
        rfl

/-- The records of a wallet that are dropped, those that are taken, and those that
it is left with. -/
def parts (timeout now : Nat) (spent : List Bytes) (records : Records) :
    List Record × List Record × Records :=
  let (settled, records) := records.takeIf fun r => spent.contains r.id
  let (stale, records) := records.takeStale now timeout
  (settled, stale, records)

theorem parts_perm (timeout now : Nat) (spent : List Bytes) (records : Records) :
    records.Perm ((parts timeout now spent records).1 ++
      ((parts timeout now spent records).2.1 ++ (parts timeout now spent records).2.2)) := by
  refine (Records.takeIf_perm _ records).symm.trans (List.Perm.append_left _ ?_)
  exact (Records.takeIf_perm _ _).symm

/-- What a sweep goes on with once it took some records. -/
def relay? (p : Progress) : List Record → Option Phase
  | [] => none
  | r :: stale => some (.relaying p r stale)

theorem taken_relay? (p : Progress) (stale : List Record) :
    (relay? p stale).elim [] Phase.taken = stale := by
  cases stale <;> rfl

/-- What is left of the desk once a wallet was settled. -/
def settledDesk (timeout now : Nat) (p : Progress) (spent : List Bytes) (desk : Desk) : Desk :=
  let divided := parts timeout now spent (desk.wallets.records p.wallet)
  { desk with
    wallets := desk.wallets.set p.wallet divided.2.2
    locks := freed desk.locks divided.1 }

theorem settle_run (p : Progress) (spent : List Bytes) (desk : Desk) :
    (settle timeout now p spent).run desk =
      (relay? p (parts timeout now spent (desk.wallets.records p.wallet)).2.1,
        settledDesk timeout now p spent desk) := by
  simp only [settle, settledDesk, parts, foldl_release]
  cases hstale : (Records.takeStale (Records.takeIf (fun r => spent.contains r.id)
      (desk.wallets.records p.wallet)).2 now timeout).1 with
  | nil =>
      simp [-List.contains_eq_mem, hstale]
      rfl
  | cons r stale =>
      simp [-List.contains_eq_mem, hstale]
      rfl

theorem settle_frees (timeout now : Nat) (p : Progress) (spent : List Bytes) {desk : Desk}
    (hsorted : Table.Sorted desk.wallets) :
    Frees desk ((settle timeout now p spent).run desk).2 desk.wallets.all
      (((settle timeout now p spent).run desk).2.wallets.all ++
        (((settle timeout now p spent).run desk).1.elim [] Phase.taken)) := by
  rw [settle_run, taken_relay?]
  have hparts := parts_perm timeout now spent (desk.wallets.records p.wallet)
  have hall := Wallets.all_set_perm hsorted p.wallet
    (parts timeout now spent (desk.wallets.records p.wallet)).2.2
  refine ⟨⟨(parts timeout now spent (desk.wallets.records p.wallet)).1, ?_, rfl⟩,
    fun hs => hs.insert _ _⟩
  rw [List.perm_iff_count] at hparts hall ⊢
  intro r
  have hparts := hparts r
  have hall := hall r
  simp only [List.count_append, settledDesk] at hparts hall ⊢
  omega

/-- What a sweep does up to its next call: it frees some of the records that were
live, and of the others it may have taken some. -/
def Sweeps (before : Desk) (live : List Record) (r : Step × Desk) : Prop :=
  Frees before r.2 live (r.2.wallets.all ++ r.1.taken)

/-- What is done with a wallet, if it is known what is done with those behind it. -/
theorem next_sweeps_of_walk {p : Progress} {spent : List Bytes} (records : List Record)
    {desk : Desk} (hsorted : Table.Sorted desk.wallets)
    (hwalk : ∀ desk : Desk, Table.Sorted desk.wallets →
      Sweeps desk desk.wallets.all ((walk timeout now p.relayed p.wallets).run desk)) :
    Sweeps desk desk.wallets.all ((next timeout now p spent records).run desk) := by
  cases hcheck : check? p spent records with
  | some phase =>
      have hrun : (next timeout now p spent records).run desk = (.wait phase, desk) := by
        simp [next, hcheck]
        rfl
      rw [hrun]
      exact .of_perm rfl rfl (by simp [Step.taken, Step.phase?, taken_of_check? hcheck])
  | none =>
      have hfrees := settle_frees timeout now p spent hsorted
      have hsorted' := hfrees.sorted hsorted
      cases hsettle : (settle timeout now p spent).run desk with
      | mk phase? desk' =>
          rw [hsettle] at hfrees hsorted'
          cases phase? with
          | some phase =>
              have hrun : (next timeout now p spent records).run desk = (.wait phase, desk') := by
                simp [next, hcheck, hsettle]
                rfl
              rw [hrun]
              exact hfrees
          | none =>
              have hrun : (next timeout now p spent records).run desk =
                  (walk timeout now p.relayed p.wallets).run desk' := by
                simp [next, hcheck, hsettle]
                rfl
              rw [hrun]
              refine hfrees.trans ?_
              simp only [Option.elim_none, List.append_nil]
              exact hwalk desk' hsorted'

theorem walk_sweeps (timeout now : Nat) (wallets : List String) (relayed : List Bytes)
    {desk : Desk} (hsorted : Table.Sorted desk.wallets) :
    Sweeps desk desk.wallets.all ((walk timeout now relayed wallets).run desk) := by
  induction wallets generalizing desk with
  | nil =>
      have hrun : (walk timeout now relayed []).run desk = (.finished relayed, desk) := rfl
      rw [hrun]
      exact .of_perm rfl rfl (by simp [Step.taken, Step.phase?])
  | cons wallet wallets ih =>
      exact next_sweeps_of_walk (p := ⟨wallet, wallets, relayed⟩) _ hsorted fun _ => ih

theorem start_sweeps (timeout now : Nat) {desk : Desk} (hsorted : Table.Sorted desk.wallets) :
    Sweeps desk desk.wallets.all ((start timeout now).run desk) :=
  walk_sweeps timeout now desk.wallets.keys [] hsorted

theorem next_sweeps (timeout now : Nat) (p : Progress) (spent : List Bytes)
    (records : List Record) {desk : Desk} (hsorted : Table.Sorted desk.wallets) :
    Sweeps desk desk.wallets.all ((next timeout now p spent records).run desk) :=
  next_sweeps_of_walk records hsorted fun _ => walk_sweeps timeout now p.wallets p.relayed

/-- One step of a sweep keeps every record live that it does not free. -/
theorem resume_sweeps (timeout now : Nat) (phase : Phase) (outcome : phase.call.Outcome)
    {desk : Desk} (hsorted : Table.Sorted desk.wallets) :
    Sweeps desk (desk.wallets.all ++ phase.taken)
      ((resume timeout now phase outcome).run desk) := by
  cases phase with
  | checking p spent record input inputs records =>
      rw [Phase.taken, List.append_nil]
      cases hspent : isSpent outcome with
      | true =>
          simp only [resume, hspent, if_true]
          exact next_sweeps timeout now p _ records hsorted
      | false =>
          simp only [resume, hspent, Bool.false_eq_true, if_false]
          cases inputs with
          | nil => exact next_sweeps timeout now p _ records hsorted
          | cons input inputs =>
              exact .of_perm rfl rfl (.of_eq (List.append_nil desk.wallets.all).symm)
  | relaying p record records =>
      have hfrees : Frees desk (release desk record) (desk.wallets.all ++ (record :: records))
          (desk.wallets.all ++ records) :=
        ⟨⟨[record], by simp, rfl⟩, id⟩
      cases records with
      | nil =>
          refine hfrees.trans ?_
          rw [List.append_nil]
          exact walk_sweeps timeout now p.wallets _ hsorted
      | cons next records => exact hfrees

end Sweep

end Paydesk.Payjoin

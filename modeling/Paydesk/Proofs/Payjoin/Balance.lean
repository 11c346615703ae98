import Paydesk.Proofs.Payjoin.Traffic

/-!
What is locked, and for whom. Every lock is held by one submission or by one
record, from the moment it is taken until it is given back.
-/

namespace Paydesk.Payjoin

open Chain Invoices

def Holdings.locks (held : Holdings) : Locks := ⟨held.coins, held.inputs⟩

namespace Stage

/-- What a submission holds that goes on. -/
def held : Stage → Locks
  | .waiting _ held => held.locks
  | _ => .empty

/-- What stays locked because a submission was cut off. -/
def lost : Stage → Locks
  | .cutOff held => held.locks
  | _ => .empty

/-- What is locked for a submission. -/
def locks : Stage → Locks
  | .waiting _ held | .cutOff held => held.locks
  | _ => .empty

end Stage

theorem Move.Modest.all_perm {fallback? : Option Transaction} {m : Move}
    (h : m.Modest fallback?) (hsorted : Table.Sorted m.before.wallets) :
    m.after.wallets.all.Perm m.before.wallets.all ∧ Table.Sorted m.after.wallets := by
  rcases h.wallets with hwallets | ⟨-, wallet, hwallets⟩
  · rw [hwallets]
    exact ⟨.refl _, hsorted⟩
  · rw [hwallets]
    exact ⟨Wallets.all_touch_perm hsorted wallet, Wallets.sorted_set hsorted wallet _⟩

namespace Submission

variable {a : Accepted} {t : Target} {d : Draft} {now : Nat} {desk : Desk}

theorem all_recordedDesk_of_add? (hsorted : Table.Sorted desk.wallets)
    (hadd : (desk.wallets.records t.method.account.wallet).add? (recordOf a d now) =
      some (desk.wallets.records t.method.account.wallet ++ [recordOf a d now])) :
    (recordedDesk a t d now desk).wallets.all.Perm (recordOf a d now :: desk.wallets.all) := by
  have hperm := Wallets.all_set_perm hsorted t.method.account.wallet
    (desk.wallets.records t.method.account.wallet ++ [recordOf a d now])
  simp only [recordedDesk, hadd, Option.getD_some]
  rw [List.perm_iff_count] at hperm ⊢
  intro r
  have hcount := hperm r
  simp only [List.count_append, List.count_cons, List.count_nil] at hcount ⊢
  omega

theorem all_recordedDesk_perm (hsorted : Table.Sorted desk.wallets)
    (hfresh : ∀ old ∈ desk.wallets.all, old.id ≠ a.fallback.txid) :
    (recordedDesk a t d now desk).wallets.all.Perm (recordOf a d now :: desk.wallets.all) :=
  all_recordedDesk_of_add? hsorted <|
    Records.add?_eq_some fun old hold => hfresh old (Wallets.mem_all_of_mem_records hsorted hold)

end Submission

/-- A move passes on what is held to the next stage, or gives it back. -/
theorem Move.Acts.balances {settings : Settings} {held : Holdings} {m : Move}
    {others : List Locks} (h : m.Acts settings held)
    (hbalances : Locks.Balances m.before.locks (held.locks :: others)) :
    Locks.Balances m.after.locks (m.turn.stage.locks :: others) := by
  cases h with
  | waits next stage leads grants holds modest calm =>
      rw [stage, Stage.locks, holds]
      exact hbalances.grants grants
  | fails failure stage locks modest calm =>
      have hstage : m.turn.stage.locks = .empty := by
        rw [stage]
        cases m.accepted?.or held.fallback <;> rfl
      rw [hstage, locks]
      exact hbalances.unlock
  | stops stage grants modest overflows =>
      rw [stage]
      exact hbalances.grants grants

namespace Traffic

namespace State

variable {World : Type}

/-- The records of handed out proposals, those included that a sweep took but has
not freed yet. -/
def live (s : State World) : List Record := s.desk.wallets.all ++ s.sweeps.flatMap Sweep.Phase.taken

/-- The fallbacks that the chain would relay. -/
def accepted (s : State World) : List Transaction := s.history.filterMap (·.2.accepted?)

/-- Those that hold locks: submissions that go on, and live records. -/
def holders (s : State World) : List Locks := s.stages.map Stage.held ++ s.live.map Record.locks

/-- Fallbacks with the same identifier spend the same outputs. Identifiers are
hashes of what is spent, so anything else is a collision. -/
def Identifies (s : State World) : Prop :=
  ∀ tx ∈ s.accepted, ∀ tx' ∈ s.accepted, tx.txid = tx'.txid → tx.outPoints = tx'.outPoints

/-- All locks are accounted for, those included that nobody gives back. -/
structure Balanced (s : State World) : Prop where
  sorted : Table.Sorted s.desk.wallets
  locks : Locks.Balances s.desk.locks (s.stages.map Stage.locks ++ s.live.map Record.locks)
  accepted : ∀ r ∈ s.live, r.fallback ∈ s.accepted

theorem balanced_start (world : World) : (start world).Balanced :=
  ⟨Table.sorted_nil, .nil, by simp [start, live, Wallets.all]⟩

theorem locks_perm {stages : List Stage} {number : Nat} {stage : Stage}
    (h : stages[number]? = some stage) :
    (stages.map Stage.locks).Perm (stage.locks :: (stages.eraseIdx number).map Stage.locks) := by
  obtain ⟨hlt, rfl⟩ := List.getElem?_eq_some_iff.mp h
  exact ((List.getElem_cons_eraseIdx_perm hlt).map Stage.locks).symm

theorem locks_set_perm {stages : List Stage} {number : Nat} (h : number < stages.length)
    (stage : Stage) :
    ((stages.set number stage).map Stage.locks).Perm
      (stage.locks :: (stages.eraseIdx number).map Stage.locks) :=
  (List.set_perm_cons_eraseIdx h stage).map Stage.locks

section Act

variable {settings : Settings} {s s' : State World} {held : Holdings} {m : Move}
  {others : List Locks}

theorem live_of_modest {fallback? : Option Transaction} (hmodest : m.Modest fallback?)
    (hsorted : Table.Sorted s.desk.wallets) (hbefore : m.before = s.desk)
    (hdesk : s'.desk = m.after) (hsweeps : s'.sweeps = s.sweeps) : s'.live.Perm s.live := by
  rw [live, live, hdesk, hsweeps, ← hbefore]
  exact (hmodest.all_perm (hbefore ▸ hsorted)).1.append_right _

theorem live_of_pays {a : Accepted} {t : Target} {d : Draft} {now : Nat}
    (hsorted : Table.Sorted s.desk.wallets) (hfresh : ∀ old ∈ s.live, old.id ≠ a.fallback.txid)
    (hdesk : s'.desk = Submission.recordedDesk a t d now s.desk)
    (hsweeps : s'.sweeps = s.sweeps) :
    s'.live.Perm (Submission.recordOf a d now :: s.live) := by
  rw [live, live, hdesk, hsweeps, ← List.cons_append]
  refine List.Perm.append_right _ (Submission.all_recordedDesk_perm hsorted ?_)
  exact fun old hold => hfresh old (List.mem_append_left _ hold)

theorem Balanced.act_modest (hs : s.Balanced) (hacts : m.Acts settings held)
    (hbefore : m.before = s.desk)
    (hlocks : Locks.Balances s.desk.locks (held.locks :: (others ++ s.live.map Record.locks)))
    (hstages' : (s'.stages.map Stage.locks).Perm (m.turn.stage.locks :: others))
    (hdesk : s'.desk = m.after) (hsweeps : s'.sweeps = s.sweeps)
    (haccepted : s.accepted ⊆ s'.accepted) : s'.Balanced := by
  have hmodest := hacts.modest
  have hlive := live_of_modest hmodest hs.sorted hbefore hdesk hsweeps
  have hsorted := (hmodest.all_perm (hbefore ▸ hs.sorted)).2
  refine ⟨hdesk ▸ hsorted, ?_, fun r hr => haccepted (hs.accepted r (hlive.subset hr))⟩
  rw [hdesk]
  refine (hacts.balances (hbefore ▸ hlocks)).perm ?_
  exact (hstages'.append (hlive.map _)).symm

theorem Balanced.act_pays (hs : s.Balanced) {a : Accepted} {t : Target} {d : Draft}
    {payment : Payment} {now : Nat} (hfresh : ∀ old ∈ s.live, old.id ≠ a.fallback.txid)
    (hfallback : a.fallback ∈ s.accepted)
    (hlocks : Locks.Balances s.desk.locks
      ((Phase.paying a t d payment).holdings.locks :: (others ++ s.live.map Record.locks)))
    (hstages' : (s'.stages.map Stage.locks).Perm (.empty :: others))
    (hdesk : s'.desk = Submission.recordedDesk a t d now s.desk) (hsweeps : s'.sweeps = s.sweeps)
    (haccepted : s.accepted ⊆ s'.accepted) : s'.Balanced := by
  have hlive := live_of_pays hs.sorted hfresh hdesk hsweeps
  refine ⟨?_, ?_, ?_⟩
  · rw [hdesk]
    exact Wallets.sorted_set hs.sorted _ _
  · have hbalances : Locks.Balances s.desk.locks
        (.empty :: (others ++ (Submission.recordOf a d now :: s.live).map Record.locks)) := by
      rw [Locks.Balances.cons_empty, List.map_cons]
      exact hlocks.perm List.perm_middle.symm
    rw [hdesk]
    exact hbalances.perm (hstages'.append (hlive.map _)).symm
  · intro r hr
    rcases List.mem_cons.mp (hlive.subset hr) with rfl | hr
    · exact haccepted hfallback
    · exact haccepted (hs.accepted r hr)

theorem live_sweep_perm {before after removed : List Sweep.Phase} (r : Sweep.Step × Desk)
    (world : World) (hsweeps : s.sweeps = before ++ removed ++ after) :
    s.live.Perm (s.desk.wallets.all ++ removed.flatMap Sweep.Phase.taken ++
        (before ++ after).flatMap Sweep.Phase.taken) ∧
      (s.sweep before after r world).live.Perm
        (r.2.wallets.all ++ r.1.taken ++ (before ++ after).flatMap Sweep.Phase.taken) := by
  have htaken : r.1.phase?.toList.flatMap Sweep.Phase.taken = r.1.taken := by
    rw [Sweep.Step.taken]
    cases r.1.phase? <;> simp
  constructor
  · simp only [live, hsweeps, List.flatMap_append, List.append_assoc]
    exact (List.perm_append_comm_assoc _ _ _).append_left _
  · simp only [live, State.sweep, List.flatMap_append, htaken, List.append_assoc]
    exact (List.perm_append_comm_assoc _ _ _).append_left _

/-- One move of a sweep. -/
theorem Balanced.sweep {world : World} (hs : s.Balanced) {before after : List Sweep.Phase}
    (removed : List Sweep.Phase) {r : Sweep.Step × Desk}
    (hsweeps : s.sweeps = before ++ removed ++ after)
    (hr : Sweep.Sweeps s.desk (s.desk.wallets.all ++ removed.flatMap Sweep.Phase.taken) r) :
    (s.sweep before after r world).Balanced := by
  let rest := (before ++ after).flatMap Sweep.Phase.taken
  obtain ⟨hlive, hlive'⟩ := live_sweep_perm r world hsweeps
  refine ⟨hr.sorted hs.sorted, ?_, ?_⟩
  · have hbefore := hs.locks.perm ((hlive.map Record.locks).append_left _)
    rw [List.map_append] at hbefore
    have hafter := hr.balances (rest.map Record.locks ++ s.stages.map Stage.locks)
      (hbefore.perm (List.perm_append_comm.trans (.of_eq (List.append_assoc _ _ _))))
    refine hafter.perm ?_
    rw [← List.append_assoc, ← List.map_append]
    exact List.perm_append_comm.trans ((hlive'.map _).symm.append_left _)
  · intro record hrecord
    apply hs.accepted
    rcases List.mem_append.mp (hlive'.subset hrecord) with hmem | hmem
    · exact hlive.symm.subset (List.mem_append_left _ (hr.mem_of_mem hmem))
    · exact hlive.symm.subset (List.mem_append_right _ hmem)

end Act

end State

variable {settings : Settings} {outside : Outside} {world : outside.World}
  {s : State outside.World}

theorem Reachable.mem_accepted (h : Reachable settings outside world s) {number : Nat}
    {phase : Phase} {held : Holdings} {fallback : Transaction}
    (hstage : s.stages[number]? = some (.waiting phase held))
    (hfallback : phase.holdings.fallback = some fallback) : fallback ∈ s.accepted := by
  cases Log.stands (h.course hstage) with
  | waiting sound holds found calm =>
      have hlast := holds.accepted.trans hfallback
      obtain ⟨m, hm, haccepted⟩ := List.mem_filterMap.mp (List.mem_of_getLast? hlast)
      exact List.mem_filterMap.mpr ⟨(number, m), State.mem_log.mp hm, haccepted⟩

/-- No live record is of the fallback that a submission is about to record. -/
theorem Reachable.id_ne (h : Reachable settings outside world s) (hid : s.Identifies)
    (hs : s.Balanced) {number : Nat} {a : Accepted} {t : Target} {d : Draft} {payment : Payment}
    {held : Holdings} (hstage : s.stages[number]? = some (.waiting (.paying a t d payment) held)) :
    ∀ old ∈ s.live, old.id ≠ a.fallback.txid := by
  intro old hold hsame
  have haccepted := h.mem_accepted hstage rfl
  have houtPoints := hid _ (hs.accepted old hold) _ haccepted hsame
  cases Log.stands (h.course hstage) with
  | waiting sound holds found calm =>
      obtain ⟨o, ho⟩ := List.exists_mem_of_ne_nil _ sound.1.1.outPoints_ne_nil
      have hpairwise := (List.pairwise_append.mp hs.locks.pairwise).2.2
      have hmem := List.mem_map_of_mem (f := Stage.locks) (List.mem_of_getElem? hstage)
      refine (hpairwise _ hmem _ (List.mem_map_of_mem hold)).2 ho ?_
      rw [Record.locks, houtPoints]
      exact ho

theorem State.accepted_arrive {World : Type} (s : State World) (m : Move) :
    s.accepted ⊆ (s.arrive m).accepted := by
  simp [State.accepted, State.arrive]

theorem State.accepted_move {World : Type} (s : State World) (number : Nat) (m : Move)
    (world : World) : s.accepted ⊆ (s.move number m world).accepted := by
  simp [State.accepted, State.move]

theorem Reachable.balanced_move (h : Reachable settings outside world s) (hid : s.Identifies)
    (hs : s.Balanced) {number : Nat} {stage : Stage} {m : Move}
    (hstage : s.stages[number]? = some stage) (hmakes : Makes settings stage m)
    (hdesk : m.before = s.desk) (world' : outside.World) :
    (s.move number m world').Balanced ∧ s.live ⊆ (s.move number m world').live := by
  have hlt := (List.getElem?_eq_some_iff.mp hstage).1
  have hlocks := hs.locks.perm ((State.locks_perm hstage).append_right _)
  have hstages := State.locks_set_perm hlt m.turn.stage
  have haccepted := s.accepted_move number m world'
  rcases (h.course hstage).makes_cases hmakes with ⟨phase, rfl, hacts⟩ |
    ⟨a, t, d, payment, rfl, hconcludes⟩ | ⟨failure, fallback, rfl, -, hturn⟩
  · have hlive : (s.move number m world').live.Perm s.live :=
      State.live_of_modest hacts.modest hs.sorted hdesk rfl rfl
    exact ⟨hs.act_modest hacts hdesk hlocks hstages rfl rfl haccepted, hlive.symm.subset⟩
  · obtain ⟨now, hturn⟩ := hconcludes.turn
    have hfresh := h.id_ne hid hs hstage
    have hafter : (s.move number m world').desk = Submission.recordedDesk a t d now s.desk := by
      rw [State.move, Move.after, hturn, hdesk]
    rw [hturn] at hstages
    refine ⟨hs.act_pays hfresh (h.mem_accepted hstage rfl) hlocks ?_ hafter rfl haccepted, ?_⟩
    · rw [State.move, hturn]
      exact hstages
    · have hlive := State.live_of_pays hs.sorted hfresh hafter rfl
      exact fun r hr => hlive.symm.subset (List.mem_cons_of_mem _ hr)
  · have hafter : (s.move number m world').desk = s.desk := by
      rw [State.move, Move.after, hturn, ← hdesk]
      rfl
    have hlive : (s.move number m world').live = s.live := by
      rw [State.live, hafter]
      rfl
    rw [hturn] at hstages
    refine ⟨⟨?_, ?_, ?_⟩, hlive ▸ List.Subset.refl _⟩
    · rw [hafter]
      exact hs.sorted
    · rw [hafter, hlive, State.move, hturn]
      exact hlocks.perm (hstages.append_right _).symm
    · rw [hlive]
      exact fun r hr => haccepted (hs.accepted r hr)

theorem Reachable.balanced (h : Reachable settings outside world s) (hid : s.Identifies) :
    s.Balanced := by
  induction h with
  | start => exact State.balanced_start world
  | @next s s' hs hnext ih =>
      cases hnext with
      | arrive code request gone =>
          have haccepted := s.accepted_arrive
            ⟨.arrival, s.desk, .arrive settings s.desk code request gone⟩
          have hbalanced := ih fun tx h tx' h' => hid tx (haccepted h) tx' (haccepted h')
          refine hbalanced.act_modest (Move.acts_of_arrive settings s.desk code request gone) rfl
            (Locks.Balances.cons_empty.mpr hbalanced.locks) ?_ rfl rfl haccepted
          simp only [State.arrive, List.map_append, List.map_cons, List.map_nil]
          exact List.perm_append_comm
      | @move number stage m world' hstage hmakes hdesk hworld =>
          have haccepted := s.accepted_move number m world'
          have hid' : s.Identifies :=
            fun tx h tx' h' => hid tx (haccepted h) tx' (haccepted h')
          exact (hs.balanced_move hid' (ih hid') hstage hmakes hdesk world').1
      | startSweep timeout now =>
          have hbalanced := ih hid
          refine hbalanced.sweep [] (by simp) ?_
          simpa using Sweep.start_sweeps timeout now hbalanced.sorted
      | @sweep timeout now before after phase outcome world' hsweep hworld =>
          have hbalanced := ih hid
          refine hbalanced.sweep [phase] (by simpa using hsweep) ?_
          simpa using Sweep.resume_sweeps timeout now phase outcome hbalanced.sorted
      | relay => exact ⟨(ih hid).sorted, (ih hid).locks, (ih hid).accepted⟩
      | change => exact ⟨(ih hid).sorted, (ih hid).locks, (ih hid).accepted⟩
      | words => exact ⟨(ih hid).sorted, (ih hid).locks, (ih hid).accepted⟩

theorem Reachable.exists_cutOff_iff (h : Reachable settings outside world s) :
    (∃ (number : Nat) (held : Holdings), s.stages[number]? = some (.cutOff held)) ↔
      ∃ e ∈ s.history, e.2.Overflows settings := by
  constructor
  · rintro ⟨number, held, hstage⟩
    obtain ⟨m, hm, hover⟩ := (Log.cutOff_iff_overflows (h.course hstage)).mp ⟨held, rfl⟩
    exact ⟨(number, m), State.mem_log.mp hm, hover⟩
  · rintro ⟨⟨number, m⟩, he, hover⟩
    have hstage := List.getElem?_eq_getElem (h.number_lt _ he)
    obtain ⟨held, hcut⟩ := (Log.cutOff_iff_overflows (h.course hstage)).mpr
      ⟨m, State.mem_log.mpr he, hover⟩
    exact ⟨number, held, hstage.trans (congrArg some hcut)⟩

theorem length_inputs (stages : List Stage) :
    (stages.flatMap (·.locks.inputs)).length =
      (stages.flatMap (·.held.inputs)).length + (stages.flatMap (·.lost.inputs)).length := by
  induction stages with
  | nil => rfl
  | cons stage stages ih =>
      have hstage : stage.locks.inputs.length = stage.held.inputs.length + stage.lost.inputs.length := by
        cases stage <;> simp [Stage.locks, Stage.held, Stage.lost, Locks.empty]
      simp only [List.flatMap_cons, List.length_append]
      omega

/-- Submissions that go on and live records hold all locks there are, exactly if
nothing was lost. -/
theorem Reachable.balances_holders_iff (h : Reachable settings outside world s)
    (hid : s.Identifies) :
    s.desk.locks.Balances s.holders ↔ ∀ e ∈ s.history, ¬e.2.Overflows settings := by
  have hs := h.balanced hid
  have hcut := h.exists_cutOff_iff
  constructor
  · intro hholders e he hover
    obtain ⟨number, held, hstage⟩ := hcut.mpr ⟨e, he, hover⟩
    have hlengths := hholders.2.1.length_eq.symm.trans hs.locks.2.1.length_eq
    simp only [State.holders, List.flatMap_append, List.flatMap_map, List.length_append] at hlengths
    have hlost := length_inputs s.stages
    have hnil : s.stages.flatMap (·.lost.inputs) = [] := List.eq_nil_of_length_eq_zero (by omega)
    have hinputs := List.flatMap_eq_nil_iff.mp hnil _ (List.mem_of_getElem? hstage)
    exact Log.inputs_ne_nil_of_cutOff (h.course hstage) hinputs
  · intro hcalm
    have hmap : s.stages.map Stage.held = s.stages.map Stage.locks := by
      apply List.map_congr_left
      intro stage hstage
      cases stage with
      | cutOff held =>
          obtain ⟨number, hnumber⟩ := List.getElem?_of_mem hstage
          obtain ⟨e, he, hover⟩ := hcut.mp ⟨number, held, hnumber⟩
          exact absurd hover (hcalm e he)
      | _ => rfl
    rw [State.holders, hmap]
    exact hs.locks

/-- Whatever a submission does, it leaves locked what the others hold. -/
theorem Reachable.others_subset (h : Reachable settings outside world s) (hid : s.Identifies)
    {number : Nat} {stage : Stage} {m : Move} (hstage : s.stages[number]? = some stage)
    (hmakes : Makes settings stage m) (hdesk : m.before = s.desk) {other : Locks}
    (hother : other ∈ (s.stages.eraseIdx number).map Stage.held ++ s.live.map Record.locks) :
    other.coins ⊆ m.after.locks.coins ∧ other.inputs ⊆ m.after.locks.inputs := by
  obtain ⟨hbalanced, hlive⟩ :=
    h.balanced_move hid (h.balanced hid) hstage hmakes hdesk world
  have hlt := (List.getElem?_eq_some_iff.mp hstage).1
  rcases List.mem_append.mp hother with hother | hother
  · obtain ⟨stage', hstage', rfl⟩ := List.mem_map.mp hother
    have hmem := (State.locks_set_perm hlt m.turn.stage).symm.subset
      (List.mem_cons_of_mem _ (List.mem_map_of_mem hstage'))
    obtain ⟨hcoins, hinputs⟩ := hbalanced.locks.subset (List.mem_append_left _ hmem)
    cases stage' with
    | waiting => exact ⟨hcoins, hinputs⟩
    | _ => exact ⟨List.nil_subset _, List.nil_subset _⟩
  · obtain ⟨r, hr, rfl⟩ := List.mem_map.mp hother
    exact hbalanced.locks.subset (List.mem_append_right _ (List.mem_map_of_mem (hlive hr)))

namespace Clash

open Draft.Sample (accepted coin original source target)

variable {signed : Draft}

theorem live_handedOut (h : Signs signed) :
    (handedOut signed).live.Perm [Submission.recordOf accepted signed 0] := by
  have hwallets := (endorsed_eq h).2
  have hsorted : Table.Sorted endorsed.desk.wallets := by
    rw [hwallets]
    exact List.pairwise_singleton _ _
  have hnone : endorsed.live = [] := by
    rw [State.live, hwallets]
    rfl
  have hfresh : ∀ old ∈ endorsed.live, old.id ≠ accepted.fallback.txid := by
    rw [hnone]
    exact List.forall_mem_nil _
  have hdesk : (handedOut signed).desk =
      Submission.recordedDesk accepted target signed 0 endorsed.desk := by
    rw [handedOut, State.move, Move.after, handOut_turn]
  have hsweeps : (handedOut signed).sweeps = endorsed.sweeps := by
    rw [handedOut, State.move]
  rw [← hnone]
  exact State.live_of_pays hsorted hfresh hdesk hsweeps

theorem locks_recordOf (h : Signs signed) :
    (Submission.recordOf accepted signed 0).locks = ⟨[coin.outPoint], [source]⟩ := by
  rw [Submission.recordOf, h.contributed]
  rfl

/-- The submission that waits is cancelled. -/
def givenUp (signed : Draft) : Turn :=
  .cancel (handedOut signed).desk ⟨[coin.outPoint], [], some spender⟩

theorem holders_handedOut (h : Signs signed) : (handedOut signed).holders.Perm
    [⟨[], [coin.outPoint]⟩, .empty, ⟨[coin.outPoint], [source]⟩] := by
  have hrecord := (live_handedOut h).map Record.locks
  rw [List.map_singleton, locks_recordOf h] at hrecord
  rw [State.holders, handedOut_stages h]
  exact hrecord.append_left _

theorem handedOut_identifies (signed : Draft) : (handedOut signed).Identifies := by
  have haccepted : (handedOut signed).accepted = [spender, original] := rfl
  have hne : spender.txid ≠ original.txid := by decide +kernel
  rw [State.Identifies, haccepted]
  simp [hne, hne.symm]

theorem handedOut_calm (h : Signs signed) :
    ∀ e ∈ (handedOut signed).history, ¬e.2.Overflows Sample.settings := by
  intro e he hover
  obtain ⟨number, held, hstage⟩ := (handedOut_reachable h).exists_cutOff_iff.mpr ⟨e, he, hover⟩
  have hcut := List.mem_of_getElem? hstage
  simp [handedOut_stages h] at hcut

end Clash

/-- The locks are those that submissions under way and live records hold, each of
them held once, exactly as long as no amounts got out of range. Even so no two
live records share a coin or an input, no submission frees what others hold, and
a proposal is always recorded. -/
theorem locks_are_held_once (h : Reachable settings outside world s) (hid : s.Identifies) :
    (s.desk.locks.Balances s.holders ↔ ∀ e ∈ s.history, ¬e.2.Overflows settings) ∧
    s.live.Pairwise (fun r r' => r.coins.Disjoint r'.coins ∧
      r.fallback.outPoints.Disjoint r'.fallback.outPoints) ∧
    (∀ (number : Nat) (stage : Stage) (m : Move), s.stages[number]? = some stage →
      Makes settings stage m → m.before = s.desk →
        ∀ other ∈ (s.stages.eraseIdx number).map Stage.held ++ s.live.map Record.locks,
          other.coins ⊆ m.after.locks.coins ∧ other.inputs ⊆ m.after.locks.inputs) ∧
    ∀ (number : Nat) (a : Accepted) (t : Target) (d : Draft) (payment : Payment)
      (held : Holdings) (now : Nat),
      s.stages[number]? = some (.waiting (.paying a t d payment) held) →
        (s.desk.wallets.records t.method.account.wallet).add?
          (Submission.recordOf a d now) ≠ none := by
  have hs := h.balanced hid
  refine ⟨h.balances_holders_iff hid, ?_, ?_, ?_⟩
  · exact List.pairwise_map.mp (List.pairwise_append.mp hs.locks.pairwise).2.1
  · intro number stage m hstage hmakes hdesk other hother
    exact h.others_subset hid hstage hmakes hdesk hother
  · intro number a t d payment held now hstage
    have hfresh : ∀ old ∈ s.desk.wallets.records t.method.account.wallet,
        old.id ≠ (Submission.recordOf a d now).id := fun old hold =>
      h.id_ne hid hs hstage old
        (List.mem_append_left _ (Wallets.mem_all_of_mem_records hs.sorted hold))
    rw [Records.add?_eq_some hfresh]
    simp

namespace Clash

open Draft.Sample (accepted coin source target)

/-- One submission waits beside the record of a proposal, and all locks are held. If the
submission is cancelled, what the record holds stays locked, although the coin of the one
is an input of the other. -/
theorem handedOut_balances : ∃ signed, Signs signed ∧
    (handedOut signed).holders.Perm
      [⟨[], [coin.outPoint]⟩, .empty, ⟨[coin.outPoint], [source]⟩] ∧
    (handedOut signed).desk.locks.Balances (handedOut signed).holders ∧
    coin.outPoint ∈ (givenUp signed).desk.locks.coins ∧
    source ∈ (givenUp signed).desk.locks.inputs ∧
    (endorsed.desk.wallets.records target.method.account.wallet).add?
      (Submission.recordOf accepted signed 0) ≠ none := by
  obtain ⟨signed, hsigns⟩ := exists_signs
  have hid := handedOut_identifies signed
  have hid' : endorsed.Identifies := fun tx h tx' h' =>
    hid tx (State.accepted_move _ _ _ _ h) tx' (State.accepted_move _ _ _ _ h')
  have hrecord : ⟨[coin.outPoint], [source]⟩ ∈ (handedOut signed).live.map Record.locks :=
    List.mem_map.mpr ⟨_, (live_handedOut hsigns).symm.subset List.mem_cons_self,
      locks_recordOf hsigns⟩
  have hpays : endorsed.stages[1]? = some (.waiting (.paying accepted target signed
      (Submission.paymentOf accepted target signed 100))
        ⟨[source], [coin.outPoint], some Draft.Sample.original⟩) := by
    rw [(endorsed_eq hsigns).1]
    rfl
  obtain ⟨hbalances, -, hothers, -⟩ := locks_are_held_once (handedOut_reachable hsigns) hid
  obtain ⟨-, -, -, hadds⟩ := locks_are_held_once endorsed_reachable hid'
  obtain ⟨hcoins, hinputs⟩ := hothers 0 _ _ (handedOut_waits hsigns)
    (.cancel (handedOut signed).desk _ _) rfl _ (List.mem_append_right _ hrecord)
  exact ⟨signed, hsigns, holders_handedOut hsigns, hbalances.mpr (handedOut_calm hsigns),
    hcoins List.mem_cons_self, hinputs List.mem_cons_self, hadds 1 _ _ _ _ _ 0 hpays⟩

end Clash

end Traffic

end Paydesk.Payjoin

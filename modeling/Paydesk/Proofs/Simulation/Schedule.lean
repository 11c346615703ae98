import Mathlib.Data.List.Perm.Subperm
import Paydesk.Proofs.Payjoin.Traffic
import Paydesk.Simulation.Schedule

/-!
Whatever a schedule runs, it runs moves of submissions and sweeps one after another,
so what holds in any order of moves holds of it.
-/

namespace Paydesk

open Chain Payjoin

/-- A world that answers as it is told to. Between calls it may be told anything, but
invoices and payments stay. -/
def Payjoin.Outside.ofWorld : Outside where
  World := Simulation.World
  Answers w call outcome w' := w.answer call = (outcome, w')
  Changes w w' := w'.store = w.store

namespace Simulation

namespace Job

def stage? : Job → Option Stage
  | .submission _ phase holdings => some (.waiting phase holdings)
  | .closing _ failure fallback => some (.closing failure fallback)
  | _ => none

def sweep? : Job → Option Sweep.Phase
  | .sweeping _ _ phase => some phase
  | _ => none

def relay? : Job → Option Transaction
  | .relayLater fallback | .relaying fallback => some fallback
  | _ => none

/-- The job that goes on from a stage. -/
def ofStage? (id : Nat) : Stage → Option Job
  | .waiting phase holdings => some (.submission id phase holdings)
  | .closing failure fallback => some (.closing id failure fallback)
  | .ended _ | .cutOff _ => none

/-- The jobs that a turn leaves. -/
def ofTurn (id : Nat) (turn : Turn) : List Job :=
  (ofStage? id turn.stage).toList ++ turn.later.toList.map .relayLater

/-- Jobs that only wait for their time. -/
def Idles (job : Job) : Prop := job.stage? = none ∧ job.sweep? = none ∧ job.relay? = none

end Job

/-- All jobs are under way. There may be more under way that no job goes on with. -/
structure Carries (s : Traffic.State World) (jobs : List Job) : Prop where
  stages : (jobs.filterMap Job.stage?).Subperm s.stages
  sweeps : (jobs.filterMap Job.sweep?).Subperm s.sweeps
  relays : (jobs.filterMap Job.relay?).Subperm s.relays

theorem filterMap_subperm {α β : Type} (f : α → Option β) {l l' : List α} (h : l.Subperm l') :
    (l.filterMap f).Subperm (l'.filterMap f) := by
  obtain ⟨l₀, hperm, hsublist⟩ := h
  exact ⟨l₀.filterMap f, hperm.filterMap f, hsublist.filterMap f⟩

theorem exists_getElem?_of_subperm {α : Type} {a : α} {l l' : List α} (h : (a :: l).Subperm l') :
    ∃ i, l'[i]? = some a ∧ ∀ b, (b :: l).Subperm (l'.set i b) := by
  obtain ⟨i, hi⟩ := List.getElem?_of_mem (h.subset List.mem_cons_self)
  obtain ⟨hlt, hget⟩ := List.getElem?_eq_some_iff.mp hi
  refine ⟨i, hi, fun b => ?_⟩
  have hperm := (List.getElem_cons_eraseIdx_perm hlt).symm
  rw [hget] at hperm
  have hrest := (List.subperm_cons a).mp ((hperm.subperm_left).mp h)
  exact ((List.set_perm_cons_eraseIdx hlt b).subperm_left).mpr ((List.subperm_cons b).mpr hrest)

theorem exists_append_of_subperm {α : Type} {a : α} {l l' : List α} (h : (a :: l).Subperm l') :
    ∃ before after, l' = before ++ a :: after ∧ l.Subperm (before ++ after) := by
  obtain ⟨before, after, rfl⟩ := List.append_of_mem (h.subset List.mem_cons_self)
  refine ⟨before, after, rfl, (List.subperm_cons a).mp ?_⟩
  exact (List.perm_middle.subperm_left).mp h

namespace Carries

variable {s : Traffic.State World} {job : Job} {jobs jobs' : List Job}

theorem mono (h : Carries s jobs) (hsub : jobs'.Subperm jobs) : Carries s jobs' :=
  ⟨(filterMap_subperm _ hsub).trans h.stages, (filterMap_subperm _ hsub).trans h.sweeps,
    (filterMap_subperm _ hsub).trans h.relays⟩

theorem cons_of_idles (hidles : job.Idles) (h : Carries s jobs) : Carries s (job :: jobs) := by
  obtain ⟨hstage, hsweep, hrelay⟩ := hidles
  exact ⟨by simpa [hstage] using h.stages, by simpa [hsweep] using h.sweeps,
    by simpa [hrelay] using h.relays⟩

theorem stages_ofTurn (id : Nat) (turn : Turn) {stages : List Stage}
    (h : (turn.stage :: jobs.filterMap Job.stage?).Subperm stages) :
    ((Job.ofTurn id turn ++ jobs).filterMap Job.stage?).Subperm stages := by
  refine List.Subperm.trans ?_ h
  have hlater : (turn.later.toList.map Job.relayLater).filterMap Job.stage? = [] := by
    cases turn.later <;> rfl
  rw [Job.ofTurn, List.filterMap_append, List.filterMap_append, hlater, List.append_nil]
  cases hstage : turn.stage with
  | waiting | closing => exact List.Subperm.refl _
  | ended | cutOff => exact (List.sublist_cons_self _ _).subperm

theorem sweeps_ofTurn (id : Nat) (turn : Turn) :
    (Job.ofTurn id turn ++ jobs).filterMap Job.sweep? = jobs.filterMap Job.sweep? := by
  have hlater : (turn.later.toList.map Job.relayLater).filterMap Job.sweep? = [] := by
    cases turn.later <;> rfl
  rw [Job.ofTurn, List.filterMap_append, List.filterMap_append, hlater]
  cases turn.stage <;> rfl

theorem relays_ofTurn (id : Nat) (turn : Turn) :
    (Job.ofTurn id turn ++ jobs).filterMap Job.relay? =
      turn.later.toList ++ jobs.filterMap Job.relay? := by
  have hlater : (turn.later.toList.map Job.relayLater).filterMap Job.relay? =
      turn.later.toList := by
    cases turn.later <;> rfl
  rw [Job.ofTurn, List.filterMap_append, List.filterMap_append, hlater]
  cases turn.stage <;> rfl

theorem arrive (h : Carries s jobs) (id : Nat) (m : Move) :
    Carries (s.arrive m) (Job.ofTurn id m.turn ++ jobs) where
  stages := by
    refine stages_ofTurn id m.turn ?_
    exact (List.perm_append_comm.subperm_left).mp ((List.subperm_cons _).mpr h.stages)
  sweeps := by
    rw [sweeps_ofTurn]
    exact h.sweeps
  relays := by
    rw [relays_ofTurn]
    exact (List.perm_append_comm.subperm_left).mp ((List.Subperm.refl _).append h.relays)

theorem move {stage : Stage} (h : Carries s (job :: jobs)) (hstage : job.stage? = some stage) :
    ∃ number, s.stages[number]? = some stage ∧ ∀ (id : Nat) (m : Move) (world : World),
      Carries (s.move number m world) (Job.ofTurn id m.turn ++ jobs) := by
  have hstages := h.stages
  rw [List.filterMap_cons_some hstage] at hstages
  obtain ⟨number, hnumber, hset⟩ := exists_getElem?_of_subperm hstages
  have hrest := h.mono (List.sublist_cons_self job jobs).subperm
  refine ⟨number, hnumber, fun id m world => ⟨stages_ofTurn id m.turn (hset m.turn.stage), ?_, ?_⟩⟩
  · rw [sweeps_ofTurn]
    exact hrest.sweeps
  · rw [relays_ofTurn]
    exact (List.perm_append_comm.subperm_left).mp ((List.Subperm.refl _).append hrest.relays)

theorem sweep {phase : Sweep.Phase} {origin : Origin} {timeout : Nat}
    (h : Carries s (.sweeping origin timeout phase :: jobs)) :
    ∃ before after, s.sweeps = before ++ phase :: after ∧
      ∀ (r : Sweep.Step × Desk) (world : World),
        Carries (s.sweep before after r world)
          (r.1.phase?.toList.map (.sweeping origin timeout) ++ jobs) := by
  obtain ⟨before, after, hsweeps, hrest⟩ := exists_append_of_subperm h.sweeps
  refine ⟨before, after, hsweeps, fun r world => ?_⟩
  cases hphase : r.1.phase? with
  | none => exact ⟨h.stages, by simpa [Traffic.State.sweep, hphase] using hrest, h.relays⟩
  | some next =>
      refine ⟨h.stages, ?_, h.relays⟩
      simp only [Traffic.State.sweep, hphase, Option.toList_some, List.append_assoc,
        List.singleton_append]
      exact (List.perm_middle.symm.subperm_left).mp ((List.subperm_cons next).mpr hrest)

theorem startSweep (h : Carries s jobs) (origin : Origin) (timeout : Nat)
    (r : Sweep.Step × Desk) (world : World) :
    Carries (s.sweep s.sweeps [] r world)
      (r.1.phase?.toList.map (.sweeping origin timeout) ++ jobs) := by
  cases hphase : r.1.phase? with
  | none => exact ⟨h.stages, by simpa [Traffic.State.sweep, hphase] using h.sweeps, h.relays⟩
  | some next =>
      refine ⟨h.stages, ?_, h.relays⟩
      simp only [Traffic.State.sweep, hphase, Option.toList_some, List.append_nil]
      exact (List.perm_append_comm.subperm_left).mp ((List.subperm_cons next).mpr h.sweeps)

theorem relay {fallback : Transaction} (h : Carries s (.relaying fallback :: jobs)) :
    ∃ before after, s.relays = before ++ fallback :: after ∧
      ∀ world, Carries { s with world := world, relays := before ++ after } jobs := by
  obtain ⟨before, after, hrelays, hrest⟩ := exists_append_of_subperm h.relays
  exact ⟨before, after, hrelays, fun _ => ⟨h.stages, h.sweeps, hrest⟩⟩

end Carries

/-- A schedule whose jobs, those included that go on right now, are under way in a
traffic that began with some world. -/
def Follows (world : World) (jobs : List Job) (σ : State) : Prop :=
  ∃ s : Traffic.State World, Traffic.Reachable σ.settings .ofWorld world s ∧ s.desk = σ.desk ∧
    s.world = σ.world ∧ Carries s (jobs ++ σ.waiting.map Entry.job)

theorem schedule_perm (e : Entry) (entries : List Entry) : (schedule e entries).Perm (e :: entries) := by
  induction entries with
  | nil => exact .refl _
  | cons other entries ih =>
      rw [schedule]
      split
      · exact .refl _
      · exact (ih.cons other).trans (.swap e other entries)

namespace Follows

variable {world : World} {job : Job} {jobs jobs' : List Job} {σ σ' : State}

theorem of_carries {s : Traffic.State World} (hs : Traffic.Reachable σ.settings .ofWorld world s)
    (hdesk : s.desk = σ.desk) (hworld : s.world = σ.world)
    (hcarries : Carries s (jobs ++ (jobs' ++ σ.waiting.map Entry.job))) :
    Follows world (jobs ++ jobs') σ := by
  rw [← List.append_assoc] at hcarries
  exact ⟨s, hs, hdesk, hworld, hcarries⟩

theorem mono (h : Follows world jobs σ) (hsettings : σ'.settings = σ.settings)
    (hdesk : σ'.desk = σ.desk) (hworld : σ'.world = σ.world)
    (hjobs : (jobs' ++ σ'.waiting.map Entry.job).Subperm (jobs ++ σ.waiting.map Entry.job)) :
    Follows world jobs' σ' := by
  obtain ⟨s, hs, hdesk', hworld', hcarries⟩ := h
  exact ⟨s, hsettings ▸ hs, hdesk'.trans hdesk.symm, hworld'.trans hworld.symm,
    hcarries.mono hjobs⟩

theorem drop (h : Follows world (job :: jobs) σ) : Follows world jobs σ :=
  h.mono rfl rfl rfl (List.sublist_cons_self _ _).subperm

theorem cons_of_idles (hidles : job.Idles) (h : Follows world jobs σ) :
    Follows world (job :: jobs) σ := by
  obtain ⟨s, hs, hdesk, hworld, hcarries⟩ := h
  exact ⟨s, hs, hdesk, hworld, hcarries.cons_of_idles hidles⟩

theorem change (h : Follows world jobs σ) {world' : World} (hstore : world'.store = σ.world.store) :
    Follows world jobs { σ with world := world' } := by
  obtain ⟨s, hs, hdesk, hworld, hcarries⟩ := h
  have hnext : Traffic.Next σ.settings .ofWorld s { s with world := world' } :=
    @Traffic.Next.change σ.settings .ofWorld s world' (hstore.trans (congrArg World.store hworld.symm))
  exact ⟨_, hs.next hnext, hdesk, rfl, ⟨hcarries.stages, hcarries.sweeps, hcarries.relays⟩⟩

theorem wakeAt (h : Follows world (job :: jobs) σ) (due : Nat) :
    Follows world jobs ((Run.wakeAt due job).run σ).2 := by
  refine h.mono rfl rfl rfl ?_
  have hperm := ((schedule_perm ⟨due, job⟩ σ.waiting).map Entry.job).append_left jobs
  exact (hperm.trans List.perm_middle).subperm

theorem finish (h : Follows world jobs σ) (id : Nat) (result : Result) :
    Follows world jobs ((Run.finish id result).run σ).2 :=
  h.mono rfl rfl rfl (List.Subperm.refl _)

end Follows

@[simp] theorem run_bind {α β : Type} (x : Run α) (f : α → Run β) (σ : State) :
    (x >>= f).run σ = (f (x.run σ).1).run (x.run σ).2 := rfl

@[simp] theorem run_pure {α : Type} (a : α) (σ : State) : (pure a : Run α).run σ = (a, σ) := rfl

@[simp] theorem run_get (σ : State) : (get : Run State).run σ = (σ, σ) := rfl

@[simp] theorem run_set (σ σ' : State) : (set σ' : Run PUnit).run σ = ((), σ') := rfl

theorem takeDelay_store (w : World) (kind : CallKind) : (w.takeDelay kind).2.store = w.store := by
  rw [World.takeDelay]
  split <;> rfl

namespace Follows

variable {world : World} {job : Job} {jobs : List Job} {σ : State}

theorem ofTurn_perm (jobs : List Job) (waiting : List Entry) (due id : Nat) (stage : Stage)
    (desk : Desk) (later : Option Transaction) :
    ((Job.ofStage? id stage).toList ++ jobs ++
        (later.elim waiting fun fallback => schedule ⟨due, .relayLater fallback⟩ waiting).map
          Entry.job).Perm
      (Job.ofTurn id ⟨stage, desk, later⟩ ++ jobs ++ waiting.map Entry.job) := by
  cases later with
  | none => simp [Job.ofTurn]
  | some fallback =>
      have hperm := (schedule_perm ⟨due, .relayLater fallback⟩ waiting).map Entry.job
      refine (hperm.append_left _).trans (List.perm_middle.trans ?_)
      simp only [Job.ofTurn, Option.toList_some, List.map_cons, List.map_nil, List.append_assoc,
        List.singleton_append]
      exact List.perm_middle.symm

theorem endTurn (id : Nat) (turn : Turn)
    (h : Follows world (Job.ofTurn id turn ++ jobs) { σ with desk := turn.desk }) :
    Follows world (((Run.endTurn id turn).run σ).1.toList ++ jobs)
      ((Run.endTurn id turn).run σ).2 := by
  obtain ⟨stage, desk, later⟩ := turn
  have hjobs :=
    (ofTurn_perm jobs σ.waiting (σ.now + σ.settings.delay) id stage desk later).subperm
  cases later <;> rcases stage with _ | _ | (_ | _) | _ <;> exact h.mono rfl rfl rfl hjobs

theorem begin_of_instant {call : Call} (hcall : job.call? = some call)
    (hdelay : (σ.world.takeDelay (.of call)).1 = 0) :
    ∃ broadcasts, (Run.begin job).run σ =
      (true, { σ with world := (σ.world.takeDelay (.of call)).2, broadcasts }) := by
  simp only [Run.begin, hcall]
  exact ⟨_, by simp [hdelay]; rfl⟩

theorem begin_of_delay {call : Call} (hcall : job.call? = some call)
    (hdelay : (σ.world.takeDelay (.of call)).1 ≠ 0) :
    ∃ broadcasts due, (Run.begin job).run σ = (false, ((Run.wakeAt due job).run
      { σ with world := (σ.world.takeDelay (.of call)).2, broadcasts }).2) := by
  simp only [Run.begin, hcall]
  exact ⟨_, σ.now + (σ.world.takeDelay (.of call)).1, by simp [hdelay]; rfl⟩

theorem begin (h : Follows world (job :: jobs) σ) :
    Follows world ((if ((Run.begin job).run σ).1 then [job] else []) ++ jobs)
      ((Run.begin job).run σ).2 := by
  cases hcall : job.call? with
  | none =>
      simp only [Run.begin, hcall]
      exact h
  | some call =>
      have hdelay := h.change (takeDelay_store σ.world (.of call))
      by_cases hinstant : (σ.world.takeDelay (.of call)).1 = 0
      · obtain ⟨broadcasts, hrun⟩ := begin_of_instant hcall hinstant
        rw [hrun]
        exact hdelay.mono rfl rfl rfl (List.Subperm.refl _)
      · obtain ⟨broadcasts, due, hrun⟩ := begin_of_delay hcall hinstant
        rw [hrun]
        refine Follows.wakeAt (σ := { σ with world := _, broadcasts }) ?_ due
        exact hdelay.mono rfl rfl rfl (List.Subperm.refl _)

theorem moves (h : Follows world (job :: jobs) σ) {stage : Stage} (hstage : job.stage? = some stage)
    {cause : Cause} {turn : Turn} (hmakes : Makes σ.settings stage ⟨cause, σ.desk, turn⟩)
    {world' : World} (hworld : Traffic.Passes .ofWorld cause σ.world world') (id : Nat) :
    Follows world (((Run.endTurn id turn).run { σ with world := world' }).1.toList ++ jobs)
      ((Run.endTurn id turn).run { σ with world := world' }).2 := by
  obtain ⟨s, hs, hdesk, hsworld, hcarries⟩ := h
  obtain ⟨number, hnumber, hmove⟩ := hcarries.move hstage
  rw [← hsworld] at hworld
  have hnext : Traffic.Next σ.settings .ofWorld s (s.move number ⟨cause, σ.desk, turn⟩ world') :=
    @Traffic.Next.move σ.settings .ofWorld s number stage ⟨cause, σ.desk, turn⟩ world' hnumber hmakes
      hdesk.symm hworld
  exact endTurn (σ := { σ with world := world' }) id turn
    (.of_carries (hs.next hnext) rfl rfl (hmove id ⟨cause, σ.desk, turn⟩ world'))

theorem startSweep_carries (h : Follows world jobs σ) (origin : Origin) (timeout : Nat) :
    Follows world
      (((Sweep.start timeout σ.now).run σ.desk).1.phase?.toList.map (.sweeping origin timeout) ++ jobs)
      { σ with desk := ((Sweep.start timeout σ.now).run σ.desk).2 } := by
  obtain ⟨s, hs, hdesk, hworld, hcarries⟩ := h
  have hnext := @Traffic.Next.startSweep σ.settings .ofWorld s timeout σ.now
  rw [hdesk] at hnext
  exact .of_carries (hs.next hnext) rfl hworld (hcarries.startSweep origin timeout _ _)

theorem sweepStep {step : Sweep.Step} {origin : Origin} {timeout : Nat}
    (h : Follows world (step.phase?.toList.map (.sweeping origin timeout) ++ jobs) σ) :
    Follows world (((Run.sweepStep origin timeout step).run σ).1.toList ++ jobs)
      ((Run.sweepStep origin timeout step).run σ).2 := by
  cases step with
  | wait phase => exact h
  | finished relayed =>
      cases origin with
      | once id => exact h.finish id (.swept relayed)
      | every interval next =>
          cases hstopped : σ.sweepsStopped with
          | true =>
              simp only [Run.sweepStep, run_bind, run_get, hstopped]
              exact h
          | false =>
              simp only [Run.sweepStep, run_bind, run_get, hstopped]
              exact (h.cons_of_idles ⟨rfl, rfl, rfl⟩).wakeAt next

theorem take (h : Follows world jobs σ) {e : Entry} {id : Nat} (hmem : e ∈ σ.waiting)
    (hof : e.isOf id) :
    Follows world (e.job :: jobs) { σ with waiting := σ.waiting.filter (!·.isOf id) } := by
  have hsingle : [e].Sublist (σ.waiting.filter (·.isOf id)) :=
    List.singleton_sublist.mpr (List.mem_filter.mpr ⟨hmem, hof⟩)
  have hperm := (List.filter_append_perm (·.isOf id) σ.waiting).map Entry.job
  have hwaiting := (hperm.subperm_left).mp
    ((hsingle.append (List.Sublist.refl (σ.waiting.filter (!·.isOf id)))).map Entry.job).subperm
  refine h.mono rfl rfl rfl ?_
  exact (List.perm_middle.symm.subperm_right).mpr ((List.Subperm.refl jobs).append hwaiting)

theorem cancel (h : Follows world jobs σ) (id : Nat) :
    Follows world (((Run.cancel id).run σ).1.toList ++ jobs) ((Run.cancel id).run σ).2 := by
  cases hfind : σ.waiting.find? (·.isOf id) with
  | none =>
      simp only [Run.cancel, run_bind, run_get, hfind]
      exact h
  | some e =>
      obtain ⟨due, job⟩ := e
      have hmem := List.mem_of_find?_eq_some hfind
      have hof := List.find?_some hfind
      cases job with
      | submission other phase holdings =>
          simp only [Run.cancel, run_bind, run_get, run_set, hfind]
          exact (h.take hmem hof).moves rfl (.cancel σ.desk phase holdings) rfl id
      | _ => simp [Entry.isOf] at hof

theorem proceed (h : Follows world (job :: jobs) σ) :
    Follows world (((Run.proceed job).run σ).1.toList ++ jobs) ((Run.proceed job).run σ).2 := by
  cases job with
  | submission id phase holdings =>
      exact h.moves rfl
        (.answer σ.now σ.desk phase holdings (σ.world.answer phase.call).1) rfl id
  | closing id failure fallback =>
      exact h.moves rfl (.relay σ.desk failure fallback
        (σ.world.answer (.broadcast fallback false)).1) rfl id
  | cancelling id => exact h.drop.cancel id
  | relayLater fallback =>
      obtain ⟨s, hs, hdesk, hworld, hcarries⟩ := h
      exact ⟨s, hs, hdesk, hworld, ⟨hcarries.stages, hcarries.sweeps, hcarries.relays⟩⟩
  | relaying fallback =>
      obtain ⟨s, hs, hdesk, hworld, hcarries⟩ := h
      obtain ⟨before, after, hrelays, hrelay⟩ := hcarries.relay
      have hanswer : Outside.ofWorld.Answers s.world (.broadcast fallback false)
          (σ.world.answer (.broadcast fallback false)).1
          (σ.world.answer (.broadcast fallback false)).2 := by
        rw [hworld]
        rfl
      have hnext := @Traffic.Next.relay σ.settings .ofWorld s before after fallback _ _ hrelays hanswer
      exact ⟨_, hs.next hnext, hdesk, rfl, hrelay _⟩
  | sweeping origin timeout phase =>
      obtain ⟨s, hs, hdesk, hworld, hcarries⟩ := h
      obtain ⟨before, after, hsweeps, hsweep⟩ := hcarries.sweep
      have hanswer : Outside.ofWorld.Answers s.world phase.call
          (σ.world.answer phase.call).1 (σ.world.answer phase.call).2 := by
        rw [hworld]
        rfl
      have hnext := @Traffic.Next.sweep σ.settings .ofWorld s timeout σ.now before after phase _ _
        hsweeps hanswer
      rw [hdesk] at hnext
      exact sweepStep (.of_carries (hs.next hnext) rfl rfl (hsweep _ _))
  | sweepAt interval timeout due =>
      cases hstopped : σ.sweepsStopped with
      | true =>
          simp only [Run.proceed, run_bind, run_get, hstopped, if_true]
          exact h.drop
      | false =>
          simp only [Run.proceed, run_bind, run_get, hstopped]
          exact sweepStep (h.drop.startSweep_carries _ timeout)

theorem follow (fuel : Nat) {job? : Option Job} (h : Follows world (job?.toList ++ jobs) σ) :
    Follows world jobs ((Run.follow fuel job?).run σ).2 := by
  induction fuel generalizing job? σ with
  | zero =>
      refine h.mono rfl rfl rfl ?_
      rw [List.append_assoc]
      exact (List.sublist_append_right job?.toList _).subperm
  | succ fuel ih =>
      cases job? with
      | none => exact h
      | some job =>
          have hbegin := begin h
          cases hbegun : (Run.begin job).run σ with
          | mk instant σ' =>
              rw [hbegun] at hbegin
              cases instant with
              | false =>
                  simp only [Run.follow, run_bind, hbegun]
                  exact hbegin
              | true =>
                  simp only [Run.follow, run_bind, hbegun, if_true]
                  exact ih (proceed hbegin)

theorem wakeWhile (more : State → Entry → Bool) (fuel : Nat) (h : Follows world [] σ) :
    Follows world [] ((Run.wakeWhile more fuel).run σ).2 := by
  induction fuel generalizing σ with
  | zero => exact h
  | succ fuel ih =>
      cases hwaiting : σ.waiting with
      | nil =>
          simp only [Run.wakeWhile, run_bind, run_get, hwaiting]
          exact h
      | cons e waiting =>
          cases hmore : more σ e with
          | false =>
              simp only [Run.wakeWhile, run_bind, run_get, hwaiting, hmore]
              exact h
          | true =>
              have hwoken : Follows world [e.job] { σ with waiting, now := max σ.now e.due } := by
                refine h.mono rfl rfl rfl ?_
                rw [hwaiting]
                exact List.Subperm.refl _
              simp only [Run.wakeWhile, run_bind, run_get, run_set, hwaiting, hmore, if_true]
              exact ih (follow Run.maxCalls (proceed hwoken))

theorem await (ids : List Nat) (h : Follows world [] σ) :
    Follows world [] ((Run.await ids).run σ).2 :=
  (h.wakeWhile (fun s _ => ids.any fun id => (s.result? id).isNone) Run.maxCalls).mono rfl rfl rfl
    (List.Subperm.refl _)

theorem setWords (words : Words) (h : Follows world jobs σ) :
    Follows world jobs ((Run.setWords words).run σ).2 := by
  obtain ⟨s, hs, hdesk, hworld, hcarries⟩ := h
  have hnext := @Traffic.Next.words σ.settings .ofWorld s words
  rw [hdesk] at hnext
  exact ⟨_, hs.next hnext, rfl, hworld, ⟨hcarries.stages, hcarries.sweeps, hcarries.relays⟩⟩

theorem receive (id : Nat) (v : Visit) (h : Follows world jobs σ) :
    Follows world jobs ((Run.receive id v).run σ).2 := by
  obtain ⟨s, hs, hdesk, hworld, hcarries⟩ := h
  have hnext := @Traffic.Next.arrive σ.settings .ofWorld s v.code v.request v.gone
  rw [hdesk] at hnext
  simp only [Run.receive, run_bind, run_get]
  exact follow Run.maxCalls
    (endTurn id _ (.of_carries (hs.next hnext) rfl hworld (hcarries.arrive id _)))

theorem startVisit (id : Nat) (v : Visit) (h : Follows world [] σ) :
    Follows world [] ((Run.startVisit id v).run σ).2 := by
  rw [Run.startVisit]
  split
  · rename_i patience _
    have hidles : Follows world [.cancelling id] σ := h.cons_of_idles ⟨rfl, rfl, rfl⟩
    have hwoken := receive id v (hidles.wakeAt (σ.now + patience))
    simpa only [run_bind, run_get] using hwoken
  · simpa using receive id v h

theorem forM_startVisit (visits : List (Nat × Visit)) (h : Follows world [] σ) :
    Follows world [] ((visits.forM fun (id, v) => Run.startVisit id v).run σ).2 := by
  induction visits generalizing σ with
  | nil => exact h
  | cons visit visits ih =>
      simp only [List.forM_eq_forM, List.forM_cons, run_bind] at ih ⊢
      exact ih (startVisit visit.1 visit.2 h)

end Follows

/-- What comes of a fresh start by letting a schedule run, and by telling the world how
to answer from then on. -/
inductive Driven (settings : Settings) (world : World) : State → Prop
  | new : Driven settings world (.new settings world)
  | tell {σ : State} {world' : World} (hstore : world'.store = σ.world.store) :
      Driven settings world σ → Driven settings world { σ with world := world' }
  | submit {σ : State} (words : Words) (v : Visit) :
      Driven settings world σ → Driven settings world ((Run.submit words v).run σ).2
  | submitAll {σ : State} (words : Words) (visits : List Visit) :
      Driven settings world σ → Driven settings world ((Run.submitAll words visits).run σ).2
  | sweep {σ : State} (timeout : Nat) :
      Driven settings world σ → Driven settings world ((Run.sweep timeout).run σ).2
  | startSweeps {σ : State} (interval timeout : Nat) :
      Driven settings world σ → Driven settings world ((Run.startSweeps interval timeout).run σ).2
  | stopSweeps {σ : State} :
      Driven settings world σ → Driven settings world (Run.stopSweeps.run σ).2
  | advance {σ : State} (duration : Nat) :
      Driven settings world σ → Driven settings world ((Run.advance duration).run σ).2
  | takeBroadcasts {σ : State} :
      Driven settings world σ → Driven settings world (Run.takeBroadcasts.run σ).2

theorem Driven.follows {settings : Settings} {world : World} {σ : State}
    (h : Driven settings world σ) : Follows world [] σ := by
  induction h with
  | new => exact ⟨.start world, .start, rfl, rfl, ⟨.refl _, .refl _, .refl _⟩⟩
  | tell hstore _ ih => exact ih.change hstore
  | submit words v _ ih =>
      simp only [Run.submit, run_bind, run_pure]
      exact ((ih.setWords words).startVisit mainJob v).await [mainJob]
  | submitAll words visits _ ih =>
      simp only [Run.submitAll, run_bind]
      exact ((ih.setWords words).forM_startVisit _).await _
  | sweep timeout _ ih =>
      simp only [Run.sweep, run_bind, run_pure, run_get]
      have hbegun := ih.startSweep_carries (.once mainJob) timeout
      exact (Follows.follow Run.maxCalls hbegun.sweepStep).await [mainJob]
  | @startSweeps σ interval timeout _ ih =>
      have hbegun : Follows world [] { σ with sweepsStopped := false } :=
        ih.mono rfl rfl rfl (List.Subperm.refl _)
      have hdue : Follows world [.sweepAt interval timeout σ.now] { σ with sweepsStopped := false } :=
        hbegun.cons_of_idles ⟨rfl, rfl, rfl⟩
      simp only [Run.startSweeps, run_bind, run_get, run_set]
      split
      · exact hbegun
      · exact Follows.follow Run.maxCalls hdue.proceed
  | stopSweeps _ ih =>
      refine ih.mono rfl rfl rfl ?_
      exact (List.filter_sublist.map Entry.job).subperm
  | advance duration _ ih =>
      simp only [Run.advance, run_bind, run_get]
      exact (ih.wakeWhile _ Run.maxCalls).mono rfl rfl rfl (List.Subperm.refl _)
  | takeBroadcasts _ ih => exact ih.mono rfl rfl rfl (List.Subperm.refl _)

/-- Whatever a schedule does to a desk, submissions and sweeps can do in some order. -/
theorem Driven.reachable {settings : Settings} {world : World} {σ : State}
    (h : Driven settings world σ) :
    ∃ s : Traffic.State World, Traffic.Reachable σ.settings .ofWorld world s ∧
      s.desk = σ.desk ∧ s.world = σ.world := by
  obtain ⟨s, hs, hdesk, hworld, -⟩ := h.follows
  exact ⟨s, hs, hdesk, hworld⟩

end Simulation

end Paydesk

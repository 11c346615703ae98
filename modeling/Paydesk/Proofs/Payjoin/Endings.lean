import Paydesk.Proofs.Payjoin.Course

/-!
How submissions end. What a submission has done is read off its moves alone:
what it locked, what it relayed, and what it left to be relayed.
-/

namespace Paydesk.Payjoin

open Chain Invoices

/-- The moves of a submission so far. -/
abbrev Log := List Move

namespace Log

/-- The fallback that the chain would relay, once that is known. -/
def accepted? (log : Log) : Option Transaction := (log.filterMap Move.accepted?).getLast?

def inputs (log : Log) : List OutPoint := log.flatMap Move.inputs

def coins (log : Log) : List OutPoint := log.flatMap Move.coins

/-- The fallbacks that are left to be relayed later. -/
def scheduled (log : Log) : List Transaction := log.filterMap (·.turn.later)

def relayed (log : Log) : List Transaction := log.filterMap Move.relayed?

def credits (log : Log) : List (String × Payment) := log.filterMap Move.credit?

/-- After some moves that only take locks, one gives all of them back and nothing
else, and then the fallback is relayed. -/
def Releases (log : Log) : Prop :=
  ∃ (earlier : Log) (failing closing : Move), log = earlier ++ [failing, closing] ∧
    (∀ m ∈ earlier, m.Keeps) ∧
    failing.after.locks =
      (failing.before.locks.unlockInputs earlier.inputs).unlockCoins earlier.coins ∧
    closing.Rests

/-- What a sender may count on. If the fallback would be relayed, then either a
proposal is handed out, the fallback is left to be relayed later and everything
stays locked, or the fallback is relayed and everything is given back. Otherwise
the request is refused, and nothing happened. -/
def Honours (log : Log) (result : Except Failure Proposal) : Prop :=
  match log.accepted?, result with
  | some fallback, .ok _ =>
      log.scheduled = [fallback] ∧ log.relayed = [] ∧ ∀ m ∈ log, m.Keeps
  | some fallback, .error _ =>
      log.scheduled = [] ∧ log.relayed = [fallback] ∧ log.Releases
  | none, .error _ => log.scheduled = [] ∧ log.relayed = [] ∧ ∀ m ∈ log, m.Rests
  | none, .ok _ => False

/-- A log that accounts for what is held. Nothing is touched before there is a
fallback. -/
structure Holds (log : Log) (held : Holdings) : Prop where
  accepted : log.accepted? = held.fallback
  inputs : log.inputs = held.inputs
  coins : log.coins = held.coins
  scheduled : log.scheduled = []
  relayed : log.relayed = []
  credits : log.credits = []
  keeps : ∀ m ∈ log, m.Keeps
  rests : held.fallback = none → ∀ m ∈ log, m.Rests

variable {settings : Settings} {log : Log} {held : Holdings} {m : Move}

theorem forall_append {P : Move → Prop} (h : ∀ m ∈ log, P m) (hm : P m) :
    ∀ m' ∈ log ++ [m], P m' :=
  List.forall_mem_append.mpr ⟨h, List.forall_mem_singleton.mpr hm⟩

theorem holds_nil : Holds [] .none := ⟨rfl, rfl, rfl, rfl, rfl, rfl, by simp, by simp⟩

theorem accepted?_append (log : Log) (m : Move) :
    accepted? (log ++ [m]) = (m.accepted?.or log.accepted?) := by
  cases h : m.accepted? <;> simp [accepted?, h]

theorem inputs_append (log : Log) (m : Move) : inputs (log ++ [m]) = log.inputs ++ m.inputs := by
  simp [inputs]

theorem coins_append (log : Log) (m : Move) : coins (log ++ [m]) = log.coins ++ m.coins := by
  simp [coins]

theorem scheduled_append (log : Log) (m : Move) :
    scheduled (log ++ [m]) = log.scheduled ++ m.turn.later.toList := by
  cases h : m.turn.later <;> simp [scheduled, h]

theorem relayed_append (log : Log) (m : Move) :
    relayed (log ++ [m]) = log.relayed ++ m.relayed?.toList := by
  cases h : m.relayed? <;> simp [relayed, h]

theorem credits_append (log : Log) (m : Move) :
    credits (log ++ [m]) = log.credits ++ m.credit?.toList := by
  cases h : m.credit? <;> simp [credits, h]

end Log

theorem Move.keeps_of_grants {m : Move} {inputs coins : List OutPoint}
    (h : Locks.Grants m.before.locks m.after.locks inputs coins) : m.Keeps := by
  rw [Keeps, h.inputs_eq, h.coins_eq]
  exact ⟨List.subset_append_right _ _, List.subset_append_right _ _⟩

namespace Log

variable {settings : Settings} {log : Log} {held : Holdings} {m : Move}

theorem Holds.grants (h : Holds log held) {inputs coins : List OutPoint}
    (hgrants : Locks.Grants m.before.locks m.after.locks inputs coins)
    (hmodest : m.Modest (m.accepted?.or held.fallback))
    (hrests : (m.accepted?.or held.fallback) = none → inputs = [] ∧ coins = []) :
    Holds (log ++ [m]) ⟨held.inputs ++ inputs, held.coins ++ coins,
      m.accepted?.or held.fallback⟩ where
  accepted := by rw [accepted?_append, h.accepted]
  inputs := by rw [inputs_append, h.inputs, Move.inputs, hgrants.filter_inputs]
  coins := by rw [coins_append, h.coins, Move.coins, hgrants.filter_coins]
  scheduled := by rw [scheduled_append, h.scheduled, hmodest.later]; rfl
  relayed := by rw [relayed_append, h.relayed, hmodest.relayed]; rfl
  credits := by rw [credits_append, h.credits, hmodest.credit]; rfl
  keeps := forall_append h.keeps (Move.keeps_of_grants hgrants)
  rests := by
    intro hnone
    have hheld : held.fallback = none := by
      cases hfallback : held.fallback with
      | none => rfl
      | some fallback =>
          rw [hfallback] at hnone
          cases hm : m.accepted? <;> simp [hm] at hnone
    obtain ⟨rfl, rfl⟩ := hrests hnone
    exact forall_append (h.rests hheld)
      ⟨hgrants.eq, hmodest.wallets.resolve_right fun hw => hw.1 hnone⟩

/-- The invoice that a phase goes on with was read, and it had not been paid. -/
def Found (log : Log) (phase : Phase) : Prop :=
  ∀ t, phase.target? = some t →
    ∃ m ∈ log, m.found? = some t ∧ t.method.hasPayments = false

/-- What the moves of a submission say of its stage. -/
inductive Stands (settings : Settings) : Stage → Log → Prop
  | waiting {phase : Phase} {log : Log} (sound : phase.Sound) (holds : Holds log phase.holdings)
      (found : log.Found phase) (calm : ∀ m ∈ log, ¬m.Overflows settings) :
      Stands settings (.waiting phase phase.holdings) log
  | closing {failure : Failure} {fallback : Transaction} {log : Log} {held : Holdings} {m : Move}
      (holds : Holds log held) (accepted : (m.accepted?.or held.fallback) = some fallback)
      (locks : m.after.locks =
        (m.before.locks.unlockInputs held.inputs).unlockCoins held.coins)
      (modest : m.Modest (some fallback)) (calm : ∀ m' ∈ log ++ [m], ¬m'.Overflows settings) :
      Stands settings (.closing failure fallback) (log ++ [m])
  | failed {failure : Failure} {log : Log} (honours : log.Honours (.error failure))
      (credits : log.credits = []) (calm : ∀ m ∈ log, ¬m.Overflows settings) :
      Stands settings (.ended (.error failure)) log
  | proposed {a : Accepted} {t : Target} {d : Draft} {payment : Payment} {log : Log} {m : Move}
      (sound : (Phase.paying a t d payment).Sound)
      (holds : Holds log (Phase.paying a t d payment).holdings)
      (found : log.Found (.paying a t d payment))
      (calm : ∀ m ∈ log, ¬m.Overflows settings)
      (concludes : m.Concludes a t d payment) :
      Stands settings (.ended (.ok (Submission.proposalOf a t d))) (log ++ [m])
  | cutOff {held : Holdings} {log : Log} {m : Move} (holds : Holds (log ++ [m]) held)
      (inputs : held.inputs ≠ []) (overflows : m.Overflows settings) :
      Stands settings (.cutOff held) (log ++ [m])

/-- A failure before there is a fallback leaves everything as it was. -/
theorem honours_of_fails {failure : Failure} (hholds : Holds log .none)
    (hnone : m.accepted? = none) (hlocks : m.after.locks = m.before.locks)
    (hmodest : m.Modest none) : (log ++ [m]).Honours (.error failure) := by
  have haccepted : accepted? (log ++ [m]) = none := by
    rw [accepted?_append, hnone, hholds.accepted]
    rfl
  simp only [Honours, haccepted]
  refine ⟨?_, ?_, ?_⟩
  · rw [scheduled_append, hholds.scheduled, hmodest.later]
    rfl
  · rw [relayed_append, hholds.relayed, hmodest.relayed]
    rfl
  · exact forall_append (hholds.rests rfl)
      ⟨hlocks, hmodest.wallets.resolve_right fun hw => hw.1 rfl⟩

theorem stands_of_acts (hholds : Holds log held) (hcalm : ∀ m ∈ log, ¬m.Overflows settings)
    (hheld : held.fallback = none → held = .none)
    (hover : m.Overflows settings → held.fallback ≠ none ∧ held.inputs ≠ [])
    (hleads : ∀ next, m.cause.Leads next → next.Sound ∧ Found (log ++ [m]) next)
    (hacts : m.Acts settings held) :
    Stands settings m.turn.stage (log ++ [m]) := by
  cases hacts with
  | @waits next inputs coins stage leads grants holds modest calm =>
      obtain ⟨hsound, hfound⟩ := hleads next leads
      rw [stage]
      refine .waiting hsound ?_ hfound (forall_append hcalm calm)
      rw [holds]
      refine hholds.grants grants modest fun hnone => ?_
      have hnext := next.holdings_eq_none (by rw [holds, hnone])
      rw [holds, Holdings.none, Holdings.mk.injEq] at hnext
      exact ⟨(List.append_eq_nil_iff.mp hnext.1).2, (List.append_eq_nil_iff.mp hnext.2.1).2⟩
  | fails failure stage locks modest calm =>
      cases hfallback : (m.accepted?.or held.fallback) with
      | some fallback =>
          rw [stage, hfallback]
          exact .closing hholds hfallback locks (hfallback ▸ modest) (forall_append hcalm calm)
      | none =>
          obtain ⟨haccepted, hnone⟩ := Option.or_eq_none_iff.mp hfallback
          have hrests : m.after.locks = m.before.locks := by
            rw [locks, hheld hnone]
            exact Locks.unlock_empty _
          rw [stage, hfallback]
          exact .failed (honours_of_fails (hheld hnone ▸ hholds) haccepted hrests
            (hfallback ▸ modest)) (by rw [credits_append, hholds.credits, modest.credit]; rfl)
            (forall_append hcalm calm)
  | @stops inputs coins stage grants modest overflows =>
      rw [stage]
      obtain ⟨hfallback, hinputs⟩ := hover overflows
      refine .cutOff (hholds.grants grants modest fun hnone => ?_) (by simp [hinputs]) overflows
      exact absurd (Option.or_eq_none_iff.mp hnone).2 hfallback

theorem stands_of_concludes {a : Accepted} {t : Target} {d : Draft} {payment : Payment}
    (hsound : (Phase.paying a t d payment).Sound)
    (hholds : Holds log (Phase.paying a t d payment).holdings)
    (hfound : log.Found (.paying a t d payment)) (hcalm : ∀ m ∈ log, ¬m.Overflows settings)
    (hconcludes : m.Concludes a t d payment) : Stands settings m.turn.stage (log ++ [m]) := by
  rw [hconcludes.stage]
  exact .proposed hsound hholds hfound hcalm hconcludes

theorem honours_of_relay {failure : Failure} {fallback : Transaction} (hholds : Holds log held)
    (haccepted : (m.accepted?.or held.fallback) = some fallback)
    (hlocks : m.after.locks = (m.before.locks.unlockInputs held.inputs).unlockCoins held.coins)
    (hmodest : m.Modest (some fallback)) (desk : Desk)
    (outcome : Except String BroadcastResult) :
    Honours (log ++ [m] ++ [⟨.relay fallback outcome, desk, .close desk failure⟩])
      (.error failure) := by
  have hfallback : accepted? (log ++ [m] ++
      [⟨.relay fallback outcome, desk, .close desk failure⟩]) = some fallback := by
    rw [accepted?_append, accepted?_append, hholds.accepted, haccepted]
    rfl
  simp only [Honours, hfallback]
  refine ⟨?_, ?_, log, m, ⟨.relay fallback outcome, desk, .close desk failure⟩, ?_, hholds.keeps,
    ?_, rfl, rfl⟩
  · rw [scheduled_append, scheduled_append, hholds.scheduled, hmodest.later]
    rfl
  · rw [relayed_append, relayed_append, hholds.relayed, hmodest.relayed]
    rfl
  · rw [List.append_assoc]
    rfl
  · rw [hlocks, hholds.inputs, hholds.coins]

theorem found_of_follows {phase next : Phase} {outcome : phase.call.Outcome} {desk : Desk}
    {turn : Turn} (hfound : log.Found phase) (h : phase.Follows outcome next) :
    Found (log ++ [⟨.answer phase outcome, desk, turn⟩]) next := by
  intro t ht
  rcases h.target t ht with hphase | ⟨hnew, hunpaid⟩
  · obtain ⟨m, hm, hfound⟩ := hfound t hphase
    exact ⟨m, List.mem_append_left _ hm, hfound⟩
  · exact ⟨_, List.mem_append_right _ List.mem_cons_self, hnew, hunpaid⟩

theorem holdings_of_overflows {phase : Phase} {outcome : phase.call.Outcome} {desk : Desk}
    (hsound : phase.Sound) (h : phase.Overflows settings desk outcome) :
    phase.holdings.fallback ≠ none ∧ phase.holdings.inputs ≠ [] := by
  cases phase with
  | choosing => exact ⟨by simp [Phase.holdings], hsound.1.outPoints_ne_nil⟩
  | splitting => exact ⟨by simp [Phase.holdings], hsound.1.1.outPoints_ne_nil⟩
  | _ => rcases outcome with _ | _ <;> cases h

theorem stands_of_answer {phase : Phase} (hsound : phase.Sound)
    (hholds : Holds log phase.holdings) (hfound : log.Found phase)
    (hcalm : ∀ m ∈ log, ¬m.Overflows settings) (now : Nat) (desk : Desk)
    (outcome : phase.call.Outcome) :
    Stands settings (Turn.answer settings now desk phase phase.holdings outcome).stage
      (log ++ [⟨.answer phase outcome, desk,
        .answer settings now desk phase phase.holdings outcome⟩]) := by
  rcases Move.acts_or_concludes now desk hsound outcome with hacts |
    ⟨a, t, d, payment, rfl, hconcludes⟩
  · refine stands_of_acts (m := ⟨.answer phase outcome, desk, _⟩) hholds hcalm
      phase.holdings_eq_none (holdings_of_overflows hsound) ?_ hacts
    exact fun next h => ⟨h.sound, found_of_follows hfound h⟩
  · exact stands_of_concludes hsound hholds hfound hcalm hconcludes

/-- At every stage the moves of a submission account for it. -/
theorem stands {stage : Stage} (h : Course settings stage log) : Stands settings stage log := by
  induction h with
  | arrive desk code request gone =>
      refine stands_of_acts (m := ⟨.arrival, desk, .arrive settings desk code request gone⟩)
        holds_nil (by simp) (fun _ => rfl) False.elim ?_
        (Move.acts_of_arrive settings desk code request gone)
      rintro next ⟨hsound, htarget⟩
      exact ⟨hsound, fun t ht => by simp [htarget] at ht⟩
  | move hcourse hmakes ih =>
      cases hmakes with
      | answer now desk phase holdings outcome =>
          cases ih with
          | waiting hsound hholds hfound hcalm =>
              exact stands_of_answer hsound hholds hfound hcalm now desk outcome
      | cancel desk phase holdings =>
          cases ih with
          | waiting hsound hholds hfound hcalm =>
              refine stands_of_acts (m := ⟨.cancellation, desk, .cancel desk phase.holdings⟩)
                hholds hcalm phase.holdings_eq_none False.elim ?_
                (Move.acts_of_cancel settings desk phase.holdings)
              rintro next ⟨hsound, htarget⟩
              exact ⟨hsound, fun t ht => by simp [htarget] at ht⟩
      | relay desk failure fallback outcome =>
          cases ih with
          | closing hholds haccepted hlocks hmodest hcalm =>
              refine .failed (honours_of_relay hholds haccepted hlocks hmodest desk outcome) ?_ ?_
              · rw [credits_append, credits_append, hholds.credits, hmodest.credit]
                rfl
              · exact forall_append hcalm id

theorem honours_of_ended {result : Except Failure Proposal}
    (h : Course settings (.ended result) log) : log.Honours result := by
  cases stands h with
  | failed honours _ _ => exact honours
  | @proposed a t d payment log m sound holds found calm concludes =>
      obtain ⟨now, hturn⟩ := concludes.turn
      have haccepted : accepted? (log ++ [m]) = some a.fallback := by
        rw [accepted?_append, holds.accepted, concludes.accepted?]
        rfl
      simp only [Honours, haccepted]
      refine ⟨?_, ?_, ?_⟩
      · rw [scheduled_append, holds.scheduled, hturn]
        rfl
      · rw [relayed_append, holds.relayed, concludes.relayed?]
        rfl
      · have hkeeps : m.Keeps := by
          simp [Move.Keeps, Move.after, hturn, Submission.recordedDesk]
        exact forall_append holds.keeps hkeeps

/-- A submission is cut off by amounts out of range, and by nothing else. -/
theorem cutOff_iff_overflows {stage : Stage} (h : Course settings stage log) :
    (∃ held, stage = .cutOff held) ↔ ∃ m ∈ log, m.Overflows settings := by
  have hcalm : (∀ held, stage ≠ .cutOff held) → (∀ m ∈ log, ¬m.Overflows settings) →
      ((∃ held, stage = .cutOff held) ↔ ∃ m ∈ log, m.Overflows settings) := by
    intro hstage hcalm
    constructor
    · rintro ⟨held, h⟩
      exact absurd h (hstage held)
    · rintro ⟨m, hm, hover⟩
      exact absurd hover (hcalm m hm)
  cases stands h with
  | waiting _ _ _ calm => exact hcalm (by simp) calm
  | closing _ _ _ _ calm => exact hcalm (by simp) calm
  | failed _ _ calm => exact hcalm (by simp) calm
  | proposed _ _ _ calm concludes =>
      exact hcalm (by simp) (forall_append calm concludes.not_overflows)
  | @cutOff held log m holds inputs overflows =>
      exact ⟨fun _ => ⟨m, by simp, overflows⟩, fun _ => ⟨held, rfl⟩⟩

theorem inputs_ne_nil_of_cutOff (h : Course settings (.cutOff held) log) : held.inputs ≠ [] := by
  cases stands h with
  | cutOff _ inputs _ => exact inputs

end Log

/-- Stages in the order in which they come. -/
def Stage.rank : Stage → ℕ ×ₗ ℕ ×ₗ ℕ ×ₗ ℕ
  | .waiting phase _ => toLex (2, phase.rank)
  | .closing .. => toLex (1, toLex (0, toLex (0, 0)))
  | .ended _ | .cutOff _ => toLex (0, toLex (0, toLex (0, 0)))

namespace Course

variable {settings : Settings} {stage : Stage} {log : Log} {m : Move}

theorem rank_lt_of_acts {phase : Phase} {held : Holdings}
    (hleads : ∀ next, m.cause.Leads next → next.rank < phase.rank)
    (h : m.Acts settings held) : m.turn.stage.rank < (Stage.waiting phase held).rank := by
  cases h with
  | waits next stage leads grants holds modest calm =>
      rw [stage]
      simpa [Stage.rank, Prod.Lex.toLex_lt_toLex] using hleads _ leads
  | fails failure stage locks modest calm =>
      rw [stage]
      cases m.accepted?.or held.fallback <;> simp [Stage.rank, Prod.Lex.toLex_lt_toLex]
  | stops stage grants modest overflows =>
      rw [stage]
      simp [Stage.rank, Prod.Lex.toLex_lt_toLex]

theorem rank_lt (h : Course settings stage log) (hm : Makes settings stage m) :
    m.turn.stage.rank < stage.rank := by
  cases hm with
  | answer now desk phase holdings outcome =>
      cases Log.stands h with
      | waiting sound holds found calm =>
          rcases Move.acts_or_concludes now desk sound outcome with hacts |
            ⟨a, t, d, payment, rfl, hconcludes⟩
          · exact rank_lt_of_acts (fun next h => h.rank_lt) hacts
          · rw [hconcludes.stage]
            simp [Stage.rank, Prod.Lex.toLex_lt_toLex]
  | cancel desk phase holdings =>
      change (holdings.fallback.elim _ _ : Stage).rank < _
      cases holdings.fallback <;> simp [Stage.rank, Prod.Lex.toLex_lt_toLex]
  | relay desk failure fallback outcome =>
      simp [Turn.close, Stage.rank, Prod.Lex.toLex_lt_toLex]

/-- A move of a submission that waits for a call of its own, or that hands out a
proposal, or that relays a fallback. -/
theorem makes_cases (h : Course settings stage log) (hm : Makes settings stage m) :
    (∃ phase : Phase, stage = .waiting phase phase.holdings ∧ m.Acts settings phase.holdings) ∨
    (∃ a t d payment, stage = .waiting (.paying a t d payment)
        (Phase.paying a t d payment).holdings ∧ m.Concludes a t d payment) ∨
    ∃ failure fallback, stage = .closing failure fallback ∧ m.credit? = none ∧
      m.turn = .close m.before failure := by
  cases hm with
  | answer now desk phase held outcome =>
      cases Log.stands h with
      | waiting sound holds found calm =>
          rcases Move.acts_or_concludes now desk sound outcome with hacts |
            ⟨a, t, d, payment, rfl, hconcludes⟩
          · exact .inl ⟨phase, rfl, hacts⟩
          · exact .inr (.inl ⟨a, t, d, payment, rfl, hconcludes⟩)
  | cancel desk phase held =>
      cases Log.stands h with
      | waiting sound holds found calm =>
          exact .inl ⟨phase, rfl, Move.acts_of_cancel settings desk phase.holdings⟩
  | relay desk failure fallback outcome => exact .inr (.inr ⟨failure, fallback, rfl, rfl, rfl⟩)

/-- One stage comes after another one in the course of a submission. -/
def Succeeds (settings : Settings) (next stage : Stage) : Prop :=
  ∃ log m, Course settings stage log ∧ Makes settings stage m ∧ next = m.turn.stage

/-- No submission goes on forever. -/
theorem wellFounded_succeeds (settings : Settings) : WellFounded (Succeeds settings) := by
  apply Subrelation.wf _ (InvImage.wf Stage.rank wellFounded_lt)
  rintro next stage ⟨log, m, hcourse, hm, rfl⟩
  exact hcourse.rank_lt hm

theorem ended_or_cutOff (h : ∀ m, ¬Makes settings stage m) :
    (∃ result, stage = .ended result) ∨ ∃ held, stage = .cutOff held := by
  cases stage with
  | waiting phase held => exact absurd (.cancel ⟨.empty, [], []⟩ phase held) (h _)
  | closing failure fallback =>
      exact absurd (.relay ⟨.empty, [], []⟩ failure fallback (.error "")) (h _)
  | ended result => exact .inl ⟨result, rfl⟩
  | cutOff held => exact .inr ⟨held, rfl⟩

/-- A submission that cannot go on has done what a sender may count on, exactly if
no amounts were out of range. -/
theorem honours_iff (hcourse : Course settings stage log) (h : ∀ m, ¬Makes settings stage m) :
    (∃ result, stage = .ended result ∧ log.Honours result) ↔
      ∀ m ∈ log, ¬m.Overflows settings := by
  have hover := Log.cutOff_iff_overflows hcourse
  rcases ended_or_cutOff h with ⟨result, rfl⟩ | ⟨held, rfl⟩
  · refine ⟨fun _ m hm hm' => ?_, fun _ => ⟨result, rfl, Log.honours_of_ended hcourse⟩⟩
    obtain ⟨held, h⟩ := hover.mpr ⟨m, hm, hm'⟩
    cases h
  · obtain ⟨m, hm, hm'⟩ := hover.mp ⟨held, rfl⟩
    constructor
    · rintro ⟨result, h, -⟩
      cases h
    · intro hcalm
      exact absurd hm' (hcalm m hm)

end Course

end Paydesk.Payjoin

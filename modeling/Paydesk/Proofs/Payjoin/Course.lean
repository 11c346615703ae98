import Paydesk.Payjoin.Turn
import Paydesk.Proofs.Payjoin.Submission

/-!
The course of one submission, from its request to its end, while anything may
happen to the desk between its moves.
-/

namespace Paydesk.Payjoin

open Chain Invoices

/-- The proposal that was handed out. -/
def Stage.reply? : Stage → Option Proposal
  | .ended (.ok proposal) => some proposal
  | _ => none

/-- Why a submission goes on. -/
inductive Cause
  | arrival
  | answer (phase : Phase) (outcome : phase.call.Outcome)
  | cancellation
  | relay (fallback : Transaction) (outcome : Except String BroadcastResult)

/-- What a submission does without interruption: it finds a desk and leaves another. -/
structure Move where
  cause : Cause
  before : Desk
  turn : Turn

namespace Move

def after (m : Move) : Desk := m.turn.desk

def accepted? (m : Move) : Option Transaction :=
  match m.cause with
  | .answer phase outcome => phase.accepted? outcome
  | _ => none

def found? (m : Move) : Option Target :=
  match m.cause with
  | .answer phase outcome => phase.found? outcome
  | _ => none

def relayed? (m : Move) : Option Transaction :=
  match m.cause with
  | .relay fallback _ => some fallback
  | _ => none

/-- The payment that is taken down, with its invoice. -/
def credit? (m : Move) : Option (String × Payment) :=
  match m.cause with
  | .answer (.paying _ t _ payment) (.ok (some _)) => some (t.invoice, payment)
  | _ => none

def Overflows (settings : Settings) (m : Move) : Prop :=
  match m.cause with
  | .answer phase outcome => phase.Overflows settings m.before outcome
  | _ => False

/-- The inputs that are locked by a move. -/
def inputs (m : Move) : List OutPoint :=
  m.after.locks.inputs.filter (!m.before.locks.inputs.contains ·)

/-- The coins that are locked by a move. -/
def coins (m : Move) : List OutPoint :=
  m.after.locks.coins.filter (!m.before.locks.coins.contains ·)

/-- What was locked is locked still. -/
def Keeps (m : Move) : Prop :=
  m.before.locks.inputs ⊆ m.after.locks.inputs ∧ m.before.locks.coins ⊆ m.after.locks.coins

/-- Locks and records stay as they are. -/
def Rests (m : Move) : Prop :=
  m.after.locks = m.before.locks ∧ m.after.wallets = m.before.wallets

end Move

/-- The moves that can be made at a stage. -/
inductive Makes (settings : Settings) : Stage → Move → Prop
  | answer (now : Nat) (desk : Desk) (phase : Phase) (holdings : Holdings)
      (outcome : phase.call.Outcome) :
      Makes settings (.waiting phase holdings)
        ⟨.answer phase outcome, desk, .answer settings now desk phase holdings outcome⟩
  | cancel (desk : Desk) (phase : Phase) (holdings : Holdings) :
      Makes settings (.waiting phase holdings) ⟨.cancellation, desk, .cancel desk holdings⟩
  | relay (desk : Desk) (failure : Failure) (fallback : Transaction)
      (outcome : Except String BroadcastResult) :
      Makes settings (.closing failure fallback)
        ⟨.relay fallback outcome, desk, .close desk failure⟩

/-- How a submission comes to a stage, by some moves. Whatever else happens, the
desk of a move need not be the one that the move before it left. -/
inductive Course (settings : Settings) : Stage → List Move → Prop
  | arrive (desk : Desk) (code : String) (request : Except RequestError Request) (gone : Bool) :
      Course settings (Turn.arrive settings desk code request gone).stage
        [⟨.arrival, desk, .arrive settings desk code request gone⟩]
  | move {stage : Stage} {moves : List Move} {m : Move} :
      Course settings stage moves → Makes settings stage m →
        Course settings m.turn.stage (moves ++ [m])

/-- Whether a phase can come next, for some cause. -/
def Cause.Leads (cause : Cause) (next : Phase) : Prop :=
  match cause with
  | .answer phase outcome => phase.Follows outcome next
  | _ => next.Sound ∧ next.target? = none

namespace Move

/-- A move that neither hands out a proposal nor relays a fallback, and leaves the
records as they are. A wallet is not asked for before there is a fallback. -/
structure Modest (fallback? : Option Transaction) (m : Move) : Prop where
  later : m.turn.later = none
  relayed : m.relayed? = none
  credit : m.credit? = none
  wallets : m.after.wallets = m.before.wallets ∨ fallback? ≠ none ∧
    ∃ wallet, m.after.wallets = m.before.wallets.touch wallet

/-- What a move does at a stage where something is held, unless it hands a proposal
out. Either it takes some locks and waits again, or it fails and gives back what
is held, or amounts out of range cut it off. -/
inductive Acts (settings : Settings) (held : Holdings) (m : Move) : Prop
  | waits (next : Phase) {inputs coins : List OutPoint}
      (stage : m.turn.stage = .waiting next next.holdings)
      (leads : m.cause.Leads next)
      (grants : Locks.Grants m.before.locks m.after.locks inputs coins)
      (holds : next.holdings =
        ⟨held.inputs ++ inputs, held.coins ++ coins, m.accepted?.or held.fallback⟩)
      (modest : m.Modest (m.accepted?.or held.fallback))
      (calm : ¬m.Overflows settings)
  | fails (failure : Failure)
      (stage : m.turn.stage = (m.accepted?.or held.fallback).elim (.ended (.error failure))
        (.closing failure))
      (locks : m.after.locks =
        (m.before.locks.unlockInputs held.inputs).unlockCoins held.coins)
      (modest : m.Modest (m.accepted?.or held.fallback))
      (calm : ¬m.Overflows settings)
  | stops {inputs coins : List OutPoint}
      (stage : m.turn.stage =
        .cutOff ⟨held.inputs ++ inputs, held.coins ++ coins, m.accepted?.or held.fallback⟩)
      (grants : Locks.Grants m.before.locks m.after.locks inputs coins)
      (modest : m.Modest (m.accepted?.or held.fallback))
      (overflows : m.Overflows settings)

/-- A payment is taken down, and the proposal that it stands for is handed out. -/
structure Concludes (a : Accepted) (t : Target) (d : Draft) (payment : Payment) (m : Move) :
    Prop where
  cause : ∃ recorded, m.cause = .answer (.paying a t d payment) (.ok (some recorded))
  turn : ∃ now, m.turn = ⟨.ended (.ok (Submission.proposalOf a t d)),
    Submission.recordedDesk a t d now m.before, some a.fallback⟩

variable {settings : Settings} {held : Holdings} {m : Move}

theorem Acts.modest (h : m.Acts settings held) : m.Modest (m.accepted?.or held.fallback) := by
  cases h with
  | waits _ _ _ _ _ modest => exact modest
  | fails _ _ _ modest => exact modest
  | stops _ _ modest => exact modest

namespace Concludes

variable {a : Accepted} {t : Target} {d : Draft} {payment : Payment}

theorem credit? (h : m.Concludes a t d payment) : m.credit? = some (t.invoice, payment) := by
  obtain ⟨recorded, hcause⟩ := h.cause
  rw [Move.credit?, hcause]

theorem accepted? (h : m.Concludes a t d payment) : m.accepted? = none := by
  obtain ⟨recorded, hcause⟩ := h.cause
  rw [Move.accepted?, hcause]
  rfl

theorem relayed? (h : m.Concludes a t d payment) : m.relayed? = none := by
  obtain ⟨recorded, hcause⟩ := h.cause
  rw [Move.relayed?, hcause]

theorem stage (h : m.Concludes a t d payment) :
    m.turn.stage = .ended (.ok (Submission.proposalOf a t d)) := by
  obtain ⟨now, hturn⟩ := h.turn
  rw [hturn]

theorem not_overflows (h : m.Concludes a t d payment) : ¬m.Overflows settings := by
  obtain ⟨recorded, hcause⟩ := h.cause
  rw [Overflows, hcause]
  exact id

end Concludes

theorem acts_of_advances {r : Step × Session} (hturn : m.turn = .of r.2 r.1)
    (hrelayed : m.relayed? = none) (hcredit : m.credit? = none)
    (h : Submission.Advances (Submission.noted m.accepted? ⟨m.before, held⟩) r
      (m.Overflows settings) m.cause.Leads) : Acts settings held m := by
  obtain ⟨step, session⟩ := r
  obtain ⟨⟨⟨inputs, coins, hgrants, hholdings⟩, hwallets⟩, hwait, hover, hunfinished⟩ := h
  have hafter : ∀ {stage later}, Turn.of session step = ⟨stage, session.desk, later⟩ →
      m.after = session.desk := by
    rintro stage later h
    rw [after, hturn, h]
  cases step with
  | wait next =>
      obtain ⟨hleads, hnext⟩ := hwait next rfl
      have hdesk : m.after = session.desk := hafter rfl
      have hmodest : m.Modest (m.accepted?.or held.fallback) :=
        ⟨by rw [hturn]; rfl, hrelayed, hcredit, hdesk ▸ hwallets⟩
      refine .waits next ?_ hleads (hdesk ▸ hgrants) (hnext.trans hholdings) hmodest ?_
      · rw [hturn, hnext]
        rfl
      · rw [← hover]
        simp
  | failed failure =>
      have hdesk : m.after = (Submission.release session.desk session.holdings).1 := by
        rw [after, hturn]
        rfl
      have hmodest : m.Modest (m.accepted?.or held.fallback) :=
        ⟨by rw [hturn]; rfl, hrelayed, hcredit, hdesk ▸ hwallets⟩
      refine .fails failure ?_ ?_ hmodest ?_
      · have hfallback : session.holdings.fallback = (m.accepted?.or held.fallback) :=
          congrArg Holdings.fallback hholdings
        rw [hturn, ← hfallback]
        rfl
      · rw [hdesk, Submission.release, hholdings]
        exact hgrants.unlock
      · rw [← hover]
        simp
  | overflow =>
      have hdesk : m.after = session.desk := hafter rfl
      have hmodest : m.Modest (m.accepted?.or held.fallback) :=
        ⟨by rw [hturn]; rfl, hrelayed, hcredit, hdesk ▸ hwallets⟩
      refine .stops ?_ (hdesk ▸ hgrants) hmodest (hover.mp rfl)
      rw [hturn, Turn.of, hholdings]
      rfl
  | finished proposal fallback => exact absurd rfl (hunfinished proposal fallback)

theorem acts_of_cancel (settings : Settings) (desk : Desk) (held : Holdings) :
    Acts settings held ⟨.cancellation, desk, .cancel desk held⟩ :=
  acts_of_advances (r := (.failed Submission.cancelled, ⟨desk, held⟩)) rfl rfl rfl
    (Submission.Advances.failed_still _ _)

theorem credit?_of_not_pays {phase : Phase} {outcome : phase.call.Outcome}
    (h : ¬phase.Pays outcome) (desk : Desk) (turn : Turn) :
    credit? ⟨.answer phase outcome, desk, turn⟩ = none := by
  cases phase with
  | paying a t d payment =>
      rcases outcome with message | _ | recorded
      · rfl
      · rfl
      · exact absurd trivial h
  | _ => rfl

theorem concludes_of_pays (settings : Settings) (now : Nat) (desk : Desk) {phase : Phase}
    {outcome : phase.call.Outcome} (h : phase.Pays outcome) :
    ∃ a t d payment, phase = .paying a t d payment ∧
      Concludes a t d payment ⟨.answer phase outcome, desk,
        .answer settings now desk phase phase.holdings outcome⟩ := by
  cases phase with
  | paying a t d payment =>
      rcases outcome with message | _ | recorded
      · cases h
      · cases h
      · refine ⟨a, t, d, payment, rfl, ⟨recorded, rfl⟩, now, ?_⟩
        simp only [Turn.answer, Submission.resume_paying]
        rfl
  | _ => cases h

/-- What a submission does once its call is answered. -/
theorem acts_or_concludes (now : Nat) (desk : Desk) {phase : Phase} (hsound : phase.Sound)
    (outcome : phase.call.Outcome) :
    Acts settings phase.holdings ⟨.answer phase outcome, desk,
        .answer settings now desk phase phase.holdings outcome⟩ ∨
      ∃ a t d payment, phase = .paying a t d payment ∧
        Concludes a t d payment ⟨.answer phase outcome, desk,
          .answer settings now desk phase phase.holdings outcome⟩ := by
  by_cases hpays : phase.Pays outcome
  · exact .inr (concludes_of_pays settings now desk hpays)
  · left
    refine acts_of_advances
      (r := (Submission.resume settings now phase outcome).run ⟨desk, phase.holdings⟩) rfl rfl
      (credit?_of_not_pays hpays _ _) ?_
    exact Submission.resume_advances now hsound rfl hpays

theorem acts_of_arrive (settings : Settings) (desk : Desk) (code : String)
    (request : Except RequestError Request) (gone : Bool) :
    Acts settings .none ⟨.arrival, desk, .arrive settings desk code request gone⟩ := by
  have hfailed : ∀ failure, Acts settings .none
      ⟨.arrival, desk, ⟨.ended (.error failure), desk, none⟩⟩ := fun failure =>
    .fails failure rfl (Locks.unlock_empty desk.locks).symm
      ⟨rfl, rfl, rfl, .inl rfl⟩ id
  cases request with
  | error e => exact hfailed _
  | ok request =>
      cases gone with
      | true => exact hfailed _
      | false =>
          refine acts_of_advances (r := (Submission.start settings code request, ⟨desk, .none⟩))
            rfl rfl rfl ?_
          exact Submission.start_advances desk code request

end Move

end Paydesk.Payjoin

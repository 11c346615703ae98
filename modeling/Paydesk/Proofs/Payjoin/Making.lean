import Paydesk.Proofs.Payjoin.Credits
import Paydesk.Proofs.Payjoin.Overlaps

/-!
What lies behind a proposal: the request, the coin, the change script and the
draft, as the moves of the submission tell them.
-/

namespace Paydesk.Payjoin

open Chain Wallet Invoices

namespace Phase

/-- Where a phase leads with what came back, unless that ends the submission. -/
def Resumes (settings : Settings) (desk : Desk) :
    (phase : Phase) → phase.call.Outcome → Phase → Prop
  | .fetching tx format params, .ok (previous : List (Option TxOut)), next =>
      ∃ a, a.Sound ∧ a.psbt = Submission.psbtOf tx previous ∧ a.format = format ∧
        a.params = params ∧ next = .probing a
  | .probing a, .ok _, next => Submission.Searches settings a 0 next
  | .searching a _ index _, .ok (invoices : List String), next =>
      Submission.Reads settings a index invoices next
  | .reading a _ index invoice others, .ok (method : Option PaymentMethod), next =>
      Submission.Reads settings a index others next ∨
        ∃ m, method = some m ∧ Submission.Engages a ⟨invoice, index, m⟩ next
  | .choosing a t exposed, .ok (coins : List Coin), next =>
      ∃ coin locks, Submission.picked? settings a t exposed coins desk.locks = some (coin, locks) ∧
        (a.fallback.outputs.length = 1 ∧ next = .splitting a t coin ∨
          a.fallback.outputs.length ≠ 1 ∧
            ∃ d priced c, Submission.Prices settings a t coin none desk.words d priced c ∧
              next = .signing a t priced c.receiver)
  | .splitting a t coin, .ok (script : Script), next =>
      ∃ d priced c, Submission.Prices settings a t coin (some script) desk.words d priced c ∧
        next = .signing a t priced c.receiver
  | .signing a t d receiverFee, .ok (account : Option Keys.ExtendedKey), next =>
      ∃ key d', account = some key ∧
        Signing.sign d key t.method.account.scriptType (Signing.choiceLike a.psbt) = .ok d' ∧
        next = .paying a t d' (Submission.paymentOf a t d' receiverFee)
  | _, _, _ => False

end Phase

namespace Submission

variable {settings : Settings} {a : Accepted} {t : Target} {s : Session}

theorem accepted_of_examine {psbt : Psbt} {format : BodyFormat} {params : Params} {next : Phase}
    (h : examine psbt format params = .wait next) :
    ∃ a : Accepted, a.Sound ∧ a.psbt = psbt ∧ a.format = format ∧ a.params = params ∧
      next = .probing a := by
  rcases examine_eq_wait psbt format params with ⟨a, ha, hpsbt, hformat, hparams, hwait⟩ |
    ⟨failure, hfailed⟩
  · exact ⟨a, ha, hpsbt, hformat, hparams, Step.wait.inj (h.symm.trans hwait)⟩
  · rw [hfailed] at h
    cases h

theorem resumes_probing {desk : Desk} {result : BroadcastResult} (now : Nat) {next : Phase}
    (h : ((resume settings now (.probing a) (.ok result)).run s).1 = .wait next) :
    (Phase.probing a).Resumes settings desk (.ok result) next := by
  cases haccepted : result.accepted with
  | false => simp [resume, haccepted, reject] at h
  | true =>
      simp only [resume, haccepted, if_true] at h
      exact ((search_advances (s := ⟨desk, ⟨[], [], some a.fallback⟩⟩) rfl 0).wait next h).1

theorem resumes_choosing {exposed : List OutPoint} {coins : List Coin} {next : Phase}
    (h : ((choose settings a t exposed coins).run s).1 = .wait next) :
    (Phase.choosing a t exposed).Resumes settings s.desk (.ok coins) next := by
  cases hpicked : picked? settings a t exposed coins s.desk.locks with
  | none =>
      rw [choose_of_none hpicked] at h
      cases h
  | some picked =>
      obtain ⟨coin, locks⟩ := picked
      refine ⟨coin, locks, hpicked, ?_⟩
      by_cases hlone : a.fallback.outputs.length = 1
      · rw [choose_of_split hpicked hlone] at h
        exact .inl ⟨hlone, (Step.wait.inj h).symm⟩
      · rw [choose_of_draft hpicked hlone, draft_run] at h
        exact .inr ⟨hlone, prices_of_drafted h⟩

theorem resumes_signing {desk : Desk} {d : Draft} {receiverFee : Nat} {key : Keys.ExtendedKey}
    {next : Phase} (h : signDraft a t d receiverFee key = .wait next) :
    (Phase.signing a t d receiverFee).Resumes settings desk (.ok (some key)) next := by
  rw [signDraft] at h
  split at h
  · cases h
  · rename_i d' hsign
    exact ⟨key, d', rfl, hsign, (Step.wait.inj h).symm⟩

theorem resumes_of_wait (now : Nat) {phase : Phase} {desk : Desk} {outcome : phase.call.Outcome}
    {next : Phase}
    (h : ((resume settings now phase outcome).run ⟨desk, phase.holdings⟩).1 = .wait next) :
    phase.Resumes settings desk outcome next := by
  cases outcome with
  | error message =>
      rw [resume_error] at h
      cases h
  | ok answer =>
      cases phase with
      | fetching tx format params => exact accepted_of_examine h
      | probing a => exact resumes_probing now h
      | searching a code index script =>
          exact ((searchAmong_advances (s := ⟨desk, _⟩) rfl index answer).wait next h).1
      | reading a code index invoice others =>
          cases answer with
          | none =>
              exact .inl ((searchAmong_advances (s := ⟨desk, _⟩) rfl index others).wait next h).1
          | some method =>
              rcases ((consider_advances (s := ⟨desk, _⟩) rfl).wait next h).1 with hreads | hengages
              · exact .inl hreads
              · exact .inr ⟨method, rfl, hengages⟩
      | choosing a t exposed => exact resumes_choosing h
      | splitting a t coin =>
          change ((draft settings a t coin (some answer)).run _).1 = _ at h
          rw [draft_run] at h
          exact prices_of_drafted h
      | signing a t d receiverFee =>
          cases answer with
          | none => cases h
          | some key => exact resumes_signing h
      | paying a t d payment =>
          cases answer with
          | none => cases h
          | some recorded =>
              rw [resume_paying] at h
              cases h

end Submission

namespace Log

/-- The call of a phase was answered. -/
def Answered (log : Log) (phase : Phase) (outcome : phase.call.Outcome) : Prop :=
  ∃ m ∈ log, m.cause = .answer phase outcome

/-- The request that a submission begins with. -/
def BeginsWith (settings : Settings) (log : Log) (request : Request) : Prop :=
  ∃ desk code later,
    log = ⟨.arrival, desk, .arrive settings desk code (.ok request) false⟩ :: later

/-- A fallback is that of the request. What a raw transaction spends is what the chain
said. -/
structure Accepts (settings : Settings) (log : Log) (request : Request) (a : Accepted) : Prop where
  begins : log.BeginsWith settings request
  sound : a.Sound
  format : a.format = request.format
  params : a.params = request.params
  payload : request.payload = .psbt a.psbt ∨
    ∃ (tx : Transaction) (previous : List (Option TxOut)), request.payload = .transaction tx ∧
      log.Answered (.fetching tx request.format request.params) (.ok previous) ∧
      a.psbt = Submission.psbtOf tx previous

/-- A coin was listed by the wallet, and it is none of the sender's. -/
structure Picks (log : Log) (a : Accepted) (t : Target) (coin : Coin) : Prop where
  listed : ∃ (exposed : List OutPoint) (coins : List Coin),
    log.Answered (.choosing a t exposed) (.ok coins) ∧ coin ∈ coins
  fresh : coin.outPoint ∉ a.fallback.outPoints

/-- A coin was drafted, with a change script only if the wallet gave it. -/
structure Drafts (settings : Settings) (log : Log) (a : Accepted) (t : Target) (coin : Coin)
    (change : Option Script) (drafted priced : Draft) (c : Draft.FeeContribution) : Prop where
  picks : log.Picks a t coin
  changes : ∀ script : Script, change = some script →
    log.Answered (.splitting a t coin) (.ok script)
  prices : ∃ words, Submission.Prices settings a t coin change words drafted priced c

section Append

variable {settings : Settings} {log : Log} {request : Request} {a : Accepted} {t : Target}
  {coin : Coin} {change : Option Script} {drafted priced : Draft} {c : Draft.FeeContribution}

theorem Answered.append {phase : Phase} {outcome : phase.call.Outcome}
    (h : log.Answered phase outcome) (m : Move) : Answered (log ++ [m]) phase outcome := by
  obtain ⟨m', hm', hcause⟩ := h
  exact ⟨m', List.mem_append_left _ hm', hcause⟩

theorem answered_last {phase : Phase} {outcome : phase.call.Outcome} {m : Move}
    (h : m.cause = .answer phase outcome) : Answered (log ++ [m]) phase outcome :=
  ⟨m, List.mem_append_right _ List.mem_cons_self, h⟩

theorem BeginsWith.append (h : log.BeginsWith settings request) (m : Move) :
    BeginsWith settings (log ++ [m]) request := by
  obtain ⟨desk, code, later, rfl⟩ := h
  exact ⟨desk, code, later ++ [m], rfl⟩

theorem Accepts.append (h : log.Accepts settings request a) (m : Move) :
    Accepts settings (log ++ [m]) request a :=
  { h with
    begins := h.begins.append m
    payload := h.payload.imp_right fun ⟨tx, previous, hpayload, hanswered, hpsbt⟩ =>
      ⟨tx, previous, hpayload, hanswered.append m, hpsbt⟩ }

theorem Picks.append (h : log.Picks a t coin) (m : Move) : Picks (log ++ [m]) a t coin := by
  obtain ⟨exposed, coins, hanswered, hmem⟩ := h.listed
  exact ⟨⟨exposed, coins, hanswered.append m, hmem⟩, h.fresh⟩

theorem Drafts.append (h : log.Drafts settings a t coin change drafted priced c) (m : Move) :
    Drafts settings (log ++ [m]) a t coin change drafted priced c :=
  ⟨h.picks.append m, fun script hscript => (h.changes script hscript).append m, h.prices⟩

end Append

end Log

/-- What has come before a phase. -/
def Phase.Made (settings : Settings) (log : Log) : Phase → Prop
  | .fetching tx format params => log.BeginsWith settings ⟨.transaction tx, format, params⟩
  | .probing a | .searching a .. | .reading a .. | .choosing a .. =>
      ∃ request, log.Accepts settings request a
  | .splitting a t coin => (∃ request, log.Accepts settings request a) ∧ log.Picks a t coin
  | .signing a t d receiverFee => (∃ request, log.Accepts settings request a) ∧
      ∃ coin change drafted c, log.Drafts settings a t coin change drafted d c ∧
        receiverFee = c.receiver
  | .paying a t d payment => (∃ request, log.Accepts settings request a) ∧
      ∃ coin change drafted priced c key, log.Drafts settings a t coin change drafted priced c ∧
        Signing.sign priced key t.method.account.scriptType (Signing.choiceLike a.psbt) = .ok d ∧
        payment = Submission.paymentOf a t d c.receiver

namespace Phase

variable {settings : Settings} {log : Log} {a : Accepted} {request : Request}

theorem made_of_searches {index : Nat} {next : Phase} (ha : log.Accepts settings request a)
    (h : Submission.Searches settings a index next) : next.Made settings log := by
  obtain ⟨output, -, rfl⟩ := h
  exact ⟨request, ha⟩

theorem made_of_reads {index : Nat} {invoices : List String} {next : Phase}
    (ha : log.Accepts settings request a) (h : Submission.Reads settings a index invoices next) :
    next.Made settings log := by
  rcases h with ⟨invoice, others, -, rfl⟩ | h
  · exact ⟨request, ha⟩
  · exact made_of_searches ha h

/-- What has come before a phase and what comes back now is what has come before the
next one. -/
theorem Made.resumes {phase next : Phase} {desk : Desk} {outcome : phase.call.Outcome} {m : Move}
    (hmade : phase.Made settings log) (h : phase.Resumes settings desk outcome next)
    (hm : m.cause = .answer phase outcome) : next.Made settings (log ++ [m]) := by
  cases outcome with
  | error message => cases phase <;> cases h
  | ok answer =>
      cases phase with
      | fetching tx format params =>
          obtain ⟨a, ha, hpsbt, rfl, rfl, rfl⟩ := h
          exact ⟨⟨.transaction tx, a.format, a.params⟩, hmade.append m, ha, rfl, rfl,
            .inr ⟨tx, answer, rfl, Log.answered_last hm, hpsbt⟩⟩
      | probing a =>
          obtain ⟨request, ha⟩ := hmade
          exact made_of_searches (ha.append m) h
      | searching a code index script =>
          obtain ⟨request, ha⟩ := hmade
          exact made_of_reads (ha.append m) h
      | reading a code index invoice others =>
          obtain ⟨request, ha⟩ := hmade
          rcases h with hreads | ⟨method, -, -, exposed, rfl⟩
          · exact made_of_reads (ha.append m) hreads
          · exact ⟨request, ha.append m⟩
      | choosing a t exposed =>
          obtain ⟨request, ha⟩ := hmade
          obtain ⟨coin, locks, hpicked, hnext⟩ := h
          obtain ⟨hmem, hfresh, -, -⟩ := Submission.picked?_eq_some hpicked
          have hpicks : Log.Picks (log ++ [m]) a t coin :=
            ⟨⟨exposed, answer, Log.answered_last hm, hmem⟩, hfresh⟩
          rcases hnext with ⟨-, rfl⟩ | ⟨-, d, priced, c, hprices, rfl⟩
          · exact ⟨⟨request, ha.append m⟩, hpicks⟩
          · exact ⟨⟨request, ha.append m⟩, coin, none, d, c,
              ⟨hpicks, nofun, _, hprices⟩, rfl⟩
      | splitting a t coin =>
          obtain ⟨⟨request, ha⟩, hpicks⟩ := hmade
          obtain ⟨d, priced, c, hprices, rfl⟩ := h
          refine ⟨⟨request, ha.append m⟩, coin, some answer, d, c,
            ⟨hpicks.append m, ?_, _, hprices⟩, rfl⟩
          rintro script hscript
          obtain rfl := Option.some.inj hscript
          exact Log.answered_last hm
      | signing a t d receiverFee =>
          obtain ⟨⟨request, ha⟩, coin, change, drafted, c, hdrafts, rfl⟩ := hmade
          obtain ⟨key, d', -, hsign, rfl⟩ := h
          exact ⟨⟨request, ha.append m⟩, coin, change, drafted, d, c, key, hdrafts.append m, hsign,
            rfl⟩
      | paying a t d payment => cases h

theorem made_of_start {code : String} {desk : Desk} {next : Phase}
    (h : Submission.start settings code request = .wait next) :
    next.Made settings [⟨.arrival, desk, .arrive settings desk code (.ok request) false⟩] := by
  have hbegins : Log.BeginsWith settings
      [⟨.arrival, desk, .arrive settings desk code (.ok request) false⟩] request :=
    ⟨desk, code, [], rfl⟩
  rw [Submission.start] at h
  split at h
  · cases h
  · split at h
    · rename_i psbt hpayload
      split at h
      · obtain ⟨a, ha, rfl, hformat, hparams, rfl⟩ := Submission.accepted_of_examine h
        exact ⟨request, hbegins, ha, hformat, hparams, .inl hpayload⟩
      · cases h
    · rename_i tx hpayload
      obtain rfl := Step.wait.inj h
      rw [Made, ← hpayload]
      exact hbegins

end Phase

theorem Turn.wait_of_stage {s : Session} {step : Step} {next : Phase} {held : Holdings}
    (h : (Turn.of s step).stage = .waiting next held) : step = .wait next := by
  cases step with
  | wait phase => exact congrArg Step.wait (Stage.waiting.inj h).1
  | failed failure =>
      change s.holdings.fallback.elim _ _ = _ at h
      cases hfallback : s.holdings.fallback <;> simp [hfallback] at h
  | finished => cases h
  | overflow => cases h

/-- At every stage the moves tell what has come before. -/
theorem Course.made {settings : Settings} {stage : Stage} {log : Log}
    (h : Course settings stage log) {phase : Phase} {held : Holdings}
    (hstage : stage = .waiting phase held) : phase.Made settings log := by
  induction h generalizing phase held with
  | arrive desk code request gone =>
      cases request with
      | error e => cases hstage
      | ok request =>
          cases gone with
          | true => cases hstage
          | false => exact Phase.made_of_start (Turn.wait_of_stage hstage)
  | move hcourse hmakes ih =>
      cases hmakes with
      | answer now desk earlier holdings outcome =>
          cases Log.stands hcourse with
          | waiting =>
              have hwait := Turn.wait_of_stage hstage
              exact (ih rfl).resumes (Submission.resumes_of_wait now hwait) rfl
      | cancel desk earlier holdings =>
          have hwait : Step.failed Submission.cancelled = .wait phase := Turn.wait_of_stage hstage
          cases hwait
      | relay => cases hstage

/-- A proposal with all that it was made of. -/
structure Making (settings : Settings) (log : Log) where
  request : Request
  accepted : Accepted
  target : Target
  coin : Coin
  change : Option Script
  drafted : Draft
  priced : Draft
  contribution : Draft.FeeContribution
  key : Keys.ExtendedKey
  signed : Draft
  accepts : log.Accepts settings request accepted
  pays : target.Sound accepted
  drafts : log.Drafts settings accepted target coin change drafted priced contribution
  signs : Signing.sign priced key target.method.account.scriptType
    (Signing.choiceLike accepted.psbt) = .ok signed

namespace Making

variable {settings : Settings} {log : Log}

def proposal (m : Making settings log) : Proposal :=
  Submission.proposalOf m.accepted m.target m.signed

def append (m : Making settings log) (move : Move) : Making settings (log ++ [move]) :=
  { m with
    accepts := m.accepts.append move
    drafts := m.drafts.append move }

theorem exists_of_paying {a : Accepted} {t : Target} {d : Draft} {payment : Payment}
    {held : Holdings} (h : Course settings (.waiting (.paying a t d payment) held) log) :
    ∃ m : Making settings log, m.accepted = a ∧ m.target = t ∧ m.signed = d := by
  obtain ⟨⟨request, ha⟩, coin, change, drafted, priced, c, key, hdrafts, hsign, -⟩ := h.made rfl
  cases Log.stands h with
  | waiting sound =>
      exact ⟨⟨request, a, t, coin, change, drafted, priced, c, key, d, ha, sound.1.2, hdrafts,
        hsign⟩, rfl, rfl, rfl⟩

/-- No draft has two outputs of one role, from the first one that is made to the one that is
signed. -/
theorem labelled (m : Making settings log) :
    m.drafted.Labelled ∧ m.priced.Labelled ∧ m.signed.Labelled := by
  obtain ⟨words, hprices⟩ := m.drafts.prices
  obtain ⟨words', hcontribute⟩ := hprices.contribute
  have hdrafted := Draft.contribute_labelled hcontribute
  have hpriced := (Draft.preserveFeeRate_settles hdrafted hprices.preserve).labelled
  exact ⟨hdrafted, hpriced, hpriced.sign m.signs⟩

/-- Every proposal is made in this way, of what the chain accepted. It is what a payment
is taken down for. -/
theorem exists_credited {proposal : Proposal} (h : Course settings (.ended (.ok proposal)) log) :
    ∃ (m : Making settings log) (receiverFee : Nat), proposal = m.proposal ∧
      log.accepted? = some m.accepted.fallback ∧
      log.credits = [(m.target.invoice,
        Submission.paymentOf m.accepted m.target m.signed receiverFee)] := by
  obtain ⟨stage, hstage⟩ : ∃ stage, stage = Stage.ended (.ok proposal) := ⟨_, rfl⟩
  rw [← hstage] at h
  have hreply : stage.reply? = some proposal := by
    rw [hstage]
    rfl
  cases h with
  | arrive desk code request gone =>
      have hnone := (Move.acts_of_arrive settings desk code request gone).reply?_eq_none
      rw [hnone] at hreply
      cases hreply
  | @move earlier log move hcourse hmakes =>
      rcases hcourse.makes_cases hmakes with ⟨phase, -, hacts⟩ | ⟨a, t, d, payment, rfl, hconcludes⟩
        | ⟨failure, fallback, -, -, hturn⟩
      · rw [hacts.reply?_eq_none] at hreply
        cases hreply
      · obtain ⟨m, rfl, rfl, rfl⟩ := exists_of_paying hcourse
        cases Log.stands hcourse with
        | waiting sound holds =>
            obtain ⟨-, -, receiverFee, rfl⟩ := sound
            rw [hconcludes.stage] at hreply
            refine ⟨m.append move, receiverFee, (Option.some.inj hreply).symm, ?_, ?_⟩
            · rw [Log.accepted?_append, hconcludes.accepted?, holds.accepted]
              rfl
            · rw [Log.credits_append, hconcludes.credit?, holds.credits]
              rfl
      · rw [hturn] at hreply
        cases hreply

theorem exists_of_ended {proposal : Proposal} (h : Course settings (.ended (.ok proposal)) log) :
    ∃ m : Making settings log, proposal = m.proposal := by
  obtain ⟨m, -, hproposal, -⟩ := exists_credited h
  exact ⟨m, hproposal⟩

end Making

theorem Course.answer {settings : Settings} {log : Log} {phase : Phase} {held : Holdings}
    (h : Course settings (.waiting phase held) log) (now : Nat) (desk : Desk)
    (outcome : phase.call.Outcome) {step : Step} {s : Session}
    (hrun : (Submission.resume settings now phase outcome).run ⟨desk, held⟩ = (step, s)) :
    ∃ move, Course settings (Turn.of s step).stage (log ++ [move]) := by
  have hmove := Course.move h (.answer now desk phase held outcome)
  simp only [Turn.answer, hrun] at hmove
  exact ⟨_, hmove⟩

/-- A request comes to a stage, one way or another. -/
def Attains (settings : Settings) (request : Request) (stage : Stage) : Prop :=
  ∃ log : Log, Course settings stage log ∧ log.BeginsWith settings request

theorem Attains.answer {settings : Settings} {request : Request} {phase : Phase} {held : Holdings}
    (h : Attains settings request (.waiting phase held)) (now : Nat) (desk : Desk)
    (outcome : phase.call.Outcome) {step : Step} {s : Session}
    (hrun : (Submission.resume settings now phase outcome).run ⟨desk, held⟩ = (step, s)) :
    Attains settings request (Turn.of s step).stage := by
  obtain ⟨log, hcourse, hbegins⟩ := h
  obtain ⟨move, hnext⟩ := hcourse.answer now desk outcome hrun
  exact ⟨_, hnext, hbegins.append move⟩

/-!
The sender puts up with any fee rate, and the relay asks for more than what comes of
the draft.
-/

namespace Attains.Sample

open Draft.Sample (source original deposit spent coin accepted target drafted settled)
open Traffic.Clash (account Signs)

def settings : Settings := ⟨"BTC", 60000, 2000, []⟩

def desk : Desk := ⟨.empty, [], []⟩

def request : Request := ⟨.transaction original, .rawTransaction, ⟨false, some (200, 1), some 0⟩⟩

def asked : Accepted := { accepted with params := request.params }

theorem examine_eq_probing :
    Submission.examine (Submission.psbtOf original [some spent]) .rawTransaction request.params =
      .wait (.probing asked) := by
  have hcheck : Fallback.check (Submission.psbtOf original [some spent]) = .ok .segwit := rfl
  have hfee : (Submission.psbtOf original [some spent]).fee? = some 1000 := rfl
  simp only [Submission.examine, hcheck, hfee]
  rfl

theorem choosing : Attains settings request
    (.waiting (.choosing asked target []) ⟨[source], [], some original⟩) := by
  have harrives : Attains settings request (.waiting
      (.fetching original .rawTransaction request.params) .none) :=
    ⟨_, .arrive desk "BTC" (.ok request) false, desk, "BTC", [], rfl⟩
  have hexamined : (Submission.resume settings 0
      (.fetching original .rawTransaction request.params) (.ok [some spent])).run ⟨desk, .none⟩ =
        (.wait (.probing asked), ⟨desk, .none⟩) := by
    rw [← examine_eq_probing]
    rfl
  have hprobes : Attains settings request (.waiting (.probing asked) .none) :=
    harrives.answer 0 desk (.ok [some spent]) hexamined
  have hsearches : Attains settings request
      (.waiting (.searching asked "BTC" 0 deposit) ⟨[], [], some original⟩) :=
    hprobes.answer 0 desk (.ok ⟨true, none⟩) rfl
  have hreads : Attains settings request
      (.waiting (.reading asked "BTC" 0 "order" []) ⟨[], [], some original⟩) :=
    hsearches.answer 0 desk (.ok ["order"]) rfl
  exact hreads.answer 0 desk (.ok (some target.method)) rfl

theorem picked?_eq_coin : Submission.picked? settings asked target [] [coin] .empty =
    some (coin, ⟨[coin.outPoint], []⟩) :=
  Submission.picked?_singleton (by decide) List.not_mem_nil rfl

theorem preserveFeeRate_eq_settled :
    drafted.preserveFeeRate asked.rate
      (remainingDue target.method.due (Submission.paidValue asked target)) asked.params
        settings.relayRate = .ok (settled, ⟨100, 200, 1778⟩) := by
  decide +kernel

theorem resume_choosing :
    (Submission.resume settings 0 (.choosing asked target []) (.ok [coin])).run
      ⟨desk, ⟨[source], [], some original⟩⟩ = (.wait (.signing asked target settled 100),
        ⟨⟨⟨[coin.outPoint], []⟩, [], []⟩, ⟨[source], [coin.outPoint], some original⟩⟩) := by
  have hdrafted : Submission.drafted settings asked target coin none [] =
      (.wait (.signing asked target settled 100), []) := by
    have hcontribute : Draft.contribute asked.psbt target.index [coin]
        target.method.account.scriptType none [] = .ok (drafted, []) := rfl
    simp only [Submission.drafted, hcontribute, preserveFeeRate_eq_settled]
  change (Submission.choose settings asked target [] [coin]).run _ = _
  rw [Submission.choose_of_draft picked?_eq_coin (by decide), Submission.draft_run]
  simp only [Submission.lockedCoin, desk, hdrafted]
  rfl

theorem signing : Attains settings request (.waiting (.signing asked target settled 100)
    ⟨[source], [coin.outPoint], some original⟩) :=
  choosing.answer 0 desk (.ok [coin]) resume_choosing

theorem paying {signed : Draft} (h : Signs signed) : Attains settings request
    (.waiting (.paying asked target signed (Submission.paymentOf asked target signed 100))
      ⟨[source], [coin.outPoint], some original⟩) := by
  have hsign : Submission.signDraft asked target settled 100 account =
      .wait (.paying asked target signed (Submission.paymentOf asked target signed 100)) := by
    have hsigned : Signing.sign settled account target.method.account.scriptType
        (Signing.choiceLike asked.psbt) = .ok signed := h.sign
    rw [Submission.signDraft, hsigned]
  have hrun : (Submission.resume settings 0 (.signing asked target settled 100)
      (.ok (some account))).run ⟨desk, ⟨[source], [coin.outPoint], some original⟩⟩ =
        (.wait (.paying asked target signed (Submission.paymentOf asked target signed 100)),
          ⟨desk, ⟨[source], [coin.outPoint], some original⟩⟩) := by
    rw [← hsign]
    rfl
  exact signing.answer 0 desk (.ok (some account)) hrun

theorem proposed : ∃ (log : Log) (m : Making settings log), log.BeginsWith settings request ∧
    Course settings (.ended (.ok m.proposal)) log ∧ m.accepted = asked ∧ Signs m.signed := by
  obtain ⟨signed, hsigns⟩ := Traffic.Clash.exists_signs
  obtain ⟨log, hcourse, hbegins⟩ := paying hsigns
  obtain ⟨m, haccepted, htarget, hsigned⟩ := Making.exists_of_paying hcourse
  obtain ⟨move, hends⟩ := hcourse.answer 0 desk
    (.ok (some (Submission.paymentOf asked target signed 100))) (Submission.resume_paying 0)
  have hproposal : (m.append move).proposal = Submission.proposalOf asked target signed := by
    rw [← haccepted, ← htarget, ← hsigned]
    rfl
  refine ⟨_, m.append move, hbegins.append move, ?_, haccepted, hsigned ▸ hsigns⟩
  rw [hproposal]
  exact hends

end Attains.Sample

end Paydesk.Payjoin

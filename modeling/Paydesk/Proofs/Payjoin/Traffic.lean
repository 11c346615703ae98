import Paydesk.Proofs.Invoices.Ledger
import Paydesk.Proofs.Payjoin.Endings
import Paydesk.Proofs.Payjoin.Fees
import Paydesk.Proofs.Payjoin.Sweep

/-!
Any number of submissions and sweeps on one desk. Between two calls each of them
runs without interruption; in what order they go on, and what their calls come
back with, is left open.
-/

namespace Paydesk.Payjoin

open Chain Invoices Wallet

/-- What is outside: how it may answer a call, and how it may change on its own. -/
structure Outside where
  World : Type
  Answers : World → (call : Call) → call.Outcome → World → Prop
  Changes : World → World → Prop

/-- A ledger beside a chain and a wallet that may answer anything. A call that fails
does nothing, and invoices may be added at any time. -/
def Outside.ofLedger : Outside where
  World := { l : Ledger // Table.Sorted l.payments }
  Answers l call outcome l' :=
    match call, outcome with
    | .paymentMethod invoice code, .ok method => method = l.1.method? invoice code ∧ l' = l
    | .addPayment invoice payment, .ok none => (l.1.pay? invoice payment).isNone ∧ l' = l
    | .addPayment invoice payment, .ok (some recorded) =>
        recorded = payment ∧ l.1.pay? invoice payment = some l'.1
    | _, _ => l' = l
  Changes l l' := ∃ invoice method, l'.1 = l.1.addInvoice invoice method

namespace Traffic

/-- Everything that is under way. Submissions are numbered in the order in which
they came in, and what they did is kept with their numbers. -/
structure State (World : Type) where
  desk : Desk
  world : World
  stages : List Stage
  history : List (Nat × Move)
  sweeps : List Sweep.Phase
  relays : List Transaction

namespace State

variable {World : Type}

def start (world : World) : State World := ⟨⟨.empty, [], []⟩, world, [], [], [], []⟩

/-- The moves of a submission. -/
def log (s : State World) (number : Nat) : Log :=
  (s.history.filter (·.1 == number)).map (·.2)

/-- A submission that comes in. -/
def arrive (s : State World) (m : Move) : State World :=
  { s with
    desk := m.after
    stages := s.stages ++ [m.turn.stage]
    history := s.history ++ [(s.stages.length, m)]
    relays := s.relays ++ m.turn.later.toList }

/-- A submission that goes on. -/
def move (s : State World) (number : Nat) (m : Move) (world : World) : State World :=
  { s with
    desk := m.after
    world := world
    stages := s.stages.set number m.turn.stage
    history := s.history ++ [(number, m)]
    relays := s.relays ++ m.turn.later.toList }

/-- A sweep in place of those that are given. -/
def sweep (s : State World) (before after : List Sweep.Phase) (r : Sweep.Step × Desk)
    (world : World) : State World :=
  { s with
    desk := r.2
    world := world
    sweeps := before ++ r.1.phase?.toList ++ after }

end State

/-- How the outside may come by a move. -/
def Passes (outside : Outside) (cause : Cause) (before after : outside.World) : Prop :=
  match cause with
  | .answer phase outcome => outside.Answers before phase.call outcome after
  | .relay fallback outcome => outside.Answers before (.broadcast fallback false) outcome after
  | _ => after = before

/-- What may happen next. Clocks are not assumed to agree, and random words may be
any. -/
inductive Next (settings : Settings) (outside : Outside) :
    State outside.World → State outside.World → Prop
  | arrive (s : State outside.World) (code : String) (request : Except RequestError Request)
      (gone : Bool) :
      Next settings outside s
        (s.arrive ⟨.arrival, s.desk, .arrive settings s.desk code request gone⟩)
  | move (s : State outside.World) {number : Nat} {stage : Stage} {m : Move}
      {world : outside.World} (hstage : s.stages[number]? = some stage)
      (hmakes : Makes settings stage m) (hdesk : m.before = s.desk)
      (hworld : Passes outside m.cause s.world world) :
      Next settings outside s (s.move number m world)
  | startSweep (s : State outside.World) (timeout now : Nat) :
      Next settings outside s (s.sweep s.sweeps [] ((Sweep.start timeout now).run s.desk) s.world)
  | sweep (s : State outside.World) (timeout now : Nat) {before after : List Sweep.Phase}
      {phase : Sweep.Phase} {outcome : phase.call.Outcome} {world : outside.World}
      (hsweep : s.sweeps = before ++ phase :: after)
      (hworld : outside.Answers s.world phase.call outcome world) :
      Next settings outside s
        (s.sweep before after ((Sweep.resume timeout now phase outcome).run s.desk) world)
  | relay (s : State outside.World) {before after : List Transaction} {fallback : Transaction}
      {outcome : (Call.broadcast fallback false).Outcome} {world : outside.World}
      (hrelay : s.relays = before ++ fallback :: after)
      (hworld : outside.Answers s.world (.broadcast fallback false) outcome world) :
      Next settings outside s { s with world := world, relays := before ++ after }
  | change (s : State outside.World) {world : outside.World}
      (hworld : outside.Changes s.world world) : Next settings outside s { s with world := world }
  | words (s : State outside.World) (words : Words) :
      Next settings outside s { s with desk := { s.desk with words := words } }

/-- What can come of a start with nothing locked and nothing recorded. -/
inductive Reachable (settings : Settings) (outside : Outside) (world : outside.World) :
    State outside.World → Prop
  | start : Reachable settings outside world (.start world)
  | next {s s' : State outside.World} :
      Reachable settings outside world s → Next settings outside s s' →
        Reachable settings outside world s'

namespace State

variable {World : Type}

theorem log_arrive_self (s : State World) (m : Move) :
    (s.arrive m).log s.stages.length = s.log s.stages.length ++ [m] := by
  simp [log, arrive]

theorem log_arrive_of_ne {s : State World} {m : Move} {number : Nat}
    (h : s.stages.length ≠ number) : (s.arrive m).log number = s.log number := by
  simp [log, arrive, h]

theorem log_move_self (s : State World) (number : Nat) (m : Move) (world : World) :
    (s.move number m world).log number = s.log number ++ [m] := by
  simp [log, move]

theorem log_move_of_ne {s : State World} {number other : Nat} (h : number ≠ other) (m : Move)
    (world : World) : (s.move number m world).log other = s.log other := by
  simp [log, move, h]

theorem log_eq_nil {s : State World} {number : Nat} (h : ∀ e ∈ s.history, e.1 < number) :
    s.log number = [] := by
  have hnone : s.history.filter (·.1 == number) = [] := by
    rw [List.filter_eq_nil_iff]
    intro e he
    simpa using (h e he).ne
  rw [log, hnone]
  rfl

theorem mem_log {s : State World} {number : Nat} {m : Move} :
    m ∈ s.log number ↔ (number, m) ∈ s.history := by
  simp [log]

end State

variable {settings : Settings} {outside : Outside} {world : outside.World}
  {s : State outside.World}

theorem Reachable.number_lt (h : Reachable settings outside world s) :
    ∀ e ∈ s.history, e.1 < s.stages.length := by
  induction h with
  | start => simp [State.start]
  | next hs hnext ih =>
      cases hnext with
      | arrive =>
          intro e he
          simp only [State.arrive, List.length_append, List.length_singleton]
          rcases List.mem_append.mp he with he | he
          · exact (ih e he).trans (Nat.lt_succ_self _)
          · rw [List.mem_singleton.mp he]
            exact Nat.lt_succ_self _
      | move hstage =>
          simp only [State.move, List.length_set]
          have hlast := (List.getElem?_eq_some_iff.mp hstage).1
          exact List.forall_mem_append.mpr ⟨ih, List.forall_mem_singleton.mpr hlast⟩
      | _ => exact ih

/-- Among others, each submission takes a course of its own. -/
theorem Reachable.course (h : Reachable settings outside world s) {number : Nat} {stage : Stage}
    (hstage : s.stages[number]? = some stage) : Course settings stage (s.log number) := by
  induction h generalizing number stage with
  | start => simp [State.start] at hstage
  | @next s s' hs hnext ih =>
      cases hnext with
      | arrive code request gone =>
          by_cases hnumber : s.stages.length = number
          · subst hnumber
            rw [State.log_arrive_self, State.log_eq_nil hs.number_lt]
            simp only [State.arrive, List.getElem?_concat_length, Option.some.injEq] at hstage
            subst hstage
            exact .arrive s.desk code request gone
          · rw [State.log_arrive_of_ne hnumber]
            refine ih ?_
            have hlt := (List.getElem?_eq_some_iff.mp hstage).1
            simp only [State.arrive, List.length_append, List.length_singleton] at hlt
            rwa [State.arrive, List.getElem?_append_left (by omega)] at hstage
      | @move number' stage' m world' hstage' hmakes hdesk hworld =>
          by_cases hnumber : number' = number
          · subst hnumber
            rw [State.log_move_self]
            have hlt := (List.getElem?_eq_some_iff.mp hstage').1
            rw [State.move, List.getElem?_set_self hlt] at hstage
            obtain rfl := Option.some.inj hstage
            exact .move (ih hstage') hmakes
          · rw [State.log_move_of_ne hnumber]
            refine ih ?_
            simpa [State.move, List.getElem?_set_ne hnumber] using hstage
      | _ => exact ih hstage

/-- What holds of all moves in the course of a submission holds of all moves there
were. -/
theorem Reachable.forall_history {P : Move → Prop} (h : Reachable settings outside world s)
    (harrive : ∀ desk code request gone,
      P ⟨.arrival, desk, .arrive settings desk code request gone⟩)
    (hmove : ∀ {stage log m}, Course settings stage log → Makes settings stage m → P m) :
    ∀ e ∈ s.history, P e.2 := by
  induction h with
  | start => simp [State.start]
  | next hs hnext ih =>
      cases hnext with
      | arrive code request gone =>
          exact List.forall_mem_append.mpr ⟨ih, List.forall_mem_singleton.mpr (harrive _ _ _ _)⟩
      | move hstage hmakes =>
          have hlast := hmove (hs.course hstage) hmakes
          exact List.forall_mem_append.mpr ⟨ih, List.forall_mem_singleton.mpr hlast⟩
      | _ => exact ih

/-- A submission goes on with an answer that does not change the outside. -/
def State.answered {World : Type} (s : State World) (settings : Settings) (number : Nat)
    (phase : Phase) (outcome : phase.call.Outcome) : State World :=
  s.move number ⟨.answer phase outcome, s.desk,
    .answer settings 0 s.desk phase phase.holdings outcome⟩ s.world

theorem State.answered_of_run {World : Type} (s : State World) (number : Nat) {phase : Phase}
    {outcome : phase.call.Outcome} {step : Step} {session : Session}
    (hrun : (Submission.resume settings 0 phase outcome).run ⟨s.desk, phase.holdings⟩ =
      (step, session)) :
    (s.answered settings number phase outcome).stages =
        s.stages.set number (Turn.of session step).stage ∧
      (s.answered settings number phase outcome).desk = (Turn.of session step).desk := by
  simp only [answered, move, Move.after, Turn.answer, hrun, and_self]

theorem Reachable.answered (h : Reachable settings outside world s) {number : Nat} {phase : Phase}
    (hstage : s.stages[number]? = some (.waiting phase phase.holdings))
    {outcome : phase.call.Outcome}
    (hworld : outside.Answers s.world phase.call outcome s.world) :
    Reachable settings outside world (s.answered settings number phase outcome) :=
  h.next (.move s hstage (.answer 0 s.desk phase phase.holdings outcome) rfl hworld)

/-- The submission that came in last is answered. -/
theorem Reachable.answered_last (h : Reachable settings outside world s) {earlier : List Stage}
    {phase : Phase} (hstages : s.stages = earlier ++ [.waiting phase phase.holdings])
    {outcome : phase.call.Outcome} {stage : Stage}
    (hworld : outside.Answers s.world phase.call outcome s.world)
    (hturn : (Turn.answer settings 0 s.desk phase phase.holdings outcome).stage = stage) :
    Reachable settings outside world (s.answered settings earlier.length phase outcome) ∧
      (s.answered settings earlier.length phase outcome).stages = earlier ++ [stage] := by
  constructor
  · refine h.answered ?_ hworld
    rw [hstages, List.getElem?_concat_length]
  · subst hturn
    simp only [State.answered, State.move, hstages]
    simp

end Traffic

/-!
One sender pays an invoice with a transaction that has one input and one output.
-/

namespace Traffic.Sample

def settings : Settings := ⟨"BTC", 60000, 250, []⟩

def source : OutPoint := ⟨List.replicate 32 1, 0⟩

def deposit : Script := [0x00, 0x14] ++ List.replicate 20 7

def spent : TxOut := ⟨6000, [0x00, 0x14] ++ List.replicate 20 5⟩

def original : Transaction :=
  ⟨2, [⟨source, [], 0xfffffffd, [[1], [2]]⟩], [⟨5000, deposit⟩], 0⟩

def params : Params := ⟨false, none, none⟩

def accepted : Accepted :=
  ⟨Submission.psbtOf original [some spent], original, .rawTransaction, params, .segwit,
    Draft.feeRateOf 1000 original.weight⟩

def method : PaymentMethod := ⟨deposit, true, ⟨"shop", .segwit⟩, 5000, false⟩

def target : Target := ⟨"order", 0, method⟩

def ledger : Outside.ofLedger.World := ⟨⟨"BTC", [("order", method)], [], []⟩, Table.sorted_nil⟩

/-- A sender comes in, and asks for the invoice that its first output may pay. -/
def ask (s : State Outside.ofLedger.World) (a : Accepted) (previous : TxOut) (script : Script)
    (invoice : String) : State Outside.ofLedger.World :=
  let number := s.stages.length
  let arrived := s.arrive ⟨.arrival, s.desk, .arrive settings s.desk "BTC"
    (.ok ⟨.transaction a.fallback, .rawTransaction, a.params⟩) false⟩
  let probing := arrived.answered settings number
    (.fetching a.fallback .rawTransaction a.params) (.ok [some previous])
  let searching := probing.answered settings number (.probing a) (.ok ⟨true, none⟩)
  searching.answered settings number (.searching a "BTC" 0 script) (.ok [invoice])

/-- The invoice is open, and the inputs of the sender are locked for it. -/
def engage (s : State Outside.ofLedger.World) (a : Accepted) (previous : TxOut) (script : Script)
    (t : Target) : State Outside.ofLedger.World :=
  (ask s a previous script t.invoice).answered settings s.stages.length
    (.reading a "BTC" 0 t.invoice []) (.ok (some t.method))

section Engage

variable {world : Outside.ofLedger.World} {s : State Outside.ofLedger.World} {output : TxOut}

theorem ask_reachable (h : Reachable settings .ofLedger world s) (a : Accepted) (previous : TxOut)
    (hexamined : Submission.examine (Submission.psbtOf a.fallback [some previous]) .rawTransaction
      a.params = .wait (.probing a))
    (houtput : a.fallback.outputs[0]? = some output) (invoice : String) :
    Reachable settings .ofLedger world (ask s a previous output.script invoice) ∧
      (ask s a previous output.script invoice).stages =
        s.stages ++ [.waiting (.reading a "BTC" 0 invoice []) ⟨[], [], some a.fallback⟩] := by
  have harrived := h.next (.arrive s "BTC"
    (.ok ⟨.transaction a.fallback, .rawTransaction, a.params⟩) false)
  have harrives : (s.arrive ⟨.arrival, s.desk, .arrive settings s.desk "BTC"
      (.ok ⟨.transaction a.fallback, .rawTransaction, a.params⟩) false⟩).stages =
        s.stages ++ [.waiting (.fetching a.fallback .rawTransaction a.params) .none] := rfl
  have hfetched : ∀ desk, (Turn.answer settings 0 desk
      (.fetching a.fallback .rawTransaction a.params) .none (.ok [some previous])).stage =
        .waiting (.probing a) .none :=
    fun desk => congrArg (fun step => (Turn.of ⟨desk, .none⟩ step).stage) hexamined
  have hprobed : ∀ desk, (Turn.answer settings 0 desk (.probing a) .none
      (.ok ⟨true, none⟩)).stage =
        .waiting (.searching a "BTC" 0 output.script) ⟨[], [], some a.fallback⟩ := by
    intro desk
    have hsearches : Submission.search settings a 0 =
        .wait (.searching a "BTC" 0 output.script) := by
      rw [Submission.search, houtput]
      rfl
    exact congrArg (fun step => (Turn.of ⟨desk, ⟨[], [], some a.fallback⟩⟩ step).stage) hsearches
  obtain ⟨hprobing, hprobes⟩ := harrived.answered_last harrives rfl (hfetched _)
  obtain ⟨hsearching, hsearches⟩ := hprobing.answered_last hprobes rfl (hprobed _)
  exact hsearching.answered_last hsearches rfl rfl

theorem engage_reachable (h : Reachable settings .ofLedger world s) (a : Accepted)
    (previous : TxOut)
    (hexamined : Submission.examine (Submission.psbtOf a.fallback [some previous]) .rawTransaction
      a.params = .wait (.probing a))
    (houtput : a.fallback.outputs[0]? = some output) (t : Target)
    (hmethod : s.world.1.method? t.invoice "BTC" = some t.method) :
    Reachable settings .ofLedger world (engage s a previous output.script t) := by
  obtain ⟨hreading, hreads⟩ := ask_reachable h a previous hexamined houtput t.invoice
  refine hreading.answered ?_ ⟨hmethod.symm, rfl⟩
  rw [hreads, List.getElem?_concat_length]
  rfl

end Engage

/-- The input of the sender is locked, and a coin is looked for. -/
def choosing : State Outside.ofLedger.World :=
  engage (.start ledger) accepted spent deposit target

theorem choosing_reachable : Reachable settings .ofLedger ledger choosing :=
  engage_reachable .start accepted spent rfl rfl target rfl

/-- The coins of the wallet could not be listed. -/
def closing : State Outside.ofLedger.World :=
  choosing.answered settings 0 (.choosing accepted target []) (.error "no wallet")

/-- The fallback was relayed. -/
def refused : State Outside.ofLedger.World :=
  closing.move 0 ⟨.relay original (.ok ⟨true, none⟩), closing.desk,
    .close closing.desk (.internal "no wallet")⟩ closing.world

theorem refused_reachable : Reachable settings .ofLedger ledger refused := by
  have hchoosing : choosing.stages[0]? =
      some (.waiting (.choosing accepted target []) ⟨[source], [], some original⟩) := rfl
  have hclosing : closing.stages[0]? = some (.closing (.internal "no wallet") original) := rfl
  exact .next (choosing_reachable.answered hchoosing rfl) (.move closing hclosing
    (.relay closing.desk (.internal "no wallet") original (.ok ⟨true, none⟩)) rfl rfl)

end Traffic.Sample

namespace Traffic

variable {settings : Settings} {outside : Outside} {world : outside.World}
  {s : State outside.World}

/-- Every submission comes to an end, if its calls do. It has then done what its
sender may count on, exactly if none of its moves got amounts out of range. -/
theorem submissions_end_honoured (h : Reachable settings outside world s) :
    WellFounded (Course.Succeeds settings) ∧
    ∀ (number : Nat) (stage : Stage), s.stages[number]? = some stage →
      (∀ m, ¬Makes settings stage m) →
        ((∃ result, stage = .ended result ∧ (s.log number).Honours result) ↔
          ∀ m ∈ s.log number, ¬m.Overflows settings) :=
  ⟨Course.wellFounded_succeeds settings,
    fun _ _ hstage hend => Course.honours_iff (h.course hstage) hend⟩

theorem Sample.refused_honoured : Sample.refused.desk.locks = .empty ∧
    (Sample.refused.log 0).Honours (.error (.internal "no wallet")) := by
  have hstage : Sample.refused.stages[0]? = some (.ended (.error (.internal "no wallet"))) := rfl
  have hcalm : ∀ m ∈ Sample.refused.log 0, ¬m.Overflows Sample.settings := by
    intro m hm hover
    obtain ⟨held, h⟩ := (Log.cutOff_iff_overflows (Sample.refused_reachable.course hstage)).mpr
      ⟨m, hm, hover⟩
    cases h
  have hend : ∀ m, ¬Makes Sample.settings (.ended (.error (.internal "no wallet"))) m := by
    rintro m ⟨⟩
  obtain ⟨result, hresult, hhonours⟩ :=
    ((submissions_end_honoured Sample.refused_reachable).2 0 _ hstage hend).mpr hcalm
  obtain rfl := Stage.ended.inj hresult
  exact ⟨rfl, hhonours⟩

end Traffic

/-!
One sender spends a coin of the wallet, and waits. Another sender, whose transaction has
an input of its own, is given that coin, and its proposal is handed out.
-/

namespace Traffic.Clash

open Draft.Sample (coin source deposit accepted target settled)

def bill : Script := [0x00, 0x14] ++ List.replicate 20 6

def spender : Transaction :=
  ⟨2, [⟨coin.outPoint, [], 0xfffffffd, [[1], [2]]⟩], [⟨2000, bill⟩], 0⟩

def spending : Accepted :=
  ⟨Submission.psbtOf spender [some coin.output], spender, .rawTransaction, ⟨false, none, none⟩,
    .segwit, Draft.feeRateOf 1000 spender.weight⟩

def billed : Target := ⟨"bill", 0, ⟨bill, true, ⟨"shop", .segwit⟩, 2000, false⟩⟩

def ledger : Outside.ofLedger.World :=
  ⟨{ Sample.ledger.1 with methods := [("bill", billed.method), ("order", target.method)] },
    Sample.ledger.2⟩

def first : State Outside.ofLedger.World :=
  Sample.engage (.start ledger) spending coin.output bill billed

def both : State Outside.ofLedger.World :=
  Sample.engage first accepted Draft.Sample.spent deposit target

theorem first_reachable : Reachable Sample.settings .ofLedger ledger first :=
  Sample.engage_reachable .start spending coin.output rfl rfl billed rfl

theorem both_reachable : Reachable Sample.settings .ofLedger ledger both :=
  Sample.engage_reachable first_reachable accepted Draft.Sample.spent rfl rfl target rfl

theorem picked?_eq_coin :
    Submission.picked? Sample.settings accepted target [] [coin] both.desk.locks =
      some (coin, ⟨[coin.outPoint], [source, coin.outPoint]⟩) :=
  Submission.picked?_singleton (by decide) List.not_mem_nil rfl

theorem drafted_eq_wait : Submission.drafted Sample.settings accepted target coin none [] =
    (.wait (.signing accepted target settled 100), []) := by
  have htype : target.method.account.scriptType = .segwit := rfl
  have hparams : accepted.params = Draft.Sample.params := rfl
  have hrelay : Sample.settings.relayRate = 250 := rfl
  simp only [Submission.drafted, htype, Draft.Sample.contribute_eq_drafted, hparams, hrelay,
    Draft.Sample.preserveFeeRate_eq_settled]

theorem choose_run (held : Holdings) :
    (Submission.choose Sample.settings accepted target [] [coin]).run ⟨both.desk, held⟩ =
      (.wait (.signing accepted target settled 100),
        ⟨{ both.desk with locks := ⟨[coin.outPoint], [source, coin.outPoint]⟩ },
          { held with coins := held.coins ++ [coin.outPoint] }⟩) := by
  have hwords : both.desk.words = [] := rfl
  rw [Submission.choose_of_draft picked?_eq_coin (by decide), Submission.draft_run]
  simp only [Submission.lockedCoin, hwords, drafted_eq_wait]

/-- The second sender's proposal is drafted. -/
def merged : State Outside.ofLedger.World :=
  both.answered Sample.settings 1 (.choosing accepted target []) (.ok [coin])

theorem merged_reachable : Reachable Sample.settings .ofLedger ledger merged :=
  both_reachable.answered rfl rfl

theorem merged_eq : merged.stages =
      [.waiting (.choosing spending billed []) ⟨[coin.outPoint], [], some spender⟩,
        .waiting (.signing accepted target settled 100)
          ⟨[source], [coin.outPoint], some accepted.fallback⟩] ∧
    merged.desk.wallets = [("shop", [])] := by
  have hstages : both.stages =
      [.waiting (.choosing spending billed []) ⟨[coin.outPoint], [], some spender⟩,
        .waiting (.choosing accepted target []) ⟨[source], [], some accepted.fallback⟩] := rfl
  have hrun (held : Holdings) : (Submission.resume Sample.settings 0
      (.choosing accepted target []) (.ok [coin])).run ⟨both.desk, held⟩ = _ := choose_run held
  obtain ⟨hset, hdesk⟩ := both.answered_of_run 1 (hrun _)
  rw [merged, hset, hdesk, hstages]
  exact ⟨rfl, rfl⟩

def account : Keys.ExtendedKey :=
  ⟨false, 0, [0, 0, 0, 0], 0, List.replicate 32 0, ⟨1, by decide, by decide⟩⟩

/-- A draft that comes of signing the one that is settled. -/
structure Signs (signed : Draft) : Prop where
  contributed : signed.contributed = [(0, coin)]
  sign : Signing.sign settled account .segwit (Signing.choiceLike accepted.psbt) = .ok signed

def endorsed : State Outside.ofLedger.World :=
  merged.answered Sample.settings 1 (.signing accepted target settled 100) (.ok (some account))

theorem endorsed_reachable : Reachable Sample.settings .ofLedger ledger endorsed := by
  refine merged_reachable.answered ?_ rfl
  rw [merged_eq.1]
  rfl

theorem endorsed_eq {signed : Draft} (h : Signs signed) :
    endorsed.stages = [.waiting (.choosing spending billed []) ⟨[coin.outPoint], [], some spender⟩,
      .waiting (.paying accepted target signed (Submission.paymentOf accepted target signed 100))
        ⟨[source], [coin.outPoint], some Draft.Sample.original⟩] ∧
    endorsed.desk.wallets = [("shop", [])] := by
  have hstep : Submission.signDraft accepted target settled 100 account =
      .wait (.paying accepted target signed (Submission.paymentOf accepted target signed 100)) := by
    rw [Submission.signDraft, show target.method.account.scriptType = .segwit from rfl, h.sign]
  have hrun (session : Session) : (Submission.resume Sample.settings 0
      (.signing accepted target settled 100) (.ok (some account))).run session =
        (.wait (.paying accepted target signed
          (Submission.paymentOf accepted target signed 100)), session) :=
    congrArg (·, session) hstep
  obtain ⟨hset, hdesk⟩ := merged.answered_of_run 1 (hrun _)
  obtain ⟨hstages, hwallets⟩ := merged_eq
  rw [endorsed, hset, hdesk, hstages]
  exact ⟨rfl, hwallets⟩

def paying (signed : Draft) : Phase :=
  .paying accepted target signed (Submission.paymentOf accepted target signed 100)

def handOut (signed : Draft) : Move :=
  let payment := Submission.paymentOf accepted target signed 100
  ⟨.answer (paying signed) (.ok (some payment)), endorsed.desk,
    .answer Sample.settings 0 endorsed.desk (paying signed) (paying signed).holdings
      (.ok (some payment))⟩

def paid (signed : Draft) : Outside.ofLedger.World :=
  ⟨{ ledger.1 with payments := [("order", [Submission.paymentOf accepted target signed 100])] },
    List.pairwise_singleton _ _⟩

theorem handOut_turn (signed : Draft) : (handOut signed).turn =
    ⟨.ended (.ok (Submission.proposalOf accepted target signed)),
      Submission.recordedDesk accepted target signed 0 endorsed.desk, some accepted.fallback⟩ := by
  simp only [handOut, Turn.answer, paying, Submission.resume_paying]
  rfl

/-- The proposal is out, and its record is there. -/
def handedOut (signed : Draft) : State Outside.ofLedger.World :=
  endorsed.move 1 (handOut signed) (paid signed)

theorem handedOut_reachable {signed : Draft} (h : Signs signed) :
    Reachable Sample.settings .ofLedger ledger (handedOut signed) := by
  have hstage : endorsed.stages[1]? = some (.waiting (paying signed) (paying signed).holdings) := by
    rw [(endorsed_eq h).1]
    simp only [paying, Phase.holdings, h.contributed]
    rfl
  have hmakes : Makes Sample.settings (.waiting (paying signed) (paying signed).holdings)
      (handOut signed) := .answer 0 endorsed.desk _ _ _
  have hpasses : Passes Outside.ofLedger (handOut signed).cause endorsed.world (paid signed) :=
    ⟨rfl, rfl⟩
  have hdesk : (handOut signed).before = endorsed.desk := by simp only [handOut]
  exact endorsed_reachable.next (.move endorsed hstage hmakes hdesk hpasses)

theorem handedOut_stages {signed : Draft} (h : Signs signed) : (handedOut signed).stages =
    [.waiting (.choosing spending billed []) ⟨[coin.outPoint], [], some spender⟩,
      .ended (.ok (Submission.proposalOf accepted target signed))] := by
  rw [handedOut, State.move, (endorsed_eq h).1, handOut_turn]
  rfl

theorem handedOut_waits {signed : Draft} (h : Signs signed) :
    (handedOut signed).stages[0]? = some (.waiting (.choosing spending billed [])
      ⟨[coin.outPoint], [], some spender⟩) := by
  rw [handedOut_stages h]
  rfl

theorem handedOut_ends {signed : Draft} (h : Signs signed) : (handedOut signed).stages[1]? =
    some (.ended (.ok (Submission.proposalOf accepted target signed))) := by
  rw [handedOut_stages h]
  rfl

theorem script_account :
    ScriptType.segwit.script account.secret.publicKey = coin.output.script := by
  decide +kernel

theorem account_controls_coin : Signing.Controls account .segwit coin :=
  ⟨account, rfl, script_account⟩

theorem exists_signs : ∃ signed, Signs signed := by
  have hcontributed : settled.contributed = [(0, coin)] := rfl
  have hcontrols : ∀ pair ∈ settled.contributed, Signing.Controls account .segwit pair.2 := by
    rw [hcontributed, List.forall_mem_singleton]
    exact account_controls_coin
  obtain ⟨signed, hsign⟩ :=
    (Signing.exists_sign_iff (Signing.choiceLike accepted.psbt)).mpr hcontrols
  exact ⟨signed, (Signing.sign_eq_ok hsign).2.2.trans hcontributed, hsign⟩

end Traffic.Clash

end Paydesk.Payjoin

import Paydesk.Proofs.Payjoin.Identity
import Paydesk.Proofs.Payjoin.Machine
import Paydesk.Proofs.Payjoin.Ranges

/-!
The steps of a submission on a machine whose numbers take 64 bits, and why it never stops
there.
-/

namespace Paydesk.Payjoin

open Chain Wallet Invoices

namespace Machine

open Submission

def examine? (psbt : Psbt) (format : BodyFormat) (params : Params) : Option Step :=
  match Fallback.check psbt, psbt.fee? with
  | .error fault, _ => some (.failed fault.failure)
  | .ok _, none => some (.failed Fallback.Fault.unknownFee.failure)
  | .ok type, some fee => do
      let weight ← fit? psbt.extract.weight
      let rate ← feeRateOf? fee weight
      return .wait (.probing ⟨psbt, psbt.extract, format, params, type, rate⟩)

def start? (settings : Settings) (code : String) (request : Request) : Option Step :=
  match request.payload with
  | .psbt psbt =>
      if Text.lower code = Text.lower settings.code ∧ psbt.isFinal then
        examine? psbt request.format request.params
      else some (start settings code request)
  | .transaction _ => some (start settings code request)

/-- What is due is found before anything is locked for it. -/
def consider? (settings : Settings) (a : Accepted) (index : Nat) (invoice : String)
    (others : List String) (method : PaymentMethod) (s : Session) : Option (Step × Session) :=
  match a.fallback.outputs[index]? with
  | none => some ((consider settings a index invoice others method).run s)
  | some output =>
      (remainingDue? method.due output.value).map fun _ =>
        (consider settings a index invoice others method).run s

def draft? (settings : Settings) (a : Accepted) (t : Target) (coin : Coin)
    (changeScript : Option Script) (s : Session) : Option (Step × Session) := do
  let due ← remainingDue? t.method.due (paidValue a t)
  match ← (contribute? a.psbt t.index [coin] t.method.account.scriptType changeScript
      s.desk.words).run with
  | .error e => return (proposalFailure e, s)
  | .ok (d, words) =>
      let s := { s with desk := { s.desk with words } }
      match ← (preserveFeeRate? d a.rate due a.params settings.relayRate).run with
      | .error e => return (proposalFailure e, s)
      | .ok (d, contribution) => return (.wait (.signing a t d contribution.receiver), s)

def choose? (settings : Settings) (a : Accepted) (t : Target) (exposed : List OutPoint)
    (coins : List Coin) (s : Session) : Option (Step × Session) := do
  let candidates := settings.blind.sort (coins.filter fun coin =>
    !a.fallback.outPoints.contains coin.outPoint && !exposed.contains coin.outPoint)
  let others := (a.fallback.outputs.eraseIdx t.index).map TxOut.value
  match ← select? candidates s.desk.locks (paidValue a t) others with
  | none =>
      return (reject .outOfUtxos
        "We do not have any UTXO available for making a payjoin for now", s)
  | some (coin, locks) =>
      let s := lockedCoin coin s locks
      if a.fallback.outputs.length = 1 then return (.wait (.splitting a t coin), s)
      else draft? settings a t coin none s

/-- What the payment is worth once the receiver's part of the fee is taken off is found
with the draft that is signed. -/
def sign? (a : Accepted) (t : Target) (d : Draft) (receiverFee : Nat)
    (account : Keys.ExtendedKey) : Option Step :=
  (sub? (paidValue a t) receiverFee).map fun _ => signDraft a t d receiverFee account

/-- Elsewhere nothing is calculated. -/
def resume? (settings : Settings) (now : Nat) :
    (phase : Phase) → phase.call.Outcome → Session → Option (Step × Session)
  | .fetching tx format params, .ok (previous : List (Option TxOut)), s =>
      (examine? (psbtOf tx previous) format params).map (·, s)
  | .reading a _ index invoice others, .ok (some method), s =>
      consider? settings a index invoice others method s
  | .choosing a t exposed, .ok (coins : List Coin), s => choose? settings a t exposed coins s
  | .splitting a t coin, .ok (script : Script), s => draft? settings a t coin (some script) s
  | .signing a t d receiverFee, .ok (some account), s =>
      (sign? a t d receiverFee account).map (·, s)
  | phase, outcome, s => some ((resume settings now phase outcome).run s)

section Steps

variable {settings : Settings} {a : Accepted} {t : Target} {s : Session}

theorem examine?_eq {psbt : Psbt}
    (hp : ∀ type, Fallback.check psbt = .ok type → psbt.Received Request.maxLength)
    (format : BodyFormat) (params : Params) :
    examine? psbt format params = some (examine psbt format params) := by
  unfold examine? examine
  cases hcheck : Fallback.check psbt with
  | error fault => cases psbt.fee? <;> rfl
  | ok type =>
      cases psbt.fee? with
      | none => rfl
      | some fee =>
          have hinputs : psbt.extract.inputs ≠ [] := by
            simpa [Psbt.extract] using Fallback.inputPairs_ne_nil hcheck
          have hlargest := weight_lt (hp type hcheck) hinputs
          have hweight : psbt.extract.weight < limit64 := by omega
          simp only [fit?_eq hweight, Option.bind_eq_bind, Option.bind_some, feeRateOf?_eq]
          rfl

theorem start?_eq {request : Request} (h : request.payload.Received Request.maxLength)
    (settings : Settings) (code : String) :
    start? settings code request = some (start settings code request) := by
  unfold start? start
  cases hpayload : request.payload with
  | transaction tx => rfl
  | psbt psbt =>
      rw [hpayload] at h
      dsimp only
      by_cases hserved : Text.lower code = Text.lower settings.code
      · cases hfinal : psbt.isFinal with
        | true => simp [hserved, examine?_eq fun _ _ => h]
        | false => simp [hserved]
      · simp [hserved]

theorem consider?_eq (index : Nat) (invoice : String) (others : List String)
    (method : PaymentMethod) : consider? settings a index invoice others method s =
      some ((consider settings a index invoice others method).run s) := by
  unfold consider?
  split
  · rfl
  · rw [remainingDue?_eq]
    rfl

section Drafting

variable (ha : a.Sound) (ht : t.Sound a) (hp : a.psbt.Received Request.maxLength)
include ha ht hp

theorem draft?_eq {coin : Coin} (hcoin : coin.output.value ≤ Amount.maxMoney)
    {change : Option Script} (hchange : ∀ script, change = some script → script.length ≤ 34) :
    draft? settings a t coin change s = some ((draft settings a t coin change).run s) := by
  obtain ⟨fee, hfee, -⟩ := ha.fee
  obtain ⟨output, hpaid, hvalue⟩ := exists_paid ha ht
  have hroom : output.value + total ([coin].map (·.output.value)) < limit64 :=
    hvalue ▸ paidValue_add_lt ha ht hcoin
  have hdust := fun script hscript => dust_lt (Nat.le_trans (hchange script hscript) (by decide))
  have hcontribute := contribute?_eq hfee (Fallback.inputs_ne_nil ha.check) hpaid hroom hdust
    t.method.account.scriptType s.desk.words
  rw [draft_run, drafted, draft?, remainingDue?_eq, hcontribute]
  cases hdraft : Draft.contribute a.psbt t.index [coin] t.method.account.scriptType change
      s.desk.words with
  | error e => rfl
  | ok drafted =>
      obtain ⟨d, words⟩ := drafted
      have hrange := inRange_of_contribute hp hchange hdraft ha
      have hpreserve := preserveFeeRate?_eq a.params settings.relayRate hrange.weight hrange.dust
        hrange.expected hrange.fee (lt_remainingDue t.method.due (paidValue a t))
      simp only [Option.bind_eq_bind, Option.bind_some, ExceptT.run, hpreserve]
      cases d.preserveFeeRate a.rate (remainingDue t.method.due (paidValue a t)) a.params
          settings.relayRate with
      | error e => rfl
      | ok priced => rfl

theorem choose?_eq {exposed : List OutPoint} {coins : List Coin}
    (hcoins : ∀ coin ∈ coins, coin.output.value ≤ Amount.maxMoney) :
    choose? settings a t exposed coins s = some ((choose settings a t exposed coins).run s) := by
  have hpaid := paidValue_add_le ha ht
  have hroom : paidValue a t +
      total ((a.fallback.outputs.eraseIdx t.index).map TxOut.value) < limit64 :=
    Nat.lt_of_le_of_lt hpaid (by decide)
  rw [choose?, select?_eq hroom, Option.bind_eq_bind, Option.bind_some, ← picked?.eq_1]
  cases hpicked : picked? settings a t exposed coins s.desk.locks with
  | none => rw [choose_of_none hpicked]; rfl
  | some picked =>
      obtain ⟨coin, locks⟩ := picked
      have hcoin := hcoins coin (picked?_eq_some hpicked).1
      by_cases hlone : a.fallback.outputs.length = 1
      · rw [choose_of_split hpicked hlone]
        simp [hlone]
      · rw [choose_of_draft hpicked hlone, ← draft?_eq ha ht hp hcoin (by simp)]
        simp [hlone]

end Drafting

end Steps

end Machine

namespace Phase

/-- Coins are worth no more than there is money, and change scripts are short. -/
def Bounded : (phase : Phase) → phase.call.Outcome → Prop
  | .choosing .., .ok (coins : List Coin) => ∀ coin ∈ coins, coin.output.value ≤ Amount.maxMoney
  | .splitting .., .ok (script : Script) => script.length ≤ 34
  | _, _ => True

/-- What bounds the numbers that are found next. -/
def Ranged : Phase → Prop
  | .fetching tx .. => tx.Sized Request.maxLength
  | .probing a | .searching a .. | .reading a .. | .choosing a .. =>
      a.psbt.Received Request.maxLength
  | .splitting a _ coin => a.psbt.Received Request.maxLength ∧ coin.output.value ≤ Amount.maxMoney
  | .signing a t _ receiverFee => receiverFee ≤ Submission.paidValue a t
  | .paying .. => True

end Phase

/-- A transaction that comes in on its own is no larger as signing data. -/
theorem received_psbtOf {tx : Transaction} {n : Nat} (h : tx.Sized n)
    {previous : List (Option TxOut)} {type : ScriptType}
    (hcheck : Fallback.check (Submission.psbtOf tx previous) = .ok type) :
    (Submission.psbtOf tx previous).Received n where
  ids := by
    intro i hi
    obtain ⟨input, hinput, rfl⟩ := List.mem_map.mp hi
    exact h.ids input hinput
  unsigned := by
    intro i hi
    obtain ⟨input, hinput, rfl⟩ := List.mem_map.mp hi
    exact ⟨rfl, rfl⟩
  size := by
    rw [extract_psbtOf (isFinal_of_check hcheck)]
    exact h.size

section Runs

variable {settings : Settings}

theorem Machine.resume?_eq (now : Nat) {phase : Phase} (hsound : phase.Sound)
    (hranged : phase.Ranged) {outcome : phase.call.Outcome} (h : phase.Bounded outcome)
    (s : Session) : resume? settings now phase outcome s =
      some ((Submission.resume settings now phase outcome).run s) := by
  cases outcome with
  | error message => cases phase <;> rfl
  | ok answer =>
      cases phase with
      | fetching tx format params =>
          have hreceived : ∀ type, Fallback.check (Submission.psbtOf tx answer) = .ok type →
              (Submission.psbtOf tx answer).Received Request.maxLength :=
            fun _ => received_psbtOf hranged
          have hexamine := examine?_eq hreceived format params
          change (examine? _ _ _).map _ = _
          rw [hexamine]
          rfl
      | probing | searching | paying => rfl
      | reading a code index invoice others =>
          cases answer with
          | none => rfl
          | some method => exact consider?_eq index invoice others method
      | choosing a t exposed => exact choose?_eq hsound.1 hsound.2 hranged h
      | splitting a t coin =>
          refine draft?_eq hsound.1.1 hsound.1.2 hranged.1 hranged.2 ?_
          rintro script ⟨⟩
          exact h
      | signing a t d receiverFee =>
          cases answer with
          | none => rfl
          | some account =>
              rw [resume?, sign?, sub?_eq hranged]
              rfl

theorem not_draftOverflows {a : Accepted} {t : Target} (ha : a.Sound) (ht : t.Sound a)
    (hp : a.psbt.Received Request.maxLength) {coin : Coin}
    (hcoin : coin.output.value ≤ Amount.maxMoney) {change : Option Script}
    (hchange : ∀ script, change = some script → script.length ≤ 34) (words : Words) :
    ¬DraftOverflows a t coin change words := by
  rintro (hgrown | ⟨d, words', hdraft, hexpected⟩)
  · exact Nat.not_le.mpr (paidValue_add_lt ha ht hcoin) hgrown
  · exact Nat.not_le.mpr (inRange_of_contribute hp hchange hdraft ha).expected hexpected

theorem Phase.not_overflows {phase : Phase} (hsound : phase.Sound) (hranged : phase.Ranged)
    {outcome : phase.call.Outcome} (h : phase.Bounded outcome) (desk : Desk) :
    ¬phase.Overflows settings desk outcome := by
  cases outcome with
  | error message => cases phase <;> exact id
  | ok answer =>
      cases phase with
      | choosing a t exposed =>
          rintro ⟨coin, locks, hpicked, -, hover⟩
          have hcoin := h coin (Submission.picked?_eq_some hpicked).1
          exact not_draftOverflows hsound.1 hsound.2 hranged hcoin (by simp) _ hover
      | splitting a t coin =>
          refine not_draftOverflows hsound.1.1 hsound.1.2 hranged.1 hranged.2 ?_ _
          rintro script ⟨⟩
          exact h
      | fetching | probing | searching | reading | signing | paying => exact id

namespace Phase

theorem ranged_of_reads {a : Accepted} (ha : a.psbt.Received Request.maxLength) {index : Nat}
    {invoices : List String} {next : Phase} (h : Submission.Reads settings a index invoices next) :
    next.Ranged := by
  rcases h with ⟨invoice, others, -, rfl⟩ | ⟨output, -, rfl⟩
  · exact ha
  · exact ha

theorem ranged_of_examine {psbt : Psbt} {format : BodyFormat} {params : Params}
    (hp : ∀ type, Fallback.check psbt = .ok type → psbt.Received Request.maxLength) {next : Phase}
    (h : Submission.examine psbt format params = .wait next) : next.Ranged := by
  obtain ⟨a, ha, rfl, -, -, rfl⟩ := Submission.accepted_of_examine h
  exact hp a.type ha.check

/-- The bounds of a phase, with those of what comes back, are those of the next one. -/
theorem Ranged.resumes {phase next : Phase} {desk : Desk} {outcome : phase.call.Outcome}
    (hranged : phase.Ranged) (hbounded : phase.Bounded outcome)
    (h : phase.Resumes settings desk outcome next) : next.Ranged := by
  cases outcome with
  | error message => cases phase <;> cases h
  | ok answer =>
      cases phase with
      | fetching tx format params =>
          obtain ⟨a, ha, hpsbt, -, -, rfl⟩ := h
          have hcheck := ha.check
          change a.psbt.Received _
          rw [hpsbt] at hcheck ⊢
          exact received_psbtOf hranged hcheck
      | probing a =>
          obtain ⟨output, -, rfl⟩ := h
          exact hranged
      | searching a code index script => exact ranged_of_reads hranged h
      | reading a code index invoice others =>
          rcases h with hreads | ⟨method, -, -, exposed, rfl⟩
          · exact ranged_of_reads hranged hreads
          · exact hranged
      | choosing a t exposed =>
          obtain ⟨coin, locks, hpicked, ⟨-, rfl⟩ | ⟨-, d, priced, c, hprices, rfl⟩⟩ := h
          · exact ⟨hranged, hbounded coin (Submission.picked?_eq_some hpicked).1⟩
          · exact receiver_le_paid hprices.preserve
      | splitting a t coin =>
          obtain ⟨d, priced, c, hprices, rfl⟩ := h
          exact receiver_le_paid hprices.preserve
      | signing a t d receiverFee =>
          obtain ⟨key, d', -, -, rfl⟩ := h
          exact trivial
      | paying a t d payment => cases h

theorem ranged_of_start {code : String} {request : Request}
    (hrequest : request.payload.Received Request.maxLength) {next : Phase}
    (h : Submission.start settings code request = .wait next) : next.Ranged := by
  rw [Submission.start] at h
  split at h
  · cases h
  · cases hpayload : request.payload with
    | psbt psbt =>
        rw [hpayload] at h hrequest
        dsimp only at h
        split at h
        · exact ranged_of_examine (fun _ _ => hrequest) h
        · cases h
    | transaction tx =>
        rw [hpayload] at h hrequest
        obtain rfl := Step.wait.inj h
        exact hrequest

end Phase

namespace Log

variable {log : Log}

/-- A submission begins with a body that is read, and all that comes back is in range. -/
structure Bounded (settings : Settings) (log : Log) : Prop where
  arrives : ∃ body query headers desk code gone later,
    log = ⟨.arrival, desk, .arrive settings desk code (Request.read body query headers) gone⟩ ::
      later
  answers : ∀ phase outcome, log.Answered phase outcome → phase.Bounded outcome

theorem Bounded.of_append {m : Move} (h : Bounded settings (log ++ [m])) (hlog : log ≠ []) :
    log.Bounded settings where
  arrives := by
    obtain ⟨body, query, headers, desk, code, gone, later, heq⟩ := h.arrives
    obtain ⟨first, rest, rfl⟩ := List.exists_cons_of_ne_nil hlog
    obtain ⟨rfl, -⟩ := List.cons.inj heq
    exact ⟨body, query, headers, desk, code, gone, rest, rfl⟩
  answers phase outcome hanswered := h.answers phase outcome (hanswered.append m)

theorem Bounded.append {m : Move} (h : log.Bounded settings)
    (hm : ∀ phase outcome, m.cause = .answer phase outcome → phase.Bounded outcome) :
    Bounded settings (log ++ [m]) where
  arrives := by
    obtain ⟨body, query, headers, desk, code, gone, later, rfl⟩ := h.arrives
    exact ⟨body, query, headers, desk, code, gone, later ++ [m], rfl⟩
  answers phase outcome hanswered := by
    obtain ⟨m', hm', hcause⟩ := hanswered
    rcases List.mem_append.mp hm' with hearlier | hlast
    · exact h.answers phase outcome ⟨m', hearlier, hcause⟩
    · obtain rfl := List.mem_singleton.mp hlast
      exact hm phase outcome hcause

end Log

namespace Course

variable {stage : Stage} {log : Log}

theorem log_ne_nil (h : Course settings stage log) : log ≠ [] := by
  cases h <;> simp

theorem ranged (h : Course settings stage log) (hlog : log.Bounded settings) {phase : Phase}
    {held : Holdings} (hstage : stage = .waiting phase held) : phase.Ranged := by
  induction h generalizing phase held with
  | arrive desk code request gone =>
      obtain ⟨body, query, headers, desk', code', gone', later, heq⟩ := hlog.arrives
      have hturn := congrArg Move.turn (List.cons.inj heq).1
      dsimp only at hturn
      rw [hturn] at hstage
      cases hread : Request.read body query headers with
      | error e =>
          rw [hread] at hstage
          cases hstage
      | ok request =>
          rw [hread] at hstage
          cases gone' with
          | true => cases hstage
          | false =>
              exact Phase.ranged_of_start (Request.received_of_read hread)
                (Turn.wait_of_stage hstage)
  | move hcourse hmakes ih =>
      have hearlier := hlog.of_append hcourse.log_ne_nil
      cases hmakes with
      | answer now desk phase held outcome =>
          have hbounded := hlog.answers phase outcome (Log.answered_last rfl)
          cases Log.stands hcourse with
          | waiting =>
              exact (ih hearlier rfl).resumes hbounded
                (Submission.resumes_of_wait now (Turn.wait_of_stage hstage))
      | cancel =>
          have hwait : Step.failed Submission.cancelled = .wait phase := Turn.wait_of_stage hstage
          cases hwait
      | relay => cases hstage

/-- One move after another, nothing grows out of range. -/
theorem not_overflows (h : Course settings stage log) (hlog : log.Bounded settings) :
    ∀ m ∈ log, ¬m.Overflows settings := by
  induction h with
  | arrive desk code request gone =>
      rintro m hm
      obtain rfl := List.mem_singleton.mp hm
      exact id
  | move hcourse hmakes ih =>
      have hearlier := hlog.of_append hcourse.log_ne_nil
      rintro m hm
      rcases List.mem_append.mp hm with hmem | hlast
      · exact ih hearlier m hmem
      · obtain rfl := List.mem_singleton.mp hlast
        cases hmakes with
        | answer now desk phase held outcome =>
            have hbounded := hlog.answers phase outcome (Log.answered_last rfl)
            have hranged := hcourse.ranged hearlier rfl
            cases Log.stands hcourse with
            | waiting sound => exact Phase.not_overflows sound hranged hbounded desk
        | cancel => exact id
        | relay => exact id

end Course

/-- No number that a submission finds leaves 64 bits or falls below zero, and nothing is
divided into no parts, on any way from the request to the signed draft. So it is never cut
off: whatever it holds it gives back, or it hands out a proposal. -/
theorem amounts_stay_in_range {stage : Stage} {log : Log} (h : Course settings stage log)
    (hlog : log.Bounded settings) :
    (∀ body query headers request code, Request.read body query headers = .ok request →
        Machine.start? settings code request = some (Submission.start settings code request)) ∧
      (∀ phase held, stage = .waiting phase held → ∀ now desk outcome, phase.Bounded outcome →
        Machine.resume? settings now phase outcome ⟨desk, held⟩ =
          some ((Submission.resume settings now phase outcome).run ⟨desk, held⟩)) ∧
      (∀ held, stage ≠ .cutOff held) ∧
      ((∀ m, ¬Makes settings stage m) → ∃ result, stage = .ended result ∧ log.Honours result) := by
  refine ⟨?_, ?_, ?_, ?_⟩
  · rintro body query headers request code hread
    exact Machine.start?_eq (Request.received_of_read hread) settings code
  · rintro phase held rfl now desk outcome hbounded
    have hranged := h.ranged hlog rfl
    cases Log.stands h with
    | waiting sound => exact Machine.resume?_eq now sound hranged hbounded _
  · rintro held rfl
    obtain ⟨m, hm, hover⟩ := (Log.cutOff_iff_overflows h).mp ⟨held, rfl⟩
    exact h.not_overflows hlog m hm hover
  · exact fun hends => (h.honours_iff hends).mpr (h.not_overflows hlog)

end Runs

/-- A stage that is come to with everything in range. -/
def Settings.Attains (settings : Settings) (stage : Stage) : Prop :=
  ∃ log : Log, Course settings stage log ∧ log.Bounded settings

theorem Settings.Attains.answer {settings : Settings} {phase : Phase} {held : Holdings}
    (h : settings.Attains (.waiting phase held)) (now : Nat) (desk : Desk)
    (outcome : phase.call.Outcome) (hbounded : phase.Bounded outcome) {step : Step} {s : Session}
    (hrun : (Submission.resume settings now phase outcome).run ⟨desk, held⟩ = (step, s)) :
    settings.Attains (Turn.of s step).stage := by
  obtain ⟨log, hcourse, hlog⟩ := h
  have hmove := Course.move hcourse (.answer now desk phase held outcome)
  simp only [Turn.answer, hrun] at hmove
  refine ⟨_, hmove, hlog.append ?_⟩
  rintro _ _ ⟨⟩
  exact hbounded

namespace Attains.Sample

open Draft.Sample (source original deposit spent coin target settled)

def body : Bytes := Text.Utf8.encode (Hex.encode original.encode)

def query : String :=
  "v=1&maxadditionalfeecontribution=200&additionalfeeoutputindex=1&minfeerate=0"

def headers : List (String × String) :=
  [("Content-Type", "text/plain"), ("Content-Length", "240")]

theorem read_eq_request : Request.read body query headers = .ok request := by decide +kernel

theorem choosing_bounded : settings.Attains
    (.waiting (.choosing asked target []) ⟨[source], [], some original⟩) := by
  have harrives : settings.Attains (.waiting
      (.fetching original .rawTransaction request.params) .none) := by
    refine ⟨_, .arrive desk "BTC" (.ok request) false, ?_, ?_⟩
    · exact ⟨body, query, headers, desk, "BTC", false, [], by rw [read_eq_request]⟩
    · rintro phase outcome ⟨m, hm, hcause⟩
      obtain rfl := List.mem_singleton.mp hm
      cases hcause
  have hexamined : (Submission.resume settings 0
      (.fetching original .rawTransaction request.params) (.ok [some spent])).run ⟨desk, .none⟩ =
        (.wait (.probing asked), ⟨desk, .none⟩) := by
    rw [← examine_eq_probing]
    rfl
  have hprobes : settings.Attains (.waiting (.probing asked) .none) :=
    harrives.answer 0 desk (.ok [some spent]) trivial hexamined
  have hsearches : settings.Attains
      (.waiting (.searching asked "BTC" 0 deposit) ⟨[], [], some original⟩) :=
    hprobes.answer 0 desk (.ok ⟨true, none⟩) trivial rfl
  have hreads : settings.Attains
      (.waiting (.reading asked "BTC" 0 "order" []) ⟨[], [], some original⟩) :=
    hsearches.answer 0 desk (.ok ["order"]) trivial rfl
  exact hreads.answer 0 desk (.ok (some target.method)) trivial rfl

/-- The machine finds the draft that unbounded numbers give. -/
theorem choosing_stays_in_range : ∃ log : Log,
    Course settings (.waiting (.choosing asked target []) ⟨[source], [], some original⟩) log ∧
      log.Bounded settings ∧
      Machine.resume? settings 0 (.choosing asked target []) (.ok [coin])
          ⟨desk, ⟨[source], [], some original⟩⟩ =
        some (.wait (.signing asked target settled 100),
          ⟨⟨⟨[coin.outPoint], []⟩, [], []⟩, ⟨[source], [coin.outPoint], some original⟩⟩) := by
  obtain ⟨log, hcourse, hlog⟩ := choosing_bounded
  have hcoins : ∀ listed ∈ [coin], listed.output.value ≤ Amount.maxMoney := by decide
  obtain ⟨-, hsteps, -⟩ := amounts_stay_in_range hcourse hlog
  have hstep := hsteps _ _ rfl 0 desk (.ok [coin]) hcoins
  rw [resume_choosing] at hstep
  exact ⟨log, hcourse, hlog, hstep⟩

end Attains.Sample

end Paydesk.Payjoin

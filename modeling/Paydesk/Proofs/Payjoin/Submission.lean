import Paydesk.Proofs.Payjoin.Coins
import Paydesk.Proofs.Payjoin.Search

/-!
What one step of a submission does to the desk and to what the submission holds,
and to which phase it leads.
-/

namespace Paydesk.Payjoin

open Chain Wallet Invoices

namespace Phase

/-- The fallback that the chain would relay, if that is what came back. -/
def accepted? : (phase : Phase) → phase.call.Outcome → Option Transaction
  | .probing a, .ok (result : BroadcastResult) =>
      if result.accepted then some a.fallback else none
  | _, _ => none

/-- What a method that came back makes of the invoice that was asked for. -/
def found? : (phase : Phase) → phase.call.Outcome → Option Target
  | .reading _ _ index invoice _, .ok (some method) => some ⟨invoice, index, method⟩
  | _, _ => none

/-- Amounts grow out of range with what came back. -/
def Overflows (settings : Settings) (desk : Desk) : (phase : Phase) → phase.call.Outcome → Prop
  | .choosing a t exposed, .ok coins =>
      Submission.ChoiceOverflows settings a t exposed coins desk
  | .splitting a t coin, .ok script => DraftOverflows a t coin (some script) desk.words
  | _, _ => False

/-- The payment was taken down. -/
def Pays : (phase : Phase) → phase.call.Outcome → Prop
  | .paying .., .ok (some _) => True
  | _, _ => False

/-- A phase that comes after another one, and why. -/
structure Follows (phase : Phase) (outcome : phase.call.Outcome) (next : Phase) : Prop where
  sound : next.Sound
  rank_lt : next.rank < phase.rank
  target : ∀ t, next.target? = some t →
    phase.target? = some t ∨ phase.found? outcome = some t ∧ t.method.hasPayments = false

end Phase

namespace Submission

variable {settings : Settings} {a : Accepted} {t : Target} {s : Session}

/-- What a submission holds once it is known whether its fallback would be relayed. -/
def noted (fallback? : Option Transaction) (s : Session) : Session :=
  { s with holdings := { s.holdings with fallback := fallback?.or s.holdings.fallback } }

theorem follows_of_searches {phase : Phase} {outcome : phase.call.Outcome} {index : Nat}
    {next : Phase} (ha : a.Sound) (h : Searches settings a index next)
    (hrank : index < a.fallback.outputs.length →
      toLex (4, toLex (2 * (a.fallback.outputs.length - index) + 1, 0)) < phase.rank) :
    phase.Follows outcome next := by
  obtain ⟨output, houtput, rfl⟩ := h
  exact ⟨ha, hrank (List.getElem?_eq_some_iff.mp houtput).1, by simp [Phase.target?]⟩

theorem follows_of_reads {phase : Phase} {outcome : phase.call.Outcome} {index : Nat}
    {invoices : List String} {next : Phase} (ha : a.Sound)
    (h : Reads settings a index invoices next)
    (hrank : toLex (4, toLex (2 * (a.fallback.outputs.length - index), invoices.length)) ≤
      phase.rank) :
    phase.Follows outcome next := by
  rcases h with ⟨invoice, others, rfl, rfl⟩ | h
  · refine ⟨ha, lt_of_lt_of_le ?_ hrank, by simp [Phase.target?]⟩
    simp [Phase.rank, Prod.Lex.toLex_lt_toLex]
  · refine follows_of_searches ha h fun hindex => lt_of_lt_of_le ?_ hrank
    simp only [Prod.Lex.toLex_lt_toLex, lt_self_iff_false, true_and, false_or]
    omega

theorem noted_none (s : Session) : noted none s = s := rfl

theorem resume_error (now : Nat) (phase : Phase) (message : String) :
    (resume settings now phase (.error message)).run s = (.failed (.internal message), s) := by
  cases phase <;> rfl

theorem resume_error_advances (now : Nat) (phase : Phase) (message : String) :
    Advances (noted (phase.accepted? (.error message)) s)
      ((resume settings now phase (.error message)).run s)
      (phase.Overflows settings s.desk (.error message)) (phase.Follows (.error message)) := by
  have haccepted : phase.accepted? (.error message) = none := by cases phase <;> rfl
  have hcalm : phase.Overflows settings s.desk (.error message) ↔ False := by
    cases phase <;> exact Iff.rfl
  rw [resume_error, haccepted, noted_none, hcalm]
  exact .failed_still s _

theorem resume_probing_advances (now : Nat) (ha : a.Sound) (hheld : s.holdings = .none)
    (result : BroadcastResult) :
    Advances (noted ((Phase.probing a).accepted? (.ok result)) s)
      ((resume settings now (.probing a) (.ok result)).run s) False
      ((Phase.probing a).Follows (.ok result)) := by
  cases haccepted : result.accepted with
  | false =>
      have hrun : (resume settings now (.probing a) (.ok result)).run s =
          (reject .invalidTransaction (result.reason.getD "Rejected by the mempool"), s) := by
        simp [resume, haccepted]
        rfl
      simp only [hrun, Phase.accepted?, haccepted, Bool.false_eq_true, if_false, noted_none]
      exact .failed_still s _
  | true =>
      have hrun : (resume settings now (.probing a) (.ok result)).run s =
          (search settings a 0, noted (some a.fallback) s) := by
        simp [resume, haccepted]
        rfl
      simp only [hrun, Phase.accepted?, haccepted, if_true]
      refine (search_advances ?_ 0).mono fun next h => follows_of_searches ha h fun _ => ?_
      · simp [noted, hheld, Holdings.none]
      · simp [Phase.rank, Prod.Lex.toLex_lt_toLex]

theorem resume_reading_advances (now : Nat) (ha : a.Sound)
    (hheld : s.holdings = ⟨[], [], some a.fallback⟩) {code invoice : String} {index : Nat}
    {others : List String} (answer : Option PaymentMethod) :
    Advances s ((resume settings now (.reading a code index invoice others) (.ok answer)).run s)
      False ((Phase.reading a code index invoice others).Follows (.ok answer)) := by
  cases answer with
  | none =>
      exact (searchAmong_advances hheld index others).mono fun next h =>
        follows_of_reads ha h le_rfl
  | some method =>
      refine (consider_advances hheld).mono fun next h => ?_
      rcases h with h | ⟨ht, exposed, rfl⟩
      · exact follows_of_reads ha h le_rfl
      · refine ⟨⟨ha, ht⟩, by simp [Phase.rank, Prod.Lex.toLex_lt_toLex], ?_⟩
        rintro t h
        obtain rfl := Option.some.inj h
        exact .inr ⟨rfl, ht.unpaid⟩

theorem follows_of_drafts {phase : Phase} {outcome : phase.call.Outcome} {coin : Coin}
    {next : Phase} (ha : a.Sound) (ht : t.Sound a) (h : Drafts a t coin next)
    (htarget : phase.target? = some t) (hrank : toLex (1, toLex (0, 0)) < phase.rank) :
    phase.Follows outcome next := by
  obtain ⟨d, receiverFee, hmerges, rfl⟩ := h
  exact ⟨⟨⟨ha, ht⟩, coin.outPoint, hmerges⟩, hrank, fun t' h => .inl (htarget.trans h)⟩

theorem resume_choosing_advances (now : Nat) (ha : a.Sound) (ht : t.Sound a)
    (hheld : s.holdings = ⟨a.fallback.outPoints, [], some a.fallback⟩) {exposed : List OutPoint}
    (coins : List Coin) :
    Advances s ((resume settings now (.choosing a t exposed) (.ok coins)).run s)
      (ChoiceOverflows settings a t exposed coins s.desk)
      ((Phase.choosing a t exposed).Follows (.ok coins)) := by
  refine (choose_advances ha ht hheld).mono fun next h => ?_
  rcases h with ⟨coin, ⟨hcoin, rfl⟩ | h⟩
  · exact ⟨⟨⟨ha, ht⟩, hcoin⟩, by simp [Phase.rank, Prod.Lex.toLex_lt_toLex], fun t' h => .inl h⟩
  · exact follows_of_drafts ha ht h rfl (by simp [Phase.rank, Prod.Lex.toLex_lt_toLex])

theorem resume_splitting_advances (now : Nat) (ha : a.Sound) (ht : t.Sound a) {coin : Coin}
    (hcoin : coin.outPoint ∉ a.fallback.outPoints)
    (hheld : s.holdings = ⟨a.fallback.outPoints, [coin.outPoint], some a.fallback⟩)
    (script : Script) :
    Advances s ((resume settings now (.splitting a t coin) (.ok script)).run s)
      (DraftOverflows a t coin (some script) s.desk.words)
      ((Phase.splitting a t coin).Follows (.ok script)) := by
  change Advances s ((draft settings a t coin (some script)).run s) _ _
  rw [draft_run]
  refine (drafted_advances ha ht hcoin ?_ ?_ _).mono fun next h => ?_
  · exact .of_locks_eq rfl rfl rfl
  · exact hheld
  · exact follows_of_drafts ha ht h rfl (by simp [Phase.rank, Prod.Lex.toLex_lt_toLex])

theorem resume_signing_advances (now : Nat) (ha : a.Sound) (ht : t.Sound a) {d : Draft}
    {receiverFee : Nat} {coin : OutPoint} (hmerges : d.Merges a.fallback.outPoints [coin])
    (hheld : s.holdings = (Phase.signing a t d receiverFee).holdings)
    (answer : Option Keys.ExtendedKey) :
    Advances s ((resume settings now (.signing a t d receiverFee) (.ok answer)).run s) False
      ((Phase.signing a t d receiverFee).Follows (.ok answer)) := by
  cases answer with
  | none => exact .failed_still s _
  | some account =>
      refine (signDraft_advances hmerges hheld account).mono fun next h => ?_
      obtain ⟨d', hmerges', rfl⟩ := h
      exact ⟨⟨⟨ha, ht⟩, ⟨coin, hmerges'⟩, receiverFee, rfl⟩,
        by simp [Phase.rank, Prod.Lex.toLex_lt_toLex], fun t' h => .inl h⟩

/-- Unless the payment was taken down, a submission at most takes locks, and goes
on in a later phase. -/
theorem resume_advances (now : Nat) {phase : Phase} (hsound : phase.Sound)
    (hheld : s.holdings = phase.holdings) {outcome : phase.call.Outcome}
    (hpays : ¬phase.Pays outcome) :
    Advances (noted (phase.accepted? outcome) s) ((resume settings now phase outcome).run s)
      (phase.Overflows settings s.desk outcome) (phase.Follows outcome) := by
  cases outcome with
  | error message => exact resume_error_advances now phase message
  | ok answer =>
      cases phase with
      | fetching tx format params =>
          refine (examine_advances hheld).mono fun next h => ?_
          obtain ⟨a, ha, rfl⟩ := h
          exact ⟨ha, by simp [Phase.rank, Prod.Lex.toLex_lt_toLex], by simp [Phase.target?]⟩
      | probing a => exact resume_probing_advances now hsound hheld answer
      | searching a code index script =>
          refine (searchAmong_advances hheld index answer).mono fun next h => ?_
          exact follows_of_reads hsound h
            (by simp [Phase.rank, Prod.Lex.toLex_le_toLex])
      | reading a code index invoice others =>
          exact resume_reading_advances now hsound hheld answer
      | choosing a t exposed => exact resume_choosing_advances now hsound.1 hsound.2 hheld answer
      | splitting a t coin =>
          exact resume_splitting_advances now hsound.1.1 hsound.1.2 hsound.2 hheld answer
      | signing a t d receiverFee =>
          obtain ⟨⟨ha, ht⟩, coin, hmerges⟩ := hsound
          exact resume_signing_advances now ha ht hmerges hheld answer
      | paying a t d payment =>
          cases answer with
          | none => exact .failed_still s _
          | some recorded => exact absurd trivial hpays

/-- The record that is left of a proposal. -/
def recordOf (a : Accepted) (d : Draft) (now : Nat) : Record :=
  ⟨a.fallback, d.psbt.extract.txid, d.contributed.map (·.2.outPoint), now⟩

/-- The proposal that is handed out. -/
def proposalOf (a : Accepted) (t : Target) (d : Draft) : Proposal :=
  ⟨a.format.encode (blankOpenInputs d.psbt), d.psbt.extract.txid, t.invoice⟩

/-- The desk with the record of a proposal. -/
def recordedDesk (a : Accepted) (t : Target) (d : Draft) (now : Nat) (desk : Desk) : Desk :=
  let wallet := t.method.account.wallet
  let records := desk.wallets.records wallet
  { desk with
    wallets := desk.wallets.set wallet ((records.add? (recordOf a d now)).getD records) }

theorem resume_paying (now : Nat) {d : Draft} {payment recorded : Payment} :
    (resume settings now (.paying a t d payment) (.ok (some recorded))).run s =
      (.finished (proposalOf a t d) a.fallback, ⟨recordedDesk a t d now s.desk, .none⟩) := by
  simp [resume, conclude, recordOf, proposalOf, recordedDesk]
  rfl

end Submission

end Paydesk.Payjoin

import Paydesk.Proofs.Payjoin.Phases

/-!
From the choice of a coin to the payment that is taken down.
-/

namespace Paydesk.Payjoin

open Chain Wallet Invoices

/-- Amounts grow out of range when a coin is drafted: that of the payment, or the
fee that the rate of the fallback asks for. -/
def DraftOverflows (a : Accepted) (t : Target) (coin : Coin) (script : Option Script)
    (words : Words) : Prop :=
  limit64 ≤ Submission.paidValue a t + coin.output.value ∨
    ∃ d words', Draft.contribute a.psbt t.index [coin] t.method.account.scriptType script words =
      .ok (d, words') ∧ limit64 ≤ a.rate * d.predictedWeight

namespace Submission

variable {settings : Settings} {a : Accepted} {t : Target} {s : Session}

/-- What comes of a coin, and the words that are left. -/
def drafted (settings : Settings) (a : Accepted) (t : Target) (coin : Coin)
    (script : Option Script) (words : Words) : Step × Words :=
  match Draft.contribute a.psbt t.index [coin] t.method.account.scriptType script words with
  | .error e => (proposalFailure e, words)
  | .ok (d, words) =>
      match d.preserveFeeRate a.rate (remainingDue t.method.due (paidValue a t)) a.params
          settings.relayRate with
      | .error e => (proposalFailure e, words)
      | .ok (d, contribution) => (.wait (.signing a t d contribution.receiver), words)

theorem draft_run (settings : Settings) (a : Accepted) (t : Target) (coin : Coin)
    (script : Option Script) (s : Session) :
    (draft settings a t coin script).run s =
      ((drafted settings a t coin script s.desk.words).1,
        { s with desk := { s.desk with
          words := (drafted settings a t coin script s.desk.words).2 } }) := by
  cases hc : Draft.contribute a.psbt t.index [coin] t.method.account.scriptType script
      s.desk.words with
  | error e =>
      simp [draft, drafted, hc]
      rfl
  | ok r =>
      cases hp : r.1.preserveFeeRate a.rate (remainingDue t.method.due (paidValue a t)) a.params
          settings.relayRate with
      | error e =>
          simp [draft, drafted, hc, hp]
          rfl
      | ok r =>
          simp [draft, drafted, hc, hp]
          rfl

theorem contribute_eq_overflow (ha : a.Sound) (ht : t.Sound a) (coin : Coin)
    (script : Option Script) (words : Words) :
    Draft.contribute a.psbt t.index [coin] t.method.account.scriptType script words =
      .error .overflow ↔ limit64 ≤ paidValue a t + coin.output.value := by
  obtain ⟨fee, hfee, -⟩ := ha.fee
  obtain ⟨output, houtput, -, -⟩ := ht.output
  obtain ⟨sequence, hsequence⟩ := Fallback.exists_sequence ha.check words
  have hpaid : a.psbt.tx.outputs[t.index]? = some output := by
    rw [← houtput, ha.fallback]
    rfl
  rw [Draft.contribute_eq_ite hfee hsequence hpaid]
  simp [paidValue, houtput, total]

theorem proposalFailure_ne_wait (e : ProposalError) (next : Phase) :
    proposalFailure e ≠ .wait next := by
  cases e <;> simp [proposalFailure, reject]

theorem proposalFailure_ne_finished (e : ProposalError) (proposal : Proposal)
    (fallback : Transaction) : proposalFailure e ≠ .finished proposal fallback := by
  cases e <;> simp [proposalFailure, reject]

theorem proposalFailure_eq_overflow {e : ProposalError} :
    proposalFailure e = .overflow ↔ e = .overflow := by
  cases e <;> simp [proposalFailure, reject]

/-- A coin is drafted, and then outputs are lowered for the fee rate of the fallback. -/
structure Prices (settings : Settings) (a : Accepted) (t : Target) (coin : Coin)
    (change : Option Script) (words : Words) (drafted priced : Draft)
    (c : Draft.FeeContribution) : Prop where
  contribute : ∃ words', Draft.contribute a.psbt t.index [coin] t.method.account.scriptType change
    words = .ok (drafted, words')
  preserve : drafted.preserveFeeRate a.rate (remainingDue t.method.due (paidValue a t)) a.params
    settings.relayRate = .ok (priced, c)

theorem prices_of_drafted {coin : Coin} {change : Option Script} {words : Words} {next : Phase}
    (h : (drafted settings a t coin change words).1 = .wait next) :
    ∃ d priced c, Prices settings a t coin change words d priced c ∧
      next = .signing a t priced c.receiver := by
  rw [drafted] at h
  split at h
  · exact absurd h (proposalFailure_ne_wait _ _)
  · rename_i d words' hcontribute
    split at h
    · exact absurd h (proposalFailure_ne_wait _ _)
    · rename_i priced c hpreserve
      exact ⟨d, priced, c, ⟨⟨words', hcontribute⟩, hpreserve⟩, (Step.wait.inj h).symm⟩

/-- The phase in which a draft with a coin is signed. -/
def Drafts (a : Accepted) (t : Target) (coin : Coin) (next : Phase) : Prop :=
  ∃ d receiverFee, d.Merges a.fallback.outPoints [coin.outPoint] ∧
    next = .signing a t d receiverFee

theorem drafted_eq_wait (ha : a.Sound) {coin : Coin} {script : Option Script} {words : Words}
    (hcoin : coin.outPoint ∉ a.fallback.outPoints) {next : Phase}
    (h : (drafted settings a t coin script words).1 = .wait next) :
    Drafts a t coin next := by
  obtain ⟨d, priced, c, ⟨⟨words', hcontribute⟩, hpreserve⟩, rfl⟩ := prices_of_drafted h
  have hmerges : d.Merges a.fallback.outPoints [coin.outPoint] := by
    rw [ha.fallback]
    refine Draft.contribute_merges ?_ hcontribute
    simpa [← ha.fallback] using hcoin
  exact ⟨priced, _, hmerges.preserveFeeRate hpreserve, rfl⟩

theorem drafted_ne_finished {coin : Coin} {script : Option Script} {words : Words}
    (proposal : Proposal) (fallback : Transaction) :
    (drafted settings a t coin script words).1 ≠ .finished proposal fallback := by
  rw [drafted]
  split
  · exact proposalFailure_ne_finished _ _ _
  · split
    · exact proposalFailure_ne_finished _ _ _
    · simp

theorem drafted_eq_overflow (ha : a.Sound) (ht : t.Sound a) {coin : Coin}
    {script : Option Script} {words : Words} :
    (drafted settings a t coin script words).1 = .overflow ↔
      DraftOverflows a t coin script words := by
  rw [DraftOverflows, ← contribute_eq_overflow ha ht coin script words, drafted]
  cases hc : Draft.contribute a.psbt t.index [coin] t.method.account.scriptType script words with
  | error e => simp [proposalFailure_eq_overflow]
  | ok r =>
      obtain ⟨d, words'⟩ := r
      have hrate := d.preserveFeeRate_eq_overflow a.rate settings.relayRate
        (remainingDue t.method.due (paidValue a t)) a.params
      cases hp : d.preserveFeeRate a.rate (remainingDue t.method.due (paidValue a t)) a.params
          settings.relayRate with
      | error e =>
          rw [hp] at hrate
          simp [proposalFailure_eq_overflow, hp, ← hrate]
      | ok r =>
          rw [hp] at hrate
          simp [hp, ← hrate]

theorem signing_holdings {d : Draft} {coin : OutPoint}
    (hmerges : d.Merges a.fallback.outPoints [coin]) (t : Target) (receiverFee : Nat) :
    (Phase.signing a t d receiverFee).holdings =
      ⟨a.fallback.outPoints, [coin], some a.fallback⟩ := by
  simp [Phase.holdings, List.perm_singleton.mp hmerges.coins]

theorem drafted_advances (ha : a.Sound) (ht : t.Sound a) {coin : Coin} {script : Option Script}
    (hcoin : coin.outPoint ∉ a.fallback.outPoints) {after : Session} (htakes : Takes s after)
    (hheld : after.holdings = ⟨a.fallback.outPoints, [coin.outPoint], some a.fallback⟩)
    (words : Words) :
    Advances s ((drafted settings a t coin script words).1, after)
      (DraftOverflows a t coin script words) (Drafts a t coin) where
  takes := htakes
  wait := by
    intro next h
    obtain ⟨d, receiverFee, hmerges, rfl⟩ := drafted_eq_wait ha hcoin h
    exact ⟨⟨d, receiverFee, hmerges, rfl⟩, (signing_holdings hmerges t receiverFee).trans hheld.symm⟩
  overflow := drafted_eq_overflow ha ht
  unfinished := drafted_ne_finished

/-- The coin that is picked from a list, and the locks with it. -/
def picked? (settings : Settings) (a : Accepted) (t : Target) (exposed : List OutPoint)
    (coins : List Coin) (locks : Locks) : Option (Coin × Locks) :=
  Selection.select?
    (settings.blind.sort (coins.filter fun coin =>
      !a.fallback.outPoints.contains coin.outPoint && !exposed.contains coin.outPoint))
    locks (paidValue a t) ((a.fallback.outputs.eraseIdx t.index).map TxOut.value)

theorem picked?_eq_some {exposed : List OutPoint} {coins : List Coin} {locks locks' : Locks}
    {coin : Coin} (h : picked? settings a t exposed coins locks = some (coin, locks')) :
    coin ∈ coins ∧ coin.outPoint ∉ a.fallback.outPoints ∧ coin.outPoint ∉ exposed ∧
      locks.lockCoin? coin.outPoint = some locks' := by
  obtain ⟨hmem, hlock⟩ := Selection.select?_eq_some h
  rw [Blind.sort, List.mem_mergeSort, List.mem_filter] at hmem
  simp only [Bool.and_eq_true, Bool.not_eq_true', List.contains_eq_mem, decide_eq_false_iff_not]
    at hmem
  exact ⟨hmem.1, hmem.2.1, hmem.2.2, hlock⟩

/-- A coin that is the only one is picked if it is free. -/
theorem picked?_singleton {exposed : List OutPoint} {locks locks' : Locks} {coin : Coin}
    (hfallback : coin.outPoint ∉ a.fallback.outPoints) (hexposed : coin.outPoint ∉ exposed)
    (hlock : locks.lockCoin? coin.outPoint = some locks') :
    picked? settings a t exposed [coin] locks = some (coin, locks') := by
  have hcandidates : [coin].filter (fun c => !a.fallback.outPoints.contains c.outPoint &&
      !exposed.contains c.outPoint) = [coin] := by simp [hfallback, hexposed]
  rw [picked?, hcandidates, Blind.sort, List.mergeSort_singleton, Selection.select?]
  cases hreveals : Selection.revealsPayment (paidValue a t)
      ((a.fallback.outputs.eraseIdx t.index).map TxOut.value) coin with
  | false => simp [hreveals, Selection.search, Selection.maxAttempts, hlock]
  | true => simp [hreveals, Selection.search, Selection.maxAttempts, hlock]

/-- What is left of a session once a coin is locked. -/
def lockedCoin (coin : Coin) (s : Session) (locks : Locks) : Session :=
  { desk := { s.desk with locks }
    holdings := { s.holdings with coins := s.holdings.coins ++ [coin.outPoint] } }

section Choose

variable {exposed : List OutPoint} {coins : List Coin}

theorem choose_of_none (h : picked? settings a t exposed coins s.desk.locks = none) :
    (choose settings a t exposed coins).run s = (reject .outOfUtxos
      "We do not have any UTXO available for making a payjoin for now", s) := by
  rw [picked?] at h
  simp [choose, -List.contains_eq_mem, h]
  rfl

theorem choose_of_split {coin : Coin} {locks : Locks}
    (h : picked? settings a t exposed coins s.desk.locks = some (coin, locks))
    (hlone : a.fallback.outputs.length = 1) :
    (choose settings a t exposed coins).run s =
      (.wait (.splitting a t coin), lockedCoin coin s locks) := by
  rw [picked?] at h
  simp [choose, -List.contains_eq_mem, h, hlone]
  rfl

theorem choose_of_draft {coin : Coin} {locks : Locks}
    (h : picked? settings a t exposed coins s.desk.locks = some (coin, locks))
    (hlone : a.fallback.outputs.length ≠ 1) :
    (choose settings a t exposed coins).run s =
      (draft settings a t coin none).run (lockedCoin coin s locks) := by
  rw [picked?] at h
  simp [choose, -List.contains_eq_mem, h, hlone]
  rfl

end Choose

theorem lockedCoin_takes (hheld : s.holdings = ⟨a.fallback.outPoints, [], some a.fallback⟩)
    {coin : Coin} {locks : Locks} (h : s.desk.locks.lockCoin? coin.outPoint = some locks) :
    Takes s (lockedCoin coin s locks) :=
  ⟨⟨[], [coin.outPoint], Locks.grants_of_lockCoin? h, by simp [lockedCoin, hheld]⟩, .inl rfl⟩

/-- A coin is drafted as soon as it is picked, and amounts grow out of range. -/
def ChoiceOverflows (settings : Settings) (a : Accepted) (t : Target) (exposed : List OutPoint)
    (coins : List Coin) (desk : Desk) : Prop :=
  ∃ coin locks, picked? settings a t exposed coins desk.locks = some (coin, locks) ∧
    a.fallback.outputs.length ≠ 1 ∧ DraftOverflows a t coin none desk.words

theorem choose_advances (ha : a.Sound) (ht : t.Sound a)
    (hheld : s.holdings = ⟨a.fallback.outPoints, [], some a.fallback⟩) {exposed : List OutPoint}
    {coins : List Coin} :
    Advances s ((choose settings a t exposed coins).run s)
      (ChoiceOverflows settings a t exposed coins s.desk)
      (fun next => ∃ coin, (coin.outPoint ∉ a.fallback.outPoints ∧ next = .splitting a t coin) ∨
        Drafts a t coin next) := by
  cases hpicked : picked? settings a t exposed coins s.desk.locks with
  | none =>
      rw [choose_of_none hpicked]
      have hcalm : ChoiceOverflows settings a t exposed coins s.desk ↔ False := by
        simp [ChoiceOverflows, hpicked]
      rw [hcalm]
      exact .failed_still s _
  | some r =>
      obtain ⟨coin, locks⟩ := r
      obtain ⟨-, hcoin, -, hlock⟩ := picked?_eq_some hpicked
      have htakes := lockedCoin_takes hheld hlock
      by_cases hlone : a.fallback.outputs.length = 1
      · rw [choose_of_split hpicked hlone]
        have hcalm : ChoiceOverflows settings a t exposed coins s.desk ↔ False := by
          simp [ChoiceOverflows, hlone]
        rw [hcalm]
        exact .waiting htakes ⟨coin, .inl ⟨hcoin, rfl⟩⟩
          (by simp [Phase.holdings, lockedCoin, hheld])
      · rw [choose_of_draft hpicked hlone, draft_run]
        have hover : ChoiceOverflows settings a t exposed coins s.desk ↔
            DraftOverflows a t coin none s.desk.words := by
          simp [ChoiceOverflows, hpicked, hlone]
        rw [hover]
        refine (drafted_advances ha ht hcoin ?_ ?_ s.desk.words).mono fun _ h => ⟨coin, .inr h⟩
        · exact ⟨htakes.grants, htakes.wallets⟩
        · simp [lockedCoin, hheld]

theorem signDraft_advances {d : Draft} {coin : OutPoint} {receiverFee : Nat}
    (hmerges : d.Merges a.fallback.outPoints [coin])
    (hheld : s.holdings = (Phase.signing a t d receiverFee).holdings)
    (account : Keys.ExtendedKey) :
    Advances s (signDraft a t d receiverFee account, s) False (fun next =>
      ∃ d', d'.Merges a.fallback.outPoints [coin] ∧
        next = .paying a t d' (paymentOf a t d' receiverFee)) := by
  rw [signDraft]
  split
  · exact .failed_still s _
  · rename_i d' hsign
    have hmerges' := hmerges.sign hsign
    refine .waiting_still ⟨d', hmerges', rfl⟩ ?_
    exact (signing_holdings hmerges' t receiverFee).trans
      ((signing_holdings hmerges t receiverFee).symm.trans hheld.symm)

end Submission

end Paydesk.Payjoin

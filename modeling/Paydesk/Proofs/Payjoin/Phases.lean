import Mathlib.Data.Prod.Lex
import Paydesk.Payjoin.Submission
import Paydesk.Proofs.Payjoin.Draft
import Paydesk.Proofs.Payjoin.Locks

/-!
What a submission holds in a phase, what it has found out by then, and what a step
to the next phase may do.
-/

namespace Paydesk.Payjoin

open Chain Wallet Invoices

/-- What is known of a fallback that passed its checks. -/
structure Accepted.Sound (a : Accepted) : Prop where
  check : Fallback.check a.psbt = .ok a.type
  fee : ∃ fee, a.psbt.fee? = some fee ∧ a.rate = Draft.feeRateOf fee a.fallback.weight
  fallback : a.fallback = a.psbt.extract

/-- What is known of an invoice once a submission goes on with it. -/
structure Target.Sound (t : Target) (a : Accepted) : Prop where
  output : ∃ output, a.fallback.outputs[t.index]? = some output ∧
    output.script = t.method.depositScript ∧ remainingDue t.method.due output.value ≤ 0
  payjoin : t.method.payjoin
  type : t.method.account.scriptType = a.type
  unpaid : t.method.hasPayments = false

theorem Fallback.inputPairs_ne_nil {p : Psbt} {type : ScriptType} (h : check p = .ok type) :
    p.inputPairs ≠ [] := by
  intro hnil
  simp [check, inputType?, hnil] at h

theorem Fallback.inputs_ne_nil {p : Psbt} {type : ScriptType} (h : check p = .ok type) :
    p.tx.inputs ≠ [] := by
  intro hnil
  exact inputPairs_ne_nil h (by simp [Psbt.inputPairs, hnil])

theorem Fallback.exists_sequence {p : Psbt} {type : ScriptType} (h : check p = .ok type)
    (ws : Words) : ∃ sequence, (ws.choose? (p.tx.inputs.map TxIn.sequence)).1 = some sequence := by
  have hsequences : p.tx.inputs.map TxIn.sequence ≠ [] := by simpa using inputs_ne_nil h
  exact Option.isSome_iff_exists.mp (Words.choose?_isSome hsequences ws)

theorem Accepted.Sound.outPoints_ne_nil {a : Accepted} (ha : a.Sound) :
    a.fallback.outPoints ≠ [] := by
  simpa [ha.fallback, Psbt.extract, Transaction.outPoints] using
    Fallback.inputPairs_ne_nil ha.check

namespace Phase

/-- What a submission holds in a phase. -/
def holdings : Phase → Holdings
  | .fetching .. | .probing _ => .none
  | .searching a .. | .reading a .. => ⟨[], [], some a.fallback⟩
  | .choosing a .. => ⟨a.fallback.outPoints, [], some a.fallback⟩
  | .splitting a _ coin => ⟨a.fallback.outPoints, [coin.outPoint], some a.fallback⟩
  | .signing a _ d _ | .paying a _ d _ =>
      ⟨a.fallback.outPoints, d.contributed.map (·.2.outPoint), some a.fallback⟩

theorem holdings_eq_none (phase : Phase) (h : phase.holdings.fallback = none) :
    phase.holdings = .none := by
  cases phase <;> first | rfl | cases h

/-- The invoice that a submission goes on with. -/
def target? : Phase → Option Target
  | .choosing _ t _ | .splitting _ t _ | .signing _ t _ _ | .paying _ t _ _ => some t
  | _ => none

/-- What a submission has found out in a phase. -/
def Sound : Phase → Prop
  | .fetching .. => True
  | .probing a | .searching a .. | .reading a .. => a.Sound
  | .choosing a t _ => a.Sound ∧ t.Sound a
  | .splitting a t coin => (a.Sound ∧ t.Sound a) ∧ coin.outPoint ∉ a.fallback.outPoints
  | .signing a t d _ => (a.Sound ∧ t.Sound a) ∧
      ∃ coin, d.Merges a.fallback.outPoints [coin]
  | .paying a t d payment => (a.Sound ∧ t.Sound a) ∧
      (∃ coin, d.Merges a.fallback.outPoints [coin]) ∧
      ∃ receiverFee, payment = Submission.paymentOf a t d receiverFee

/-- How far a phase is from the end: its kind, the outputs that are left to look
at, and the invoices that are left for the output at hand. -/
def rank : Phase → ℕ ×ₗ ℕ ×ₗ ℕ
  | .fetching .. => toLex (6, toLex (0, 0))
  | .probing _ => toLex (5, toLex (0, 0))
  | .searching a _ index _ => toLex (4, toLex (2 * (a.fallback.outputs.length - index) + 1, 0))
  | .reading a _ index _ others =>
      toLex (4, toLex (2 * (a.fallback.outputs.length - index), others.length))
  | .choosing .. => toLex (3, toLex (0, 0))
  | .splitting .. => toLex (2, toLex (0, 0))
  | .signing .. => toLex (1, toLex (0, 0))
  | .paying .. => toLex (0, toLex (0, 0))

end Phase

namespace Submission

/-- Some locks are taken, what is held says so, and nothing else that is shared
changes. A wallet is not asked for before there is a fallback. -/
structure Takes (before after : Session) : Prop where
  grants : ∃ inputs coins, Locks.Grants before.desk.locks after.desk.locks inputs coins ∧
    after.holdings = ⟨before.holdings.inputs ++ inputs, before.holdings.coins ++ coins,
      before.holdings.fallback⟩
  wallets : after.desk.wallets = before.desk.wallets ∨
    before.holdings.fallback ≠ none ∧
      ∃ wallet, after.desk.wallets = before.desk.wallets.touch wallet

theorem Takes.of_locks_eq {before after : Session} (hlocks : after.desk.locks = before.desk.locks)
    (hwallets : after.desk.wallets = before.desk.wallets)
    (hholdings : after.holdings = before.holdings) : Takes before after :=
  ⟨⟨[], [], hlocks ▸ .refl _, by simp [hholdings]⟩, .inl hwallets⟩

/-- A step that at most takes some locks. Where it waits next fulfils a condition,
and there the submission holds what the phase says. -/
structure Advances (before : Session) (r : Step × Session) (overflows : Prop)
    (leads : Phase → Prop) : Prop where
  takes : Takes before r.2
  wait : ∀ next, r.1 = .wait next → leads next ∧ next.holdings = r.2.holdings
  overflow : r.1 = .overflow ↔ overflows
  unfinished : ∀ proposal fallback, r.1 ≠ .finished proposal fallback

namespace Advances

variable {before after : Session} {r : Step × Session} {overflows : Prop}
  {leads leads' : Phase → Prop}

theorem mono (h : Advances before r overflows leads) (himp : ∀ next, leads next → leads' next) :
    Advances before r overflows leads' :=
  { h with wait := fun next hnext => ⟨himp next (h.wait next hnext).1, (h.wait next hnext).2⟩ }

theorem failed (htakes : Takes before after) (failure : Failure) :
    Advances before (.failed failure, after) False leads where
  takes := htakes
  wait := by simp
  overflow := by simp
  unfinished := by simp

theorem failed_still (s : Session) (failure : Failure) :
    Advances s (.failed failure, s) False leads := .failed (.of_locks_eq rfl rfl rfl) failure

theorem waiting (htakes : Takes before after) {next : Phase} (hnext : leads next)
    (hheld : next.holdings = after.holdings) :
    Advances before (.wait next, after) False leads where
  takes := htakes
  wait := by
    rintro _ h
    obtain rfl := Step.wait.inj h
    exact ⟨hnext, hheld⟩
  overflow := by simp
  unfinished := by simp

theorem waiting_still {s : Session} {next : Phase} (hnext : leads next)
    (hheld : next.holdings = s.holdings) : Advances s (.wait next, s) False leads :=
  .waiting (.of_locks_eq rfl rfl rfl) hnext hheld

end Advances

end Submission

end Paydesk.Payjoin

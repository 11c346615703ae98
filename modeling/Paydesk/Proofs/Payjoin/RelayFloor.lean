import Paydesk.Proofs.Payjoin.FeeRate
import Paydesk.Proofs.Payjoin.Making

/-!
The least fee rate of a proposal that is handed out.
-/

namespace Paydesk.Payjoin

open Chain Wallet Invoices

namespace Draft

/-- A draft pays a fee rate for the weight that is predicted. -/
def Pays (d : Draft) (rate : Nat) : Prop := rate * d.predictedWeight ≤ 1000 * d.fee

instance (d : Draft) (rate : Nat) : Decidable (d.Pays rate) := inferInstanceAs (Decidable (_ ≤ _))

variable {d d' : Draft} {rate rate' relayRate : Nat} {due : Int} {params : Params}
  {c : FeeContribution}

theorem Pays.mono (h : d.Pays rate) (hle : rate' ≤ rate) : d.Pays rate' :=
  (Nat.mul_le_mul_right _ hle).trans h

theorem pays_of_le_feeRateOf (h : rate ≤ feeRateOf d.fee d.predictedWeight) : d.Pays rate :=
  ((le_feeRateOf_iff d.predictedWeight_pos).mp h).1

/-- What is left unpaid is let pass at the floor only. -/
theorem pays_of_ok (hd : d.roles.length = d.psbt.tx.outputs.length)
    (h : d.preserveFeeRate rate due params relayRate = .ok (d', c)) :
    d'.Pays rate ∨
      d.coverable due params < d.lacking rate ∧ d'.Pays (params.minFeeRate.getD relayRate) := by
  have hrate : rate * d.predictedWeight < limit64 := by
    by_contra hlarge
    rw [(d.preserveFeeRate_eq_overflow rate relayRate due params).mpr (Nat.not_lt.mp hlarge)] at h
    cases h
  obtain ⟨hlowered, hfloor⟩ := (preserveFeeRate_eq_ok_iff hd hrate).mp h
  have hreached := d.lowered_feeRate rate due params
  have hcovered := le_lowered_feeRate hd hrate due params
  rw [← lowered_predictedWeight hd rate due params] at hreached
  rw [hlowered] at hreached hcovered
  by_cases hfull : d.lacking rate ≤ d.coverable due params
  · exact .inl (pays_of_le_feeRateOf (hreached ▸ hcovered hfull))
  · exact .inr ⟨Nat.lt_of_not_le hfull,
      pays_of_le_feeRateOf (hreached ▸ hfloor.resolve_left hfull)⟩

end Draft

theorem Signing.pays_sign {d d' : Draft} {account : Keys.ExtendedKey} {type : ScriptType}
    {choice : NonceChoice} (h : sign d account type choice = .ok d') (rate : Nat) :
    d'.Pays rate ↔ d.Pays rate := by
  obtain ⟨htx, -, -⟩ := sign_eq_ok h
  obtain ⟨psbt, -, rfl⟩ := sign_eq_foldlM h
  have hweight : ({ d with psbt } : Draft).predictedWeight = d.predictedWeight := by
    rw [Draft.predictedWeight, htx, Draft.predictedWeight]
  rw [Draft.Pays, hweight, Draft.Pays]

section Results

variable {settings : Settings} {log : Log}

/-- What goes into a proposal comes out of it, or it is the fee. -/
theorem Making.balance (m : Making settings log) :
    ∃ spent, m.accepted.psbt.previousOutputs? = some spent ∧
      total (spent.map TxOut.value) + m.coin.output.value =
        total (m.signed.psbt.tx.outputs.map TxOut.value) + m.signed.fee := by
  obtain ⟨words, ⟨words', hcontribute⟩, hpreserve⟩ := m.drafts.prices
  obtain ⟨htx, -, -⟩ := Signing.sign_eq_ok m.signs
  obtain ⟨psbt, -, hsigned⟩ := Signing.sign_eq_foldlM m.signs
  obtain ⟨hlabelled, spent, hspent, hspending⟩ := Draft.contribute_spending hcontribute
  obtain ⟨-, hpriced⟩ := Draft.Adjusts.spending_eq hlabelled ⟨_, _, _, _, _, hpreserve⟩
  have hfee : m.signed.fee = m.priced.fee := by rw [hsigned]
  refine ⟨spent, hspent, ?_⟩
  rw [htx, hfee]
  exact (hpriced.trans hspending).symm

/-- A proposal pays at least what is relayed if the original does, unless the sender
asks for less and the outputs that may be lowered do not cover the fee. Then it pays
what the sender asks for. -/
theorem proposal_pays_relay_rate {proposal : Proposal}
    (h : Course settings (.ended (.ok proposal)) log) :
    (∃ m : Making settings log, proposal = m.proposal) ∧
    ∀ m : Making settings log, proposal = m.proposal →
      (∃ spent, m.accepted.psbt.previousOutputs? = some spent ∧
        total (spent.map TxOut.value) + m.coin.output.value =
          total (m.signed.psbt.tx.outputs.map TxOut.value) + m.signed.fee) ∧
      (settings.relayRate ≤ m.accepted.rate →
        m.signed.Pays settings.relayRate ∨
          ∃ asked, m.request.params.minFeeRate = some asked ∧ asked < settings.relayRate ∧
            m.drafted.coverable (remainingDue m.target.method.due
              (Submission.paidValue m.accepted m.target)) m.request.params <
                m.drafted.lacking m.accepted.rate ∧
            m.signed.Pays asked) := by
  refine ⟨Making.exists_of_ended h, fun m _ => ⟨m.balance, fun hrelay => ?_⟩⟩
  simp only [Signing.pays_sign m.signs]
  obtain ⟨words, ⟨words', hcontribute⟩, hpreserve⟩ := m.drafts.prices
  obtain ⟨-, hlabelled, -⟩ := Draft.contribute_shares hcontribute
  rw [m.accepts.params] at hpreserve
  rcases Draft.pays_of_ok hlabelled.length hpreserve with hpays | ⟨hshort, hpays⟩
  · exact .inl (hpays.mono hrelay)
  · cases hasked : m.request.params.minFeeRate with
    | none =>
        rw [hasked] at hpays
        exact .inl hpays
    | some asked =>
        rw [hasked] at hpays
        by_cases hle : settings.relayRate ≤ asked
        · exact .inl (hpays.mono hle)
        · exact .inr ⟨asked, rfl, Nat.lt_of_not_le hle, hshort, hpays⟩

namespace Attains.Sample

theorem not_pays {signed : Draft} (h : Traffic.Clash.Signs signed) :
    ¬signed.Pays Sample.settings.relayRate := by
  rw [Signing.pays_sign h.sign]
  decide +kernel

theorem rate_le : Sample.settings.relayRate ≤ asked.rate := by
  decide +kernel

theorem proposed_pays_asked : ∃ (log : Log) (m : Making Sample.settings log),
    Course Sample.settings (.ended (.ok m.proposal)) log ∧
    ∃ rate, m.request.params.minFeeRate = some rate ∧ m.signed.Pays rate := by
  obtain ⟨log, m, -, hcourse, haccepted, hsigns⟩ := proposed
  obtain ⟨-, hpays⟩ := proposal_pays_relay_rate hcourse
  obtain ⟨-, hfloor⟩ := hpays m rfl
  rcases hfloor (haccepted ▸ rate_le) with hrelay | ⟨rate, hrate, -, -, hpaid⟩
  · exact absurd hrelay (not_pays hsigns)
  · exact ⟨log, m, hcourse, rate, hrate, hpaid⟩

/-- The original pays what is relayed, and the proposal does not. -/
theorem undercuts_relay_rate : ∃ (log : Log) (m : Making Sample.settings log),
    log.BeginsWith Sample.settings request ∧
    Course Sample.settings (.ended (.ok m.proposal)) log ∧
    Sample.settings.relayRate ≤ m.accepted.rate ∧ ¬m.signed.Pays Sample.settings.relayRate := by
  obtain ⟨log, m, hbegins, hcourse, haccepted, hsigns⟩ := proposed
  exact ⟨log, m, hbegins, hcourse, haccepted ▸ rate_le, not_pays hsigns⟩

end Attains.Sample

end Results

end Paydesk.Payjoin

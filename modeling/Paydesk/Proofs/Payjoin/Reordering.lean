import Paydesk.Proofs.Chain.Weight
import Paydesk.Proofs.Payjoin.FeeRate

/-!
The outputs of a draft stand in a random order. What they give for its fee does not depend
on the order, and is as much as is lacking or as much as they can give.
-/

namespace Paydesk.Payjoin

open Chain Wallet

namespace Draft

attribute [ext] FeeContribution

/-- A draft with other outputs, which have their roles with them. -/
def withOutputs (d : Draft) (outputs : List (OutputRole × TxOut)) : Draft :=
  { d with
    psbt := { d.psbt with tx := { d.psbt.tx with outputs := outputs.map Prod.snd } }
    roles := outputs.map Prod.fst }

theorem outputs_withOutputs (d : Draft) (outputs : List (OutputRole × TxOut)) :
    (d.withOutputs outputs).outputs = outputs := by
  simp [withOutputs, Draft.outputs, ← List.unzip_fst, ← List.unzip_snd, List.zip_unzip]

theorem spare_perm (p : OutputRole → Bool) {outputs outputs' : List (OutputRole × TxOut)}
    (h : outputs.Perm outputs') : spare p outputs = spare p outputs' :=
  total_eq_of_perm ((h.filter _).map _)

/-- What the outputs can give that the sender permits: the one that it names, up to its
maximum, or else all of its own. -/
def permitted (params : Params) (outputs : List (OutputRole × TxOut)) : Nat :=
  match params.feeContribution with
  | some (amount, index) => min amount (spare (· = .sender index) outputs)
  | none => spare OutputRole.isSender outputs

theorem senderBudget_spare (params : Params) (outputs : List (OutputRole × TxOut)) :
    senderBudget params (spare (senderEligible params) outputs) = permitted params outputs := by
  rw [senderBudget, senderEligible, permitted]
  cases params.feeContribution with
  | none => rfl
  | some contribution => exact Nat.min_comm _ _

theorem receiverBudget_eq_ite (due : Int) (params : Params) :
    receiverBudget due params = if due < 0 ∧ ¬params.keepOutputs then (-due).toNat else 0 := by
  unfold receiverBudget
  cases params.keepOutputs with
  | true => simp
  | false =>
      simp only [Bool.false_eq_true, if_false, not_false_eq_true, and_true]
      split <;> omega

theorem lowered_feeRate_eq (d : Draft) (rate : Nat) (due : Int) (params : Params) :
    (d.lowered rate due params).2.feeRate =
      feeRateOf (d.fee + (d.lowered rate due params).2.receiver +
        (d.lowered rate due params).2.sender) d.predictedWeight := rfl

section Reordered

variable {d : Draft} {outputs : List (OutputRole × TxOut)}
  (hd : d.roles.length = d.psbt.tx.outputs.length) (h : outputs.Perm d.outputs)
include hd h

theorem predictedWeight_withOutputs :
    (d.withOutputs outputs).predictedWeight = d.predictedWeight := by
  have hscripts : (outputs.map (·.2.script.length)).Perm
      (d.psbt.tx.outputs.map (·.script.length)) := by
    refine (h.map _).trans (.of_eq ?_)
    simpa [Draft.outputs, Function.comp_def] using
      congrArg (List.map fun output : TxOut => output.script.length)
        (List.map_snd_zip hd.ge)
  rw [predictedWeight, predictedWeight, ← predictWeight_perm (.refl _) hscripts]
  simp [withOutputs, Function.comp_def]

theorem lacking_withOutputs (rate : Nat) :
    (d.withOutputs outputs).lacking rate = d.lacking rate := by
  rw [lacking, predictedWeight_withOutputs hd h, lacking]
  rfl

theorem lowered_withOutputs (rate : Nat) (due : Int) (params : Params) :
    ((d.withOutputs outputs).lowered rate due params).2 = (d.lowered rate due params).2 := by
  have hlength : (d.withOutputs outputs).roles.length =
      (d.withOutputs outputs).psbt.tx.outputs.length := by simp [withOutputs]
  have hreceiver : ((d.withOutputs outputs).lowered rate due params).2.receiver =
      (d.lowered rate due params).2.receiver := by
    rw [lowered_receiver, lowered_receiver, lacking_withOutputs hd h, outputs_withOutputs,
      spare_perm _ h]
  have hsender : ((d.withOutputs outputs).lowered rate due params).2.sender =
      (d.lowered rate due params).2.sender := by
    rw [lowered_sender hlength, lowered_sender hd, hreceiver, lacking_withOutputs hd h,
      outputs_withOutputs, spare_perm _ h]
  have hfeeRate : ((d.withOutputs outputs).lowered rate due params).2.feeRate =
      (d.lowered rate due params).2.feeRate := by
    rw [lowered_feeRate_eq, lowered_feeRate_eq, hreceiver, hsender,
      predictedWeight_withOutputs hd h]
    rfl
  exact FeeContribution.ext hreceiver hsender hfeeRate

theorem preserveFeeRate_withOutputs (rate relayRate : Nat) (due : Int) (params : Params) :
    ((d.withOutputs outputs).preserveFeeRate rate due params relayRate).map Prod.snd =
      (d.preserveFeeRate rate due params relayRate).map Prod.snd := by
  rw [preserveFeeRate_eq_ite, preserveFeeRate_eq_ite, predictedWeight_withOutputs hd h,
    lacking_withOutputs hd h, lowered_withOutputs hd h]
  split
  · rfl
  · split
    · rfl
    · exact congrArg Except.ok (lowered_withOutputs hd h rate due params)

end Reordered

end Draft

section Results

open Draft

/-- Who adds how much to the fee does not depend on the order of the outputs, and neither
does whether that is enough. The receiver gives first, what is overpaid at most. That
every output has a role is what `contribute_shares` says of a draft. -/
theorem contributions_in_any_order {d : Draft}
    (hd : d.roles.length = d.psbt.tx.outputs.length) (rate relayRate : Nat) (due : Int)
    (params : Params) :
    (∀ outputs : List (OutputRole × TxOut), outputs.Perm d.outputs →
      ((d.withOutputs outputs).preserveFeeRate rate due params relayRate).map Prod.snd =
        (d.preserveFeeRate rate due params relayRate).map Prod.snd) ∧
    ∀ d' c, d.preserveFeeRate rate due params relayRate = .ok (d', c) →
      c.receiver = min (d.lacking rate)
        (min (if due < 0 ∧ ¬params.keepOutputs then (-due).toNat else 0)
          (spare OutputRole.isReceiver d.outputs)) ∧
      c.sender = min (d.lacking rate - c.receiver) (permitted params d.outputs) ∧
      c.feeRate = feeRateOf (d.fee + c.receiver + c.sender) d.predictedWeight := by
  refine ⟨fun outputs h => preserveFeeRate_withOutputs hd h rate relayRate due params, ?_⟩
  intro d' c h
  have hlowered := eq_lowered_of_ok h
  have hreceiver := d.lowered_receiver rate due params
  have hsender := lowered_sender hd rate due params
  have hfeeRate := d.lowered_feeRate_eq rate due params
  rw [hlowered] at hreceiver hsender hfeeRate
  rw [senderBudget_spare] at hsender
  rw [receiverBudget_eq_ite, Nat.min_assoc] at hreceiver
  exact ⟨hreceiver, hsender, hfeeRate⟩

theorem Draft.Sample.reversed_contributions :
    drafted.roles.length = drafted.psbt.tx.outputs.length ∧
    ((drafted.withOutputs drafted.outputs.reverse).preserveFeeRate accepted.rate (-100)
      Sample.params 250).map Prod.snd = .ok ⟨100, 200, 1778⟩ ∧
    100 = min (drafted.lacking accepted.rate)
      (min 100 (spare OutputRole.isReceiver drafted.outputs)) ∧
    200 = min (drafted.lacking accepted.rate - 100)
      (permitted Sample.params drafted.outputs) := by
  have hlength : drafted.roles.length = drafted.psbt.tx.outputs.length := rfl
  obtain ⟨hany, hgives⟩ :=
    contributions_in_any_order hlength accepted.rate 250 (-100) Sample.params
  obtain ⟨hreceiver, hsender, -⟩ := hgives _ _ preserveFeeRate_eq_settled
  dsimp only at hreceiver hsender
  rw [if_pos ⟨by decide, by decide⟩] at hreceiver
  refine ⟨hlength, ?_, hreceiver, hsender⟩
  exact (hany _ (List.reverse_perm _)).trans
    (congrArg (Except.map Prod.snd) preserveFeeRate_eq_settled)

end Results

end Paydesk.Payjoin

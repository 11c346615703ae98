import Mathlib.Logic.Relation
import Paydesk.Proofs.Payjoin.Fallback
import Paydesk.Proofs.Payjoin.Fees
import Paydesk.Proofs.Payjoin.Rounding

/-!
The fee of a draft and the rate that it comes to.
-/

namespace Paydesk.Payjoin

open Chain Wallet

namespace Draft

section Spare

variable {p : OutputRole → Bool} {role : OutputRole} {output : TxOut}
  {outputs : List (OutputRole × TxOut)}

/-- What the outputs of some roles can give until each is at its dust limit. -/
def spare (p : OutputRole → Bool) (outputs : List (OutputRole × TxOut)) : Nat :=
  total ((outputs.filter (p ·.1)).map fun output => output.2.value - dustLimit output.2.script)

theorem spare_cons_of_pos (h : p role) :
    spare p ((role, output) :: outputs) =
      output.value - dustLimit output.script + spare p outputs := by
  simp [spare, h]

theorem spare_cons_of_neg (h : p role = false) :
    spare p ((role, output) :: outputs) = spare p outputs := by
  simp [spare, h]

theorem spare_drained_of_not {eligible : OutputRole → Bool}
    (h : ∀ role, p role → eligible role = false) (budget : Nat)
    (outputs : List (OutputRole × TxOut)) :
    spare p (drained eligible budget outputs) = spare p outputs := by
  rw [spare, filter_drained_of_not h, spare]

/-- A drain takes its whole budget unless all outputs come down to dust. -/
theorem drain_eq_min (eligible : OutputRole → Bool) (budget : Nat)
    (outputs : List (OutputRole × TxOut)) :
    (drain eligible budget outputs).2 = min budget (spare eligible outputs) := by
  induction outputs generalizing budget with
  | nil => exact (Nat.min_zero budget).symm
  | cons output rest ih =>
      obtain ⟨role, output⟩ := output
      rw [drain_cons, ih]
      cases hrole : eligible role with
      | true =>
          rw [spare_cons_of_pos hrole, take, if_pos hrole]
          omega
      | false =>
          rw [spare_cons_of_neg hrole, take_of_not hrole]
          omega

theorem map_script_drain (eligible : OutputRole → Bool) (budget : Nat)
    (outputs : List (OutputRole × TxOut)) :
    (drain eligible budget outputs).1.map TxOut.script = outputs.map (·.2.script) := by
  induction outputs generalizing budget with
  | nil => rfl
  | cons output rest ih =>
      obtain ⟨role, output⟩ := output
      rw [drain_cons, List.map_cons, List.map_cons, ih]

theorem map_script_zip {roles : List OutputRole} {outputs : List TxOut}
    (h : roles.length = outputs.length) :
    (roles.zip outputs).map (·.2.script) = outputs.map TxOut.script := by
  simpa [Function.comp_def] using congrArg (List.map TxOut.script) (List.map_snd_zip h.ge)

end Spare

theorem predictedWeight_pos (d : Draft) : 0 < d.predictedWeight := by
  simp only [predictedWeight, predictWeight]
  omega

/-- What the outputs that may be lowered can add to the fee. -/
def coverable (d : Draft) (due : Int) (params : Params) : Nat :=
  min (receiverBudget due params) (spare OutputRole.isReceiver d.outputs) +
    senderBudget params (spare (senderEligible params) d.outputs)

/-- The fee once outputs are lowered as far as they have to be, or as they can be. -/
def settledFee (d : Draft) (rate : Nat) (due : Int) (params : Params) : Nat :=
  d.fee + min (d.lacking rate) (d.coverable due params)

section Preserve

variable {d d' : Draft} {rate relayRate : Nat} {due : Int} {params : Params} {c : FeeContribution}

theorem senderBudget_eq_min (params : Params) (additional spare : Nat) :
    min (senderBudget params additional) spare = min additional (senderBudget params spare) := by
  unfold senderBudget
  split <;> omega

theorem zip_between (hd : d.roles.length = d.psbt.tx.outputs.length)
    (eligible : OutputRole → Bool) (budget : Nat) :
    d.roles.zip (drain eligible budget (d.roles.zip d.psbt.tx.outputs)).1 =
      drained eligible budget d.outputs := by
  rw [drained, outputs, List.map_fst_zip hd.le]

/-- The receiver gives what is lacking, as far as it may and can. -/
theorem lowered_receiver (d : Draft) (rate : Nat) (due : Int) (params : Params) :
    (d.lowered rate due params).2.receiver =
      min (min (d.lacking rate) (receiverBudget due params))
        (spare OutputRole.isReceiver d.outputs) :=
  drain_eq_min _ _ _

/-- The sender gives what is lacking then, as far as it may and can. -/
theorem lowered_sender (hd : d.roles.length = d.psbt.tx.outputs.length) (rate : Nat) (due : Int)
    (params : Params) :
    (d.lowered rate due params).2.sender =
      min (d.lacking rate - (d.lowered rate due params).2.receiver)
        (senderBudget params (spare (senderEligible params) d.outputs)) := by
  calc
    _ = min (senderBudget params (d.lacking rate - (d.lowered rate due params).2.receiver))
        (spare (senderEligible params) (d.roles.zip _)) := drain_eq_min _ _ _
    _ = _ := by
      rw [zip_between hd, senderBudget_eq_min, spare_drained_of_not]
      intro role hrole
      exact OutputRole.isSender_iff.mp (senderEligible_isSender params hrole)

/-- What the receiver and the sender give together. -/
theorem lowered_gives (hd : d.roles.length = d.psbt.tx.outputs.length) (rate : Nat) (due : Int)
    (params : Params) :
    (d.lowered rate due params).2.receiver + (d.lowered rate due params).2.sender =
      min (d.lacking rate) (d.coverable due params) := by
  have hreceiver := d.lowered_receiver rate due params
  have hsender := lowered_sender hd rate due params
  rw [coverable]
  omega

theorem lowered_fee (hd : d.roles.length = d.psbt.tx.outputs.length) (rate : Nat) (due : Int)
    (params : Params) :
    (d.lowered rate due params).1.fee = d.settledFee rate due params := by
  rw [settledFee, ← lowered_gives hd, ← Nat.add_assoc]
  rfl

theorem lowered_feeRate (d : Draft) (rate : Nat) (due : Int) (params : Params) :
    (d.lowered rate due params).2.feeRate =
      feeRateOf (d.lowered rate due params).1.fee d.predictedWeight := rfl

theorem map_script_lowered (hd : d.roles.length = d.psbt.tx.outputs.length) (rate : Nat)
    (due : Int) (params : Params) :
    (d.lowered rate due params).1.psbt.tx.outputs.map TxOut.script =
      d.psbt.tx.outputs.map TxOut.script := by
  calc
    _ = (d.roles.zip _).map (fun output : OutputRole × TxOut => output.2.script) :=
      map_script_drain _ _ _
    _ = (drain OutputRole.isReceiver _ (d.roles.zip d.psbt.tx.outputs)).1.map TxOut.script := by
      refine map_script_zip ?_
      rw [length_drain, List.length_zip]
      omega
    _ = (d.roles.zip d.psbt.tx.outputs).map (·.2.script) := map_script_drain _ _ _
    _ = _ := map_script_zip hd

/-- Weights do not depend on values. -/
theorem lowered_predictedWeight (hd : d.roles.length = d.psbt.tx.outputs.length) (rate : Nat)
    (due : Int) (params : Params) :
    (d.lowered rate due params).1.predictedWeight = d.predictedWeight := by
  have hlengths := congrArg (List.map List.length) (map_script_lowered hd rate due params)
  rw [List.map_map, List.map_map] at hlengths
  exact congrArg (predictWeight d.inputWeights) hlengths

theorem fee_of_ok (h : d.preserveFeeRate rate due params relayRate = .ok (d', c)) :
    d'.fee = d.fee + c.receiver + c.sender := by
  obtain ⟨rfl, rfl⟩ := Prod.mk.inj (eq_lowered_of_ok h)
  rfl

theorem preserveFeeRate_eq_ok_iff (hd : d.roles.length = d.psbt.tx.outputs.length)
    (hrate : rate * d.predictedWeight < limit64) :
    d.preserveFeeRate rate due params relayRate = .ok (d', c) ↔
      d.lowered rate due params = (d', c) ∧
        (d.lacking rate ≤ d.coverable due params ∨
          params.minFeeRate.getD relayRate ≤ c.feeRate) := by
  rw [preserveFeeRate_eq_ite, if_neg (Nat.not_le.mpr hrate), lowered_gives hd]
  constructor
  · intro h
    split at h
    · cases h
    · rename_i hfloor
      obtain ⟨hd', rfl⟩ := Prod.ext_iff.mp (Except.ok.inj h)
      exact ⟨Prod.ext hd' rfl, by omega⟩
  · rintro ⟨h, hfloor⟩
    rw [h, if_neg (by dsimp only; omega)]

/-- Where nothing is lacking any more, the rate is reached. -/
theorem le_lowered_feeRate (hd : d.roles.length = d.psbt.tx.outputs.length)
    (hrate : rate * d.predictedWeight < limit64) (due : Int) (params : Params)
    (h : d.lacking rate ≤ d.coverable due params) :
    rate ≤ (d.lowered rate due params).2.feeRate := by
  rw [lowered_feeRate, lowered_fee hd]
  refine (le_feeRateOf_iff_feeFor_le d.predictedWeight_pos hrate).mpr ?_
  unfold settledFee
  unfold lacking at h ⊢
  omega

end Preserve

/-- What the outputs come to, and the fee. -/
def spending (d : Draft) : Nat := total (d.psbt.tx.outputs.map TxOut.value) + d.fee

/-- Outputs are lowered for some fee rate, and that is enough. -/
def Adjusts (d d' : Draft) : Prop :=
  ∃ rate due params relayRate c, d.preserveFeeRate rate due params relayRate = .ok (d', c)

section Spending

variable {d d' : Draft}

theorem worth_add_worth (outputs : List (OutputRole × TxOut)) :
    worth OutputRole.isReceiver outputs + worth OutputRole.isSender outputs =
      total (outputs.map (·.2.value)) := by
  induction outputs with
  | nil => rfl
  | cons output rest ih =>
      obtain ⟨role, output⟩ := output
      rw [List.map_cons, total_cons, ← ih]
      cases hrole : role.isReceiver with
      | true =>
          rw [worth_cons_of_pos hrole, worth_cons_of_neg (by simp [OutputRole.isSender, hrole]),
            Nat.add_assoc]
      | false =>
          rw [worth_cons_of_neg hrole, worth_cons_of_pos (OutputRole.isSender_iff.mpr hrole),
            Nat.add_left_comm]

theorem Labelled.spending_eq (hd : d.Labelled) :
    d.spending = worth OutputRole.isReceiver d.outputs + worth OutputRole.isSender d.outputs +
      d.fee := by
  have hvalues : d.outputs.map (·.2.value) = d.psbt.tx.outputs.map TxOut.value := by
    simpa [outputs, Function.comp_def] using
      congrArg (List.map TxOut.value) (List.map_snd_zip hd.length.ge)
  rw [spending, worth_add_worth, hvalues]

/-- What the outputs give, the fee gets. -/
theorem Adjusts.spending_eq (hd : d.Labelled) (h : Adjusts d d') :
    d'.Labelled ∧ d'.spending = d.spending := by
  obtain ⟨rate, due, params, relayRate, c, h⟩ := h
  have hsettles := preserveFeeRate_settles hd h
  have hreceiver := hsettles.receiverWorth
  have hsender := hsettles.senderWorth
  refine ⟨hsettles.labelled, ?_⟩
  rw [hsettles.labelled.spending_eq, hd.spending_eq, fee_of_ok h]
  omega

theorem spending_eq_of_adjusts (hd : d.Labelled) (h : Relation.ReflTransGen Adjusts d d') :
    d'.Labelled ∧ d'.spending = d.spending := by
  induction h with
  | refl => exact ⟨hd, rfl⟩
  | tail _ hlast ih =>
      obtain ⟨hlabelled, hspending⟩ := ih
      obtain ⟨hlabelled', hspending'⟩ := hlast.spending_eq hlabelled
      exact ⟨hlabelled', hspending'.trans hspending⟩

end Spending

theorem fee?_eq_some {p : Psbt} {fee : Nat} (h : p.fee? = some fee) :
    ∃ spent, p.previousOutputs? = some spent ∧
      total (spent.map TxOut.value) = total (p.tx.outputs.map TxOut.value) + fee := by
  unfold Psbt.fee? at h
  cases hspent : p.previousOutputs? with
  | none => simp [hspent] at h
  | some spent =>
      rw [hspent] at h
      simp only [Option.bind_eq_bind, Option.bind_some, Option.ite_none_right_eq_some,
        Option.some.injEq] at h
      obtain ⟨⟨-, -, hle⟩, rfl⟩ := h
      exact ⟨spent, rfl, (Nat.add_sub_cancel' hle).symm⟩

theorem total_eraseIdx {outputs : List TxOut} {payment : Nat} {paid : TxOut}
    (h : outputs[payment]? = some paid) :
    paid.value + total ((outputs.eraseIdx payment).map TxOut.value) =
      total (outputs.map TxOut.value) := by
  obtain ⟨hlt, rfl⟩ := List.getElem?_eq_some_iff.mp h
  exact total_eq_of_perm ((List.getElem_cons_eraseIdx_perm hlt).map TxOut.value)

section Contribute

variable {fallback : Psbt} {payment : Nat} {coins : List Coin} {kind type : ScriptType}
  {script : Option Script} {ws ws' : Words} {d : Draft}

/-- A draft pays what its fallback pays, and the coins besides. -/
theorem contribute_spending
    (h : contribute fallback payment coins type script ws = .ok (d, ws')) :
    d.Labelled ∧ ∃ spent, fallback.previousOutputs? = some spent ∧
      d.spending = total (spent.map TxOut.value) + total (coins.map (·.output.value)) := by
  obtain ⟨hfee, hlabelled, paid, hpaid, hshares⟩ := contribute_shares h
  obtain ⟨spent, hspent, htotal⟩ := fee?_eq_some hfee
  have hsplit := total_eraseIdx hpaid
  refine ⟨hlabelled, spent, hspent, ?_⟩
  rw [hlabelled.spending_eq, hshares.receiverWorth, hshares.senderWorth, htotal]
  omega

theorem exists_contribute (hcheck : Fallback.check fallback = .ok kind) {paid : TxOut}
    (hpaid : fallback.tx.outputs[payment]? = some paid)
    (hroom : paid.value + total (coins.map (·.output.value)) < limit64) :
    ∃ d ws', contribute fallback payment coins type script ws = .ok (d, ws') := by
  obtain ⟨-, -, -, -, hknown, -⟩ := Fallback.check_eq_ok_iff.mp hcheck
  obtain ⟨fee, hfee⟩ := Option.isSome_iff_exists.mp hknown
  obtain ⟨sequence, hsequence⟩ := Fallback.exists_sequence hcheck ws
  rw [contribute_eq_ite hfee hsequence hpaid, if_neg (Nat.not_le.mpr hroom)]
  exact ⟨_, _, rfl⟩

end Contribute

end Draft

section Results

open Draft

variable {fallback : Psbt} {payment rate : Nat} {coins : List Coin}
  {kind type : ScriptType} {script : Option Script} {ws : Words} {d : Draft} {due : Int}
  {params : Params}

/-- The fee that is kept with a draft is what its inputs are worth above its
outputs. It is so from the first draft on, and however often outputs are lowered. -/
theorem draft_pays_its_fee (hcheck : Fallback.check fallback = .ok kind) :
    ∃ spent, fallback.previousOutputs? = some spent ∧
      (∀ paid, fallback.tx.outputs[payment]? = some paid →
        paid.value + total (coins.map (·.output.value)) < limit64 →
        ∃ d ws', contribute fallback payment coins type script ws = .ok (d, ws')) ∧
      ∀ d ws' d', contribute fallback payment coins type script ws = .ok (d, ws') →
        Relation.ReflTransGen Adjusts d d' →
        total (spent.map TxOut.value) + total (coins.map (·.output.value)) =
          total (d'.psbt.tx.outputs.map TxOut.value) + d'.fee := by
  obtain ⟨-, -, -, -, hknown, -⟩ := Fallback.check_eq_ok_iff.mp hcheck
  obtain ⟨fee, hfee⟩ := Option.isSome_iff_exists.mp hknown
  obtain ⟨spent, hspent, -⟩ := fee?_eq_some hfee
  refine ⟨spent, hspent, fun paid hpaid hroom => exists_contribute hcheck hpaid hroom, ?_⟩
  intro d ws' d' hcontribute hadjusts
  obtain ⟨hlabelled, spent', hspent', hspending⟩ := contribute_spending hcontribute
  obtain rfl := Option.some.inj (hspent.symm.trans hspent')
  rw [← hspending, ← (spending_eq_of_adjusts hlabelled hadjusts).2]
  rfl

theorem Draft.Sample.settled_pays_its_fee :
    Fallback.check accepted.psbt = .ok .segwit ∧
    Draft.contribute accepted.psbt target.index [Draft.Sample.coin] .segwit none [] =
      .ok (drafted, []) ∧
    Relation.ReflTransGen Adjusts drafted settled ∧
    spent.value + Draft.Sample.coin.output.value =
      total (settled.psbt.tx.outputs.map TxOut.value) + settled.fee := by
  have hadjusts : Relation.ReflTransGen Adjusts drafted settled :=
    .single ⟨_, _, _, _, _, preserveFeeRate_eq_settled⟩
  obtain ⟨known, hknown, -, hpays⟩ := draft_pays_its_fee accepted_sound.check
  obtain rfl : known = [spent] := Option.some.inj (hknown.symm.trans rfl)
  exact ⟨accepted_sound.check, contribute_eq_drafted, hadjusts,
    hpays drafted [] settled contribute_eq_drafted hadjusts⟩

/-- Where no amounts are out of range, outputs are lowered exactly if those that may be
cover what is lacking, or if the rate that comes of it is at the floor. Rounding never
takes the rate below that of the fallback, nor below what the sender asks for. -/
theorem preserves_fee_rate_iff (relayRate : Nat)
    (hd : d.roles.length = d.psbt.tx.outputs.length)
    (hrate : rate * d.predictedWeight < limit64)
    (hfee : 1000 * d.settledFee rate due params < limit64) :
    ((∃ d' c, d.preserveFeeRate rate due params relayRate = .ok (d', c)) ↔
      d.lacking rate ≤ d.coverable due params ∨
        params.minFeeRate.getD relayRate ≤
          1000 * d.settledFee rate due params / d.predictedWeight) ∧
    ∀ d' c, d.preserveFeeRate rate due params relayRate = .ok (d', c) →
      c.receiver + c.sender = min (d.lacking rate) (d.coverable due params) ∧
      d'.fee = d.fee + c.receiver + c.sender ∧
      c.feeRate = 1000 * (d.fee + c.receiver + c.sender) / d.predictedWeight ∧
      (d.lacking rate ≤ c.receiver + c.sender → rate ≤ c.feeRate) ∧
      (∀ asked, params.minFeeRate = some asked → asked ≤ rate → asked ≤ c.feeRate) ∧
      d'.predictedWeight = d.predictedWeight := by
  have hgives := lowered_gives hd rate due params
  have hreached : (d.lowered rate due params).2.feeRate =
      1000 * d.settledFee rate due params / d.predictedWeight := by
    rw [lowered_feeRate, lowered_fee hd, feeRateOf_eq hfee]
  constructor
  · simp only [preserveFeeRate_eq_ok_iff hd hrate, ← hreached]
    constructor
    · rintro ⟨d', c, hlowered, hfloor⟩
      rwa [hlowered]
    · intro hfloor
      exact ⟨_, _, rfl, hfloor⟩
  · intro d' c h
    obtain ⟨hlowered, hfloor⟩ := (preserveFeeRate_eq_ok_iff hd hrate).mp h
    have hcovered := le_lowered_feeRate hd hrate due params
    have hweight := lowered_predictedWeight hd rate due params
    rw [hlowered] at hgives hreached hcovered hweight
    dsimp only at hgives hreached hcovered hweight
    refine ⟨hgives, fee_of_ok h, ?_, fun hle => hcovered (by omega), ?_, hweight⟩
    · rw [hreached, settledFee, ← hgives, Nat.add_assoc]
    · intro asked hasked hle
      rcases hfloor with hfull | hfloor
      · exact hle.trans (hcovered hfull)
      · rwa [hasked] at hfloor

theorem Draft.Sample.settled_feeRate :
    drafted.roles.length = drafted.psbt.tx.outputs.length ∧
    accepted.rate * drafted.predictedWeight < limit64 ∧
    1000 * drafted.settledFee accepted.rate (-100) Sample.params < limit64 ∧
    drafted.preserveFeeRate accepted.rate (-100) Sample.params 250 =
      .ok (settled, ⟨100, 200, 1778⟩) ∧
    250 ≤ 1000 * drafted.settledFee accepted.rate (-100) Sample.params / drafted.predictedWeight ∧
    1778 = 1000 * (1000 + 100 + 200) / drafted.predictedWeight ∧
    settled.predictedWeight = drafted.predictedWeight := by
  have hrate : accepted.rate * drafted.predictedWeight < limit64 := by decide +kernel
  have hfee : 1000 * drafted.settledFee accepted.rate (-100) Sample.params < limit64 := by
    decide +kernel
  obtain ⟨hiff, hok⟩ := preserves_fee_rate_iff 250 rfl hrate hfee
  have hfloor := (hiff.mp ⟨_, _, preserveFeeRate_eq_settled⟩).resolve_left (by decide +kernel)
  obtain ⟨-, -, hfeeRate, -, -, hweight⟩ := hok _ _ preserveFeeRate_eq_settled
  exact ⟨rfl, hrate, hfee, preserveFeeRate_eq_settled, hfloor, hfeeRate, hweight⟩

end Results

end Paydesk.Payjoin

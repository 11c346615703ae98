import Paydesk.Proofs.Payjoin.Ranges

/-!
What the checks of a fallback come to together, and that nothing is missing for a proposal
once they are passed.
-/

namespace Paydesk.Payjoin

open Chain Wallet

namespace Fallback

/-- What is known about an input is the output that it spends. Where the transaction
before it is given, the output is the one that the input names. -/
def Spends (input : TxIn) (known : PsbtInput) : Prop :=
  ∃ output, known.previousOutput? input.previous.vout = some output ∧
    ∀ tx, known.previousTx = some tx →
      tx.txid = input.previous.txid ∧ tx.outputs[input.previous.vout]? = some output

/-- A fallback that a proposal can be made of. -/
structure Admitted (p : Psbt) (type : ScriptType) : Prop where
  types : ∀ pair ∈ p.inputPairs, ScriptType.ofInput? pair.1 pair.2 = some type
  inputs : p.tx.inputs ≠ []
  outputs : p.tx.outputs ≠ []
  inputCount : p.inputs.length = p.tx.inputs.length
  outputCount : p.outputs.length = p.tx.outputs.length
  once : p.tx.outPoints.Nodup
  spends : ∀ pair ∈ p.inputPairs, Spends pair.1 pair.2
  money : ∃ spent, p.previousOutputs? = some spent ∧
    total (spent.map TxOut.value) ≤ Amount.maxMoney ∧
    total (p.tx.outputs.map TxOut.value) ≤ Amount.maxMoney ∧
    total (p.tx.outputs.map TxOut.value) ≤ total (spent.map TxOut.value)
  anonymous : p.hasKeyOrigins = false
  final : p.isFinal

section Checks

variable {p : Psbt} {type : ScriptType}

theorem inputType?_eq_some_iff : inputType? p = some type ↔
    p.inputPairs ≠ [] ∧
      ∀ pair ∈ p.inputPairs, ScriptType.ofInput? pair.1 pair.2 = some type := by
  unfold inputType?
  cases p.inputPairs with
  | nil => simp
  | cons pair pairs =>
      cases hfirst : ScriptType.ofInput? pair.1 pair.2 with
      | none => simp [hfirst]
      | some first =>
          simp only [List.map_cons, hfirst, Option.ite_none_right_eq_some, List.all_map,
            List.all_eq_true, Function.comp_apply, beq_iff_eq, Option.some.injEq, ne_eq,
            reduceCtorEq, not_false_eq_true, true_and, List.forall_mem_cons]
          constructor
          · rintro ⟨hall, rfl⟩
            exact ⟨rfl, hall⟩
          · rintro ⟨rfl, hall⟩
            exact ⟨hall, rfl⟩

theorem checkCounts_eq_ok_iff : checkCounts p = .ok () ↔
    p.inputs.length = p.tx.inputs.length ∧ p.outputs.length = p.tx.outputs.length := by
  unfold checkCounts
  split
  · simp_all
  · split <;> simp_all

theorem checkSanity_eq_ok_iff : checkSanity p = .ok () ↔
    p.tx.outputs ≠ [] ∧ p.tx.outPoints.Nodup ∧
      total ((knownOutputs p).map TxOut.value) ≤ Amount.maxMoney ∧
      total (p.tx.outputs.map TxOut.value) ≤ Amount.maxMoney ∧
      ((knownOutputs p).length = p.inputPairs.length →
        total (p.tx.outputs.map TxOut.value) ≤ total ((knownOutputs p).map TxOut.value)) := by
  have hnodup : p.tx.outPoints.Nodup ↔ duplicate? [] p.tx.outPoints = none := by
    simp [duplicate?_eq_none_iff]
  rw [hnodup, checkSanity]
  cases hduplicate : duplicate? [] p.tx.outPoints with
  | some input => by_cases houtputs : p.tx.outputs = [] <;> simp [houtputs, bind, Except.bind]
  | none => simp [ite_error_eq_ok, ite_error_pure_eq_ok]

theorem checkUtxo_eq_ok_iff (index : Nat) (input : TxIn) (known : PsbtInput) :
    checkUtxo index input known = .ok () ↔ Spends input known := by
  unfold checkUtxo Spends PsbtInput.previousOutput?
  rcases known.previousTx with _ | tx
  · rcases known.previousOutput with _ | output <;> simp
  · by_cases hid : tx.txid = input.previous.txid
    · cases hfound : tx.outputs[input.previous.vout]? with
      | none => rcases known.previousOutput with _ | output <;> simp [hid, hfound]
      | some found =>
          rcases known.previousOutput with _ | output
          · simp [hid, hfound]
          · simp [hid, hfound]
    · simp [hid]

theorem checkUtxosFrom_eq_ok_iff (index : Nat) (pairs : List (TxIn × PsbtInput)) :
    checkUtxosFrom index pairs = .ok () ↔ ∀ pair ∈ pairs, Spends pair.1 pair.2 := by
  induction pairs generalizing index with
  | nil => simp [checkUtxosFrom]
  | cons pair pairs ih =>
      rw [checkUtxosFrom, bind_eq_ok, List.forall_mem_cons, ← checkUtxo_eq_ok_iff index,
        ← ih (index + 1)]
      constructor
      · rintro ⟨⟨⟩, hpair, hpairs⟩
        exact ⟨hpair, hpairs⟩
      · rintro ⟨hpair, hpairs⟩
        exact ⟨(), hpair, hpairs⟩

/-- The fee is what is spent above what is paid, where no sum is out of range. -/
theorem fee?_eq_sub {spent : List TxOut} (hspent : p.previousOutputs? = some spent)
    (hinputs : total (spent.map TxOut.value) ≤ Amount.maxMoney)
    (houtputs : total (p.tx.outputs.map TxOut.value) ≤ Amount.maxMoney)
    (hle : total (p.tx.outputs.map TxOut.value) ≤ total (spent.map TxOut.value)) :
    p.fee? = some (total (spent.map TxOut.value) - total (p.tx.outputs.map TxOut.value)) := by
  have hlimit : Amount.maxMoney < limit64 := by decide
  rw [Psbt.fee?, hspent]
  exact if_pos ⟨hinputs.trans_lt hlimit, houtputs.trans_lt hlimit, hle⟩

theorem Admitted.exists_fee (h : Admitted p type) : ∃ spent, p.previousOutputs? = some spent ∧
    p.fee? = some (total (spent.map TxOut.value) - total (p.tx.outputs.map TxOut.value)) := by
  obtain ⟨spent, hspent, hinputs, houtputs, hle⟩ := h.money
  exact ⟨spent, hspent, fee?_eq_sub hspent hinputs houtputs hle⟩

/-- The checks together ask for what a proposal needs, and for nothing else. -/
theorem check_eq_ok_iff_admitted : check p = .ok type ↔ Admitted p type := by
  rw [check_eq_ok_iff, inputType?_eq_some_iff, checkCounts_eq_ok_iff, checkSanity_eq_ok_iff,
    checkUtxosFrom_eq_ok_iff]
  constructor
  · rintro ⟨⟨hpairs, htypes⟩, ⟨hinputCount, houtputCount⟩, ⟨houtputs, honce, hinputsLe,
      houtputsLe, -⟩, hspends, hfee, hanonymous, hfinal⟩
    obtain ⟨fee, hfee⟩ := Option.isSome_iff_exists.mp hfee
    obtain ⟨spent, hspent, htotal⟩ := Draft.fee?_eq_some hfee
    rw [knownOutputs_eq hspent] at hinputsLe
    exact
      { types := htypes
        inputs := fun hnil => hpairs (by simp [Psbt.inputPairs, hnil])
        outputs := houtputs
        inputCount := hinputCount
        outputCount := houtputCount
        once := honce
        spends := hspends
        money := ⟨spent, hspent, hinputsLe, houtputsLe, by omega⟩
        anonymous := hanonymous
        final := hfinal }
  · intro h
    obtain ⟨spent, hspent, hinputs, houtputs, hle⟩ := h.money
    have hpairs : p.inputPairs ≠ [] := by
      have hinputs := List.length_pos_iff.mpr h.inputs
      have hcount := h.inputCount
      rw [← List.length_pos_iff, Psbt.inputPairs, List.length_zip]
      omega
    have hknown := knownOutputs_eq hspent
    refine ⟨⟨hpairs, h.types⟩, ⟨h.inputCount, h.outputCount⟩, ⟨h.outputs, h.once, ?_, houtputs, ?_⟩,
      h.spends, ?_, h.anonymous, h.final⟩
    · rwa [hknown]
    · exact fun _ => hknown ▸ hle
    · rw [fee?_eq_sub hspent hinputs houtputs hle]
      rfl

end Checks

end Fallback

namespace Draft

section Contribute

variable {fallback : Psbt} {payment : Nat} {coins : List Coin} {type : ScriptType}
  {change : Option Script} {ws ws' : Words} {d : Draft}

/-- A draft is a transaction that nothing is signed of yet. -/
theorem contribute_unsigned (h : contribute fallback payment coins type change ws = .ok (d, ws')) :
    ∀ input ∈ d.psbt.tx.inputs, input.signatureScript = [] ∧ input.witness = [] := by
  obtain ⟨fee, sequence, paid, -, -, -, -, hd⟩ := contribute_eq_ok h
  obtain rfl : d = _ := congrArg Prod.fst hd
  intro input hinput
  obtain ⟨i, -, rfl⟩ := List.mem_map.mp hinput
  exact ⟨rfl, rfl⟩

/-- Nothing is spent twice as long as the coins are others than those of the fallback. -/
theorem contribute_nodup (honce : fallback.extract.outPoints.Nodup)
    (hcoins : ∀ coin ∈ coins, coin.outPoint ∉ fallback.extract.outPoints)
    (hdistinct : (coins.map Coin.outPoint).Nodup)
    (h : contribute fallback payment coins type change ws = .ok (d, ws')) :
    d.psbt.tx.outPoints.Nodup := by
  refine (contribute_merges hcoins h).inputs.nodup_iff.mpr
    (List.nodup_append.mpr ⟨honce, hdistinct, ?_⟩)
  rintro o ho _ hcoin rfl
  obtain ⟨coin, hmem, rfl⟩ := List.mem_map.mp hcoin
  exact hcoins coin hmem ho

end Contribute

end Draft

section Results

open Fallback

variable {p : Psbt} {type : ScriptType}

/-- Nothing that a proposal needs is missing from a fallback that passed its checks. Its fee
is known wherever it is asked for, and coins can be added to it whatever output is the
payment. Only a payment that grows out of range stops that. -/
theorem admitted_supports_proposal (h : check p = .ok type) :
    Admitted p type ∧
    ∃ spent fee, p.previousOutputs? = some spent ∧
      fee = total (spent.map TxOut.value) - total (p.tx.outputs.map TxOut.value) ∧
      p.fee? = some fee ∧
      (∀ format params, Submission.examine p format params =
        .wait (.probing ⟨p, p.extract, format, params, type,
          Draft.feeRateOf fee p.extract.weight⟩)) ∧
      ∀ payment paid, p.tx.outputs[payment]? = some paid →
        ∀ (coins : List Coin) (kind : ScriptType) (change : Option Script) (ws : Words),
          (∀ e, Draft.contribute p payment coins kind change ws = .error e →
            e = .overflow ∧ limit64 ≤ paid.value + total (coins.map (·.output.value))) ∧
          (paid.value + total (coins.map (·.output.value)) < limit64 →
            ∃ d ws', Draft.contribute p payment coins kind change ws = .ok (d, ws') ∧
              (∀ input ∈ d.psbt.tx.inputs, input.signatureScript = [] ∧ input.witness = []) ∧
              ((∀ coin ∈ coins, coin.outPoint ∉ p.tx.outPoints) →
                (coins.map Coin.outPoint).Nodup → d.psbt.tx.outPoints.Nodup)) := by
  have hadmitted := check_eq_ok_iff_admitted.mp h
  obtain ⟨spent, hspent, hfee⟩ := hadmitted.exists_fee
  refine ⟨hadmitted, spent, _, hspent, rfl, hfee, ?_, ?_⟩
  · intro format params
    simp only [Submission.examine, h, hfee]
  · intro payment paid hpaid coins kind change ws
    constructor
    · intro e he
      obtain ⟨sequence, hsequence⟩ := Fallback.exists_sequence h ws
      rw [Draft.contribute_eq_ite hfee hsequence hpaid] at he
      split at he
      · rename_i hlarge
        exact ⟨(Except.error.inj he).symm, hlarge⟩
      · cases he
    · intro hroom
      obtain ⟨d, ws', hcontribute⟩ := Draft.exists_contribute h hpaid hroom
      refine ⟨d, ws', hcontribute, Draft.contribute_unsigned hcontribute, ?_⟩
      intro hcoins hdistinct
      have hextract := outPoints_extract hadmitted.inputCount
      exact Draft.contribute_nodup (hextract ▸ hadmitted.once) (hextract ▸ hcoins) hdistinct
        hcontribute

theorem Draft.Sample.accepted_supports_proposal :
    check accepted.psbt = .ok .segwit ∧
    Admitted accepted.psbt .segwit ∧
    accepted.psbt.fee? = some (total ([spent].map TxOut.value) -
      total (accepted.psbt.tx.outputs.map TxOut.value)) ∧
    ∃ d ws', Draft.contribute accepted.psbt target.index [coin] .segwit none [] = .ok (d, ws') ∧
      d.psbt.tx.outPoints.Nodup := by
  obtain ⟨hadmitted, known, fee, hknown, hsub, hfee, -, hcontribute⟩ :=
    admitted_supports_proposal accepted_sound.check
  obtain rfl : known = [spent] := Option.some.inj (hknown.symm.trans rfl)
  rw [hsub] at hfee
  obtain ⟨d, ws', hd, -, hnodup⟩ :=
    (hcontribute target.index ⟨5000, deposit⟩ rfl [coin] .segwit none []).2 (by decide)
  exact ⟨accepted_sound.check, hadmitted, hfee, d, ws', hd,
    hnodup (by decide) (List.nodup_singleton _)⟩

end Results

end Paydesk.Payjoin

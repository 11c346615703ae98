import Paydesk.Proofs.Payjoin.Joined
import Paydesk.Proofs.Payjoin.Received

/-!
How large the numbers of a submission become: what is spent and paid is money that there
is, and weights are bounded by the body that a fallback comes in.
-/

namespace Paydesk.Payjoin

open Chain Wallet Invoices

namespace Fallback

variable {p : Psbt} {type : ScriptType}

theorem filterMap_of_mapM {α β : Type} {f : α → Option β} {as : List α} {bs : List β}
    (h : as.mapM f = some bs) : as.filterMap f = bs := by
  induction as generalizing bs with
  | nil =>
      obtain rfl := Option.some.inj h
      rfl
  | cons a as ih =>
      rw [List.mapM_cons] at h
      obtain ⟨b, hb, h⟩ := Option.bind_eq_some_iff.mp h
      obtain ⟨rest, hrest, h⟩ := Option.bind_eq_some_iff.mp h
      obtain rfl := Option.some.inj h
      rw [List.filterMap_cons_some hb, ih hrest]

theorem knownOutputs_eq {spent : List TxOut} (h : p.previousOutputs? = some spent) :
    knownOutputs p = spent := filterMap_of_mapM h

/-- No more is spent or paid than there is money. -/
theorem total_le_of_checkSanity (h : checkSanity p = .ok ()) :
    total ((knownOutputs p).map TxOut.value) ≤ Amount.maxMoney ∧
      total (p.tx.outputs.map TxOut.value) ≤ Amount.maxMoney := by
  have hduplicate := duplicate?_of_checkSanity h
  simp only [checkSanity, hduplicate, ite_error_eq_ok] at h
  exact ⟨Nat.le_of_not_lt h.2.1, Nat.le_of_not_lt h.2.2.1⟩

theorem total_outputs_le (h : check p = .ok type) :
    total (p.tx.outputs.map TxOut.value) ≤ Amount.maxMoney := by
  obtain ⟨-, -, hsane, -⟩ := check_eq_ok_iff.mp h
  exact (total_le_of_checkSanity hsane).2

theorem fee_le (h : check p = .ok type) {fee : Nat} (hfee : p.fee? = some fee) :
    fee ≤ Amount.maxMoney := by
  obtain ⟨-, -, hsane, -⟩ := check_eq_ok_iff.mp h
  obtain ⟨spent, hspent, htotal⟩ := Draft.fee?_eq_some hfee
  have hknown := (total_le_of_checkSanity hsane).1
  rw [knownOutputs_eq hspent] at hknown
  omega

end Fallback

/-- What an input carries once its final script and witness are put in. -/
theorem finalWeight_eq_data {input : TxIn} {known : PsbtInput}
    (h : input.signatureScript = [] ∧ input.witness = []) :
    Draft.finalWeight input known =
      TxIn.data { input with
        signatureScript := known.finalScript.getD []
        witness := known.finalWitness.getD [] } := by
  rw [Draft.finalWeight, TxIn.data, h.1, h.2]
  rcases known.finalWitness with _ | _ | ⟨item, items⟩ <;> rfl

/-- What the inputs of a fallback weigh. -/
def finalWeights (p : Psbt) : List InputWeight :=
  p.inputPairs.map fun (input, known) => Draft.finalWeight input known

section Weights

variable {p : Psbt} {n : Nat}

theorem ids_extract (hp : p.Received n) :
    ∀ i ∈ p.extract.inputs, i.previous.txid.length = 32 := by
  intro i hi
  obtain ⟨⟨input, known⟩, hmem, rfl⟩ := List.mem_map.mp hi
  exact hp.ids input (List.of_mem_zip hmem).1

theorem weight_extract (hp : p.Received n) (hinputs : p.extract.inputs ≠ []) :
    p.extract.weight = predictWeight (finalWeights p) (p.tx.outputs.map (·.script.length)) := by
  have hdata : p.extract.inputs.map TxIn.data = finalWeights p := by
    rw [Psbt.extract, List.map_map]
    refine List.map_congr_left fun pair hpair => ?_
    exact (finalWeight_eq_data (hp.unsigned pair.1 (List.of_mem_zip hpair).1)).symm
  rw [Transaction.weight_eq_predictWeight (ids_extract hp) hinputs, hdata]
  rfl

theorem weight_inputWeight_le (type : ScriptType) : type.inputWeight.weight ≤ 432 := by
  cases type <;> decide

variable {payment : Nat} {coin : Coin} {type : ScriptType} {change : Option Script}
  {ws ws' : Words} {d : Draft}

theorem inputWeights_perm
    (h : Draft.contribute p payment [coin] type change ws = .ok (d, ws')) :
    d.inputWeights.Perm (finalWeights p ++ [type.inputWeight]) := by
  obtain ⟨fee, sequence, paid, -, -, -, -, hd⟩ := Draft.contribute_eq_ok h
  obtain rfl : d = _ := congrArg Prod.fst hd
  have hperm := (Words.shuffle_perm (Draft.gathered p [coin] type sequence)
    (Draft.addDecoy (total ([coin].map (·.output.value))) change
      (Draft.growPayment p.tx.outputs payment (total ([coin].map (·.output.value))))
      (ws.choose? (p.tx.inputs.map TxIn.sequence)).2).2).map DraftInput.weight
  have hweights : (Draft.gathered p [coin] type sequence).map DraftInput.weight =
      finalWeights p ++ [type.inputWeight] := by
    simp [finalWeights, Draft.gathered, Draft.coinInput, Function.comp_def]
  rwa [hweights] at hperm

/-- A draft weighs at most seven times what its fallback weighs. -/
theorem predictedWeight_le (hp : p.Received n) (hinputs : p.extract.inputs ≠ [])
    (hchange : ∀ script, change = some script → script.length ≤ 34)
    (h : Draft.contribute p payment [coin] type change ws = .ok (d, ws')) :
    d.predictedWeight ≤ 7 * p.extract.weight := by
  obtain ⟨more, hmore, hscripts⟩ := (Draft.contribute_extends h).outputs
  have hlengths : (d.psbt.tx.outputs.map (·.script.length)).Perm
      (p.tx.outputs.map (·.script.length) ++ more.map List.length) := by
    simpa [Function.comp_def] using hscripts.map List.length
  have hshort : more.map List.length = [] ∨ ∃ n ≤ 34, more.map List.length = [n] := by
    rcases hmore with rfl | ⟨-, script, hscript, rfl⟩
    · exact .inl rfl
    · exact .inr ⟨script.length, hchange script hscript, rfl⟩
  have hpairs : finalWeights p ≠ [] := by simpa [finalWeights, Psbt.extract] using hinputs
  rw [Draft.predictedWeight, predictWeight_perm (inputWeights_perm h) hlengths,
    weight_extract hp hinputs]
  exact predictWeight_append_le hpairs (weight_inputWeight_le type) hshort

end Weights

section Scripts

theorem dustLimit_le (script : Script) : dustLimit script ≤ 3 * (165 + script.length) := by
  have hcount := countSize_le script.length
  unfold dustLimit
  rw [length_encodeBlob, length_encodeCount]
  dsimp only
  split_ifs <;> omega

theorem dust_lt {script : Script} (h : script.length ≤ Request.maxLength) :
    1000 * dustLimit script < limit64 := by
  have hdust := dustLimit_le script
  unfold Request.maxLength at h
  unfold limit64
  omega

theorem length_script_le {tx : Transaction} {script : Script}
    (h : script ∈ tx.outputs.map TxOut.script) : script.length ≤ tx.size := by
  obtain ⟨output, houtput, rfl⟩ := List.mem_map.mp h
  have hsize : output.size ≤ total (tx.outputs.map TxOut.size) :=
    le_total_of_mem (List.mem_map_of_mem houtput)
  rw [TxOut.size] at hsize
  rw [Transaction.size]
  omega

end Scripts

/-- A draft whose weight and fee, also at some rate, and whose least amounts can be
found with 64 bits. -/
structure Draft.InRange (rate : Nat) (d : Draft) : Prop where
  weight : d.predictedWeight < limit64
  expected : rate * d.predictedWeight < limit64
  fee : d.fee < limit64
  dust : ∀ output ∈ d.psbt.tx.outputs, 1000 * dustLimit output.script < limit64

section Accepted

variable {a : Accepted} {t : Target}

theorem Accepted.Sound.extract_inputs_ne_nil (ha : a.Sound) : a.psbt.extract.inputs ≠ [] := by
  simpa [Psbt.extract] using Fallback.inputPairs_ne_nil ha.check

theorem weight_lt {p : Psbt} (hp : p.Received Request.maxLength) (hinputs : p.extract.inputs ≠ []) :
    7 * p.extract.weight < limit64 := by
  have hweight := Transaction.weight_le (ids_extract hp) hinputs
  have hsize := hp.size
  unfold Request.maxLength at hsize
  unfold limit64
  omega

section Drafting

variable {coin : Coin} {type : ScriptType} {change : Option Script} {ws ws' : Words} {d : Draft}
  (hp : a.psbt.Received Request.maxLength)
  (hchange : ∀ script, change = some script → script.length ≤ 34)
  (h : Draft.contribute a.psbt t.index [coin] type change ws = .ok (d, ws'))
include hp hchange h

theorem length_script_le_of_contribute :
    ∀ output ∈ d.psbt.tx.outputs, output.script.length ≤ Request.maxLength := by
  intro output houtput
  obtain ⟨more, hmore, hscripts⟩ := (Draft.contribute_extends h).outputs
  rcases List.mem_append.mp (hscripts.subset (List.mem_map_of_mem houtput)) with hold | hnew
  · have hextracted : output.script.length ≤ a.psbt.extract.size := length_script_le hold
    exact hextracted.trans hp.size
  · rcases hmore with rfl | ⟨-, script, hscript, rfl⟩
    · cases hnew
    · rw [List.mem_singleton.mp hnew]
      exact Nat.le_trans (hchange script hscript) (by decide)

/-- The rate is found for a weight that does not vanish next to that of a draft. So the
fee that it asks for a draft is a few times that of the fallback. -/
theorem inRange_of_contribute (ha : a.Sound) : d.InRange a.rate := by
  have hinputs := ha.extract_inputs_ne_nil
  have hweight := predictedWeight_le hp hinputs hchange h
  have hlargest := weight_lt hp hinputs
  obtain ⟨hfee, -⟩ := Draft.contribute_shares h
  obtain ⟨fee, hfee', hrate⟩ := ha.fee
  obtain rfl : fee = d.fee := Option.some.inj (hfee'.symm.trans hfee)
  have hmoney := Fallback.fee_le ha.check hfee
  have hexpected : a.rate * d.predictedWeight ≤ 7 * (1000 * d.fee) := by
    calc
      _ ≤ a.rate * (7 * a.psbt.extract.weight) := Nat.mul_le_mul_left _ hweight
      _ = 7 * (a.rate * a.psbt.extract.weight) := Nat.mul_left_comm ..
      _ ≤ 7 * (1000 * d.fee) := by
        rw [hrate, ha.fallback]
        exact Nat.mul_le_mul_left _ (Draft.feeRateOf_mul_le _ _)
  unfold Amount.maxMoney Amount.coin at hmoney
  exact
    { weight := Nat.lt_of_le_of_lt hweight hlargest
      expected := by
        unfold limit64
        omega
      fee := by
        unfold limit64
        omega
      dust := fun output houtput =>
        dust_lt (length_script_le_of_contribute hp hchange h output houtput) }

end Drafting

theorem exists_paid (ha : a.Sound) (ht : t.Sound a) : ∃ paid,
    a.psbt.tx.outputs[t.index]? = some paid ∧ Submission.paidValue a t = paid.value := by
  obtain ⟨paid, hpaid, -⟩ := ht.output
  refine ⟨paid, ?_, by rw [Submission.paidValue, hpaid]; rfl⟩
  rw [← hpaid, ha.fallback]
  rfl

/-- What is paid is a part of the money that there is. -/
theorem paidValue_add_le (ha : a.Sound) (ht : t.Sound a) :
    Submission.paidValue a t +
        total ((a.fallback.outputs.eraseIdx t.index).map TxOut.value) ≤ Amount.maxMoney := by
  obtain ⟨paid, hpaid, hvalue⟩ := exists_paid ha ht
  rw [hvalue, ha.fallback]
  exact (Draft.total_eraseIdx hpaid).trans_le (Fallback.total_outputs_le ha.check)

theorem paidValue_add_lt (ha : a.Sound) (ht : t.Sound a) {coin : Coin}
    (hcoin : coin.output.value ≤ Amount.maxMoney) :
    Submission.paidValue a t + coin.output.value < limit64 := by
  have hpaid := paidValue_add_le ha ht
  have hlimit : Amount.maxMoney + Amount.maxMoney < limit64 := by decide
  omega

/-- The receiver gives no more than was paid. -/
theorem receiver_le_paid {d priced : Draft} {rate due paid relayRate : Nat} {params : Params}
    {c : Draft.FeeContribution}
    (h : d.preserveFeeRate rate (remainingDue due paid) params relayRate = .ok (priced, c)) :
    c.receiver ≤ paid := by
  obtain ⟨between, hreceiver, -⟩ := Draft.preserveFeeRate_drains h
  have hgiven := Draft.drain_le OutputRole.isReceiver
    (min (d.lacking rate) (Draft.receiverBudget (remainingDue due paid) params)) d.outputs
  rw [← hreceiver] at hgiven
  have hbudget : Draft.receiverBudget (remainingDue due paid) params ≤ paid := by
    unfold Draft.receiverBudget remainingDue
    split <;> omega
  exact (hgiven.trans (min_le_right _ _)).trans hbudget

end Accepted

end Paydesk.Payjoin

import Mathlib.Data.List.Forall2
import Mathlib.Tactic.SplitIfs
import Paydesk.Chain.Weight

/-!
What a transaction weighs, against the weight that is predicted from what its inputs
carry and from the lengths of its scripts.
-/

namespace Paydesk.Chain

theorem length_littleEndian (width n : Nat) : (Bytes.littleEndian width n).length = width := by
  induction width generalizing n with
  | zero => rfl
  | succ width ih => rw [Bytes.littleEndian, List.length_cons, ih]

theorem length_encodeCount (n : Nat) : (encodeCount n).length = countSize n := by
  unfold encodeCount countSize
  split_ifs <;> simp [length_littleEndian]

theorem countSize_pos (n : Nat) : 0 < countSize n := by
  unfold countSize
  split_ifs <;> decide

theorem countSize_le (n : Nat) : countSize n ≤ 9 := by
  unfold countSize
  split_ifs <;> decide

theorem countSize_mono {m n : Nat} (h : m ≤ n) : countSize m ≤ countSize n := by
  unfold countSize
  split_ifs <;> omega

theorem length_encodeBlob (bs : Bytes) :
    (encodeBlob bs).length = (encodeCount bs.length).length + bs.length := by
  rw [encodeBlob, List.length_append]

theorem length_encodeList {α : Type} (encode : α → Bytes) (items : List α) :
    (encodeList encode items).length =
      countSize items.length + total (items.map fun item => (encode item).length) := by
  rw [encodeList, List.length_append, length_encodeCount, List.length_flatMap]
  rfl

/-- What byte strings with their counts take up at least. -/
def blobsSize (bs : List Bytes) : Nat := total (bs.map fun b => b.length + 1)

/-- What an input takes up at least. -/
def TxIn.size (i : TxIn) : Nat := 41 + i.signatureScript.length + blobsSize i.witness

/-- What an output takes up at least. -/
def TxOut.size (o : TxOut) : Nat := 9 + o.script.length

/-- What the inputs and outputs of a transaction take up at least. -/
def Transaction.size (tx : Transaction) : Nat :=
  total (tx.inputs.map TxIn.size) + total (tx.outputs.map TxOut.size)

/-- What an input carries. -/
def TxIn.data (i : TxIn) : InputWeight :=
  .ofLengths i.signatureScript.length (i.witness.map List.length)

namespace InputWeight

/-- An input carries no more than another, neither in its script nor in its witness. -/
instance : LE InputWeight :=
  ⟨fun w w' => w.scriptSize ≤ w'.scriptSize ∧ w.witnessSize ≤ w'.witnessSize⟩

theorem ofLengths_le_ofLengths {script script' : Nat} {witness witness' : List Nat}
    (hscript : script ≤ script') (hwitness : witness = [] ∨ List.Forall₂ (· ≤ ·) witness witness') :
    ofLengths script witness ≤ ofLengths script' witness' := by
  refine ⟨Nat.add_le_add hscript (countSize_mono hscript), ?_⟩
  rcases hwitness with rfl | hwitness
  · exact Nat.zero_le _
  · have htotal : total (witness.map fun n => n + countSize n) ≤
        total (witness'.map fun n => n + countSize n) := by
      clear hscript
      induction hwitness with
      | nil => exact Nat.le_refl 0
      | cons hle _ ih =>
          have hcount := countSize_mono hle
          simp only [List.map_cons, total_cons]
          omega
    have hlength := hwitness.length_eq
    cases hwitness with
    | nil => exact Nat.le_refl 0
    | cons _ _ =>
        rw [ofLengths, ofLengths, hlength]
        exact Nat.add_le_add_right htotal _

theorem witnessSize_ofLengths_eq_zero {script : Nat} {witness : List Nat} :
    (ofLengths script witness).witnessSize = 0 ↔ witness = [] := by
  have hpos := countSize_pos witness.length
  cases witness with
  | nil => simp [ofLengths]
  | cons n ns =>
      simp only [ofLengths, List.isEmpty_cons, Bool.false_eq_true, if_false, reduceCtorEq,
        iff_false]
      omega

end InputWeight

namespace TxIn

variable {i : TxIn}

theorem length_encode (h : i.previous.txid.length = 32) :
    i.encode.length = 40 + i.data.scriptSize := by
  simp only [encode, OutPoint.encode, List.length_append, length_littleEndian, h,
    length_encodeBlob, length_encodeCount, data, InputWeight.ofLengths]
  omega

/-- An empty witness takes a byte beside those with something in them. -/
theorem length_encodeWitness (i : TxIn) :
    (Transaction.encodeWitness i.witness).length =
      i.data.witnessSize + if i.data.witnessSize ≠ 0 then 0 else 1 := by
  have hzero : i.data.witnessSize = 0 ↔ i.witness.map List.length = [] :=
    InputWeight.witnessSize_ofLengths_eq_zero
  have hblobs : (i.witness.map fun item => (encodeBlob item).length) =
      (i.witness.map List.length).map fun n => n + countSize n := by
    simp [Function.comp_def, length_encodeBlob, length_encodeCount, Nat.add_comm]
  rw [Transaction.encodeWitness, length_encodeList, hblobs]
  cases hwitness : i.witness with
  | nil => simp [data, InputWeight.ofLengths, hwitness, countSize]
  | cons item items =>
      rw [if_pos (by rw [ne_eq, hzero, hwitness]; simp)]
      simp only [data, InputWeight.ofLengths, hwitness, List.length_map]
      exact Nat.add_comm _ _

end TxIn

namespace Transaction

variable {tx : Transaction}

theorem length_encodeBase (h : ∀ i ∈ tx.inputs, i.previous.txid.length = 32) :
    tx.encodeBase.length = 8 + countSize tx.inputs.length + countSize tx.outputs.length +
      total (tx.inputs.map fun i => 40 + i.data.scriptSize) +
      total (tx.outputs.map fun o => 8 + o.script.length + countSize o.script.length) := by
  have hinputs : (tx.inputs.map fun i => i.encode.length) =
      tx.inputs.map fun i => 40 + i.data.scriptSize :=
    List.map_congr_left fun i hi => TxIn.length_encode (h i hi)
  have houtputs : (tx.outputs.map fun o => o.encode.length) =
      tx.outputs.map fun o => 8 + o.script.length + countSize o.script.length := by
    refine List.map_congr_left fun o _ => ?_
    simp only [TxOut.encode, List.length_append, length_littleEndian, length_encodeBlob,
      length_encodeCount]
    omega
  simp only [encodeBase, List.length_append, length_littleEndian, length_encodeList, hinputs,
    houtputs]
  omega

theorem length_encode (tx : Transaction) : tx.encode.length = tx.encodeBase.length +
    if tx.hasWitnessForm then 2 + total (tx.inputs.map fun i => (encodeWitness i.witness).length)
    else 0 := by
  rw [encode]
  split
  · simp only [encodeBase, List.length_append, List.length_flatMap, length_littleEndian]
    change _ = _ + (2 + (tx.inputs.map fun i => (encodeWitness i.witness).length).sum)
    simp
    omega
  · rfl

section Predicted

variable (inputs : List TxIn)

/-- The inputs that have a witness. -/
def witnessed : List InputWeight := (inputs.map TxIn.data).filter fun w => w.witnessSize ≠ 0

theorem total_weight :
    total ((inputs.map TxIn.data).map fun w => w.weight + InputWeight.fixedPart) =
      4 * total (inputs.map fun i => 40 + i.data.scriptSize) +
        total (inputs.map fun i => i.data.witnessSize) := by
  induction inputs with
  | nil => rfl
  | cons i inputs ih =>
      rw [List.map_cons, List.map_cons, total_cons, ih]
      simp only [List.map_cons, total_cons, InputWeight.weight, InputWeight.fixedPart]
      omega

theorem total_encodeWitness :
    total (inputs.map fun i => (encodeWitness i.witness).length) + (witnessed inputs).length =
      total (inputs.map fun i => i.data.witnessSize) + inputs.length := by
  induction inputs with
  | nil => rfl
  | cons i inputs ih =>
      have hhead := i.length_encodeWitness
      unfold witnessed at ih ⊢
      simp only [List.map_cons, total_cons, List.length_cons, List.filter_cons,
        decide_eq_true_eq]
      split at hhead
      · rename_i hwitness
        rw [if_pos hwitness, List.length_cons]
        omega
      · rename_i hwitness
        rw [if_neg hwitness]
        omega

theorem witnessed_eq_nil : witnessed inputs = [] ↔ ∀ i ∈ inputs, i.witness = [] := by
  have hzero : ∀ i : TxIn, i.data.witnessSize = 0 ↔ i.witness = [] := fun i =>
    InputWeight.witnessSize_ofLengths_eq_zero.trans List.map_eq_nil_iff
  simp [witnessed, List.filter_eq_nil_iff, hzero]

theorem total_witnessSize_eq_zero (h : witnessed inputs = []) :
    total (inputs.map fun i => i.data.witnessSize) = 0 := by
  rw [witnessed_eq_nil] at h
  induction inputs with
  | nil => rfl
  | cons i inputs ih =>
      have hzero : i.data.witnessSize = 0 :=
        InputWeight.witnessSize_ofLengths_eq_zero.mpr
          (List.map_eq_nil_iff.mpr (h i List.mem_cons_self))
      rw [List.map_cons, total_cons, hzero, ih fun i hi => h i (List.mem_cons_of_mem _ hi)]

end Predicted

/-- What a transaction weighs can be told from what its inputs carry. -/
theorem weight_eq_predictWeight (hids : ∀ i ∈ tx.inputs, i.previous.txid.length = 32)
    (hinputs : tx.inputs ≠ []) :
    tx.weight = predictWeight (tx.inputs.map TxIn.data) (tx.outputs.map (·.script.length)) := by
  have hbase := length_encodeBase hids
  have hweights := total_weight tx.inputs
  have hwitnesses := total_encodeWitness tx.inputs
  have hform : tx.hasWitnessForm ↔ (witnessed tx.inputs).length ≠ 0 := by
    rw [ne_eq, List.length_eq_zero_iff, witnessed_eq_nil]
    simp [hasWitnessForm, hinputs]
  have hle : (witnessed tx.inputs).length ≤ tx.inputs.length := by
    simpa [witnessed] using List.length_filter_le (fun w : InputWeight => w.witnessSize ≠ 0)
      (tx.inputs.map TxIn.data)
  have hpredicted : predictWeight (tx.inputs.map TxIn.data) (tx.outputs.map (·.script.length)) =
      (4 + countSize tx.inputs.length + countSize tx.outputs.length +
        total (tx.outputs.map fun o => 8 + o.script.length + countSize o.script.length) + 4) * 4 +
      total ((tx.inputs.map TxIn.data).map fun w => w.weight + InputWeight.fixedPart) +
      if (witnessed tx.inputs).length = 0 then 0
        else tx.inputs.length - (witnessed tx.inputs).length + 2 := by
    simp only [predictWeight, List.length_map, List.map_map, Function.comp_def]
    rfl
  rw [hpredicted, weight, length_encode]
  by_cases hnone : (witnessed tx.inputs).length = 0
  · have hwitnessSize := total_witnessSize_eq_zero tx.inputs (List.length_eq_zero_iff.mp hnone)
    rw [if_neg (by simpa [hform] using hnone), if_pos hnone]
    omega
  · rw [if_pos (hform.mpr hnone), if_neg hnone]
    omega

section Bounds

theorem witnessSize_data_le (i : TxIn) : i.data.witnessSize ≤ 9 * blobsSize i.witness + 9 := by
  have hblobs : total ((i.witness.map List.length).map fun n => n + countSize n) ≤
      9 * blobsSize i.witness := by
    rw [blobsSize]
    induction i.witness with
    | nil => exact Nat.le_refl 0
    | cons item items ih =>
        have hcount := countSize_le item.length
        simp only [List.map_cons, total_cons]
        omega
  have hcount := countSize_le (i.witness.map List.length).length
  simp only [TxIn.data, InputWeight.ofLengths]
  split <;> omega

theorem total_weight_le (inputs : List TxIn) :
    total ((inputs.map TxIn.data).map fun w => w.weight + InputWeight.fixedPart) ≤
      9 * total (inputs.map TxIn.size) := by
  induction inputs with
  | nil => exact Nat.le_refl 0
  | cons i inputs ih =>
      have hwitness := witnessSize_data_le i
      have hcount := countSize_le i.signatureScript.length
      have hscript : i.data.scriptSize = i.signatureScript.length +
          countSize i.signatureScript.length := rfl
      simp only [List.map_cons, total_cons, InputWeight.weight, InputWeight.fixedPart,
        TxIn.size] at ih ⊢
      omega

theorem total_scripts_le (outputs : List TxOut) :
    total ((outputs.map (·.script.length)).map fun n => 8 + n + countSize n) ≤
      2 * total (outputs.map TxOut.size) := by
  induction outputs with
  | nil => exact Nat.le_refl 0
  | cons o outputs ih =>
      have hcount := countSize_le o.script.length
      simp only [List.map_cons, total_cons, TxOut.size] at ih ⊢
      omega

theorem length_le_total_size (inputs : List TxIn) :
    inputs.length ≤ total (inputs.map TxIn.size) := by
  induction inputs with
  | nil => exact Nat.le_refl 0
  | cons i inputs ih =>
      rw [List.length_cons, List.map_cons, total_cons, TxIn.size]
      omega

theorem weight_le (hids : ∀ i ∈ tx.inputs, i.previous.txid.length = 32)
    (hinputs : tx.inputs ≠ []) : tx.weight ≤ 10 * tx.size + 106 := by
  have hweights := total_weight_le tx.inputs
  have hscripts := total_scripts_le tx.outputs
  have hlength := length_le_total_size tx.inputs
  have hinputCount := countSize_le tx.inputs.length
  have houtputCount := countSize_le tx.outputs.length
  rw [weight_eq_predictWeight hids hinputs]
  simp only [predictWeight, List.length_map, size]
  split <;> omega

end Bounds

end Transaction

section Growth

variable {inputs inputs' : List InputWeight} {scripts scripts' : List Nat}

theorem predictWeight_perm (hinputs : inputs.Perm inputs') (hscripts : scripts.Perm scripts') :
    predictWeight inputs scripts = predictWeight inputs' scripts' := by
  have hweights := total_eq_of_perm
    (hinputs.map fun w : InputWeight => w.weight + InputWeight.fixedPart)
  have hsizes := total_eq_of_perm (hscripts.map fun n => 8 + n + countSize n)
  have hwitnesses := (hinputs.filter fun w : InputWeight => w.witnessSize ≠ 0).length_eq
  simp only [predictWeight, hweights, hsizes, hwitnesses, hinputs.length_eq, hscripts.length_eq]

theorem le_total_weight (inputs : List InputWeight) :
    160 * inputs.length ≤ total (inputs.map fun w => w.weight + InputWeight.fixedPart) := by
  induction inputs with
  | nil => exact Nat.zero_le _
  | cons w inputs ih =>
      rw [List.map_cons, total_cons, List.length_cons, InputWeight.fixedPart] at *
      omega

/-- With an input that carries more, the weights do not become less, also where each input
without a witness takes a byte. -/
theorem weights_mono (h : List.Forall₂ (· ≤ ·) inputs inputs') :
    total (inputs.map fun w => w.weight + InputWeight.fixedPart) ≤
      total (inputs'.map fun w => w.weight + InputWeight.fixedPart) ∧
    total (inputs.map fun w => w.weight + InputWeight.fixedPart) +
        (inputs'.filter fun w => w.witnessSize ≠ 0).length ≤
      total (inputs'.map fun w => w.weight + InputWeight.fixedPart) +
        (inputs.filter fun w => w.witnessSize ≠ 0).length ∧
    (inputs.filter fun w => w.witnessSize ≠ 0).length ≤
      (inputs'.filter fun w => w.witnessSize ≠ 0).length := by
  induction h with
  | nil => exact ⟨Nat.le_refl 0, Nat.le_refl 0, Nat.le_refl 0⟩
  | @cons w w' _ _ hle _ ih =>
      obtain ⟨hscript, hwitness⟩ := hle
      have hcounted : ∀ (w : InputWeight) (ws : List InputWeight),
          ((w :: ws).filter fun w => w.witnessSize ≠ 0).length =
            (ws.filter fun w => w.witnessSize ≠ 0).length + if w.witnessSize = 0 then 0 else 1 := by
        intro w ws
        by_cases hnone : w.witnessSize = 0 <;> simp [hnone]
      simp only [List.map_cons, total_cons, hcounted, InputWeight.weight,
        InputWeight.fixedPart] at ih ⊢
      split <;> split <;> omega

theorem predictWeight_mono (h : List.Forall₂ (· ≤ ·) inputs inputs') (scripts : List Nat) :
    predictWeight inputs scripts ≤ predictWeight inputs' scripts := by
  obtain ⟨hweights, hmarked, hwitnessed⟩ := weights_mono h
  have hcount := List.length_filter_le (fun w : InputWeight => w.witnessSize ≠ 0) inputs'
  simp only [predictWeight, h.length_eq]
  split <;> split <;> omega

/-- One more input and perhaps a short script make no more than seven times the weight.
What counts is that the weight of what is there already does not vanish. -/
theorem predictWeight_append_le (hinputs : inputs ≠ []) {w : InputWeight} (hw : w.weight ≤ 432)
    {more : List Nat} (hmore : more = [] ∨ ∃ n ≤ 34, more = [n]) :
    predictWeight (inputs ++ [w]) (scripts ++ more) ≤ 7 * predictWeight inputs scripts := by
  have hlength := List.length_pos_iff.mpr hinputs
  have hleast := le_total_weight inputs
  have hmoreInputs : (inputs ++ [w]).length = inputs.length + 1 := List.length_append
  have hcount := countSize_le (inputs.length + 1)
  have hscripts := countSize_le (scripts ++ more).length
  have hsize : total (more.map fun n => 8 + n + countSize n) ≤ 51 := by
    rcases hmore with rfl | ⟨n, hn, rfl⟩
    · exact Nat.zero_le _
    · have hn' := countSize_le n
      simp only [List.map_cons, List.map_nil, total_cons, total_nil]
      omega
  simp only [predictWeight, List.map_append, List.map_cons, List.map_nil, total_append,
    total_cons, total_nil, hmoreInputs]
  unfold InputWeight.fixedPart at *
  split <;> split <;> omega

end Growth

end Paydesk.Chain

import Paydesk.Proofs.Chain.RoundTrip
import Paydesk.Proofs.Chain.Wire

/-!
Signing data that tells of each input what it spends and how, and nothing else: as it is
written, read back.
-/

namespace Paydesk.Chain

open Decoder

/-- All that is known of an input is the output that it spends and what spends it. -/
structure PsbtInput.Plain (i : PsbtInput) : Prop where
  previousTx : i.previousTx = none
  redeemScript : i.redeemScript = none
  finalScript : i.finalScript ≠ some []
  finalWitness : i.finalWitness ≠ some []
  others : i.others = []

/-- Final signing data for some inputs, with nothing but what makes them final. -/
structure Psbt.Plain (p : Psbt) : Prop where
  inputs_ne : p.tx.inputs ≠ []
  unsigned : ∀ i ∈ p.tx.inputs, i.bare = i
  globals : p.globals = []
  length_inputs : p.inputs.length = p.tx.inputs.length
  inputs : ∀ i ∈ p.inputs, i.Plain
  outputs : p.outputs = p.tx.outputs.map fun _ => []
  final : p.isFinal

namespace Psbt

/-- An entry whose key is there, and with its value not too long. -/
structure FitsEntry (entry : Bytes × Bytes) : Prop where
  key_ne : entry.1 ≠ []
  key : entry.1.length < limit64
  value : entry.2.length < limit64

theorem encodeMap_cons (entry : Bytes × Bytes) (entries : Entries) : encodeMap (entry :: entries) =
    encodeBlob entry.1 ++ (encodeBlob entry.2 ++ encodeMap entries) := by
  simp only [encodeMap, encodeEntry, List.flatMap_cons, List.append_assoc]

theorem length_le_encodeMap (entries : Entries) : entries.length ≤ (encodeMap entries).length := by
  induction entries with
  | nil => exact Nat.zero_le _
  | cons entry entries ih =>
      have hpos := countSize_pos entry.1.length
      simp only [encodeMap_cons, List.length_append, List.length_cons, length_encodeBlob,
        length_encodeCount]
      omega

section Maps

variable {entries : Entries} (h : ∀ entry ∈ entries, FitsEntry entry)
include h

theorem restores_entriesLoop {fuel : Nat} (hfuel : entries.length < fuel) :
    (entriesLoop fuel).Restores (encodeMap entries) entries := by
  induction entries generalizing fuel with
  | nil =>
      obtain ⟨fuel, rfl⟩ := Nat.exists_eq_add_one_of_ne_zero (Nat.ne_zero_of_lt hfuel)
      have hkey : decodeBlob.Restores (encodeBlob []) [] := restores_decodeBlob (by decide)
      exact hkey.bind (restores_pure [])
  | cons entry entries ih =>
      obtain ⟨fuel, rfl⟩ := Nat.exists_eq_add_one_of_ne_zero (Nat.ne_zero_of_lt hfuel)
      obtain ⟨hentry, hentries⟩ := List.forall_mem_cons.mp h
      have hkey : ¬(entry.1.isEmpty = true) := by simpa using hentry.key_ne
      rw [encodeMap_cons]
      refine (restores_decodeBlob hentry.key).bind ?_
      rw [if_neg hkey]
      exact (restores_decodeBlob hentry.value).bind (ih hentries (Nat.lt_of_succ_lt_succ hfuel)).map

theorem restores_decodeEntries : decodeEntries.Restores (encodeMap entries) entries := by
  intro rest
  refine restores_entriesLoop h ?_ rest
  have hle := length_le_encodeMap entries
  rw [List.length_append]
  omega

theorem restores_decodeMap {α : Type} {add : α → Bytes × Bytes → Option α} {start a : α}
    (hadd : entries.foldlM add start = some a) :
    (decodeMap start add).Restores (encodeMap entries) a := by
  have hfold : (entries.foldlM (fun a entry bs => (add a entry).map fun a => (a, bs)) start :
      Decoder α).Restores [] a := by
    clear h
    induction entries generalizing start with
    | nil =>
        obtain rfl := Option.some.inj hadd
        exact restores_pure start
    | cons entry entries ih =>
        rw [List.foldlM_cons] at hadd ⊢
        obtain ⟨next, hnext, hrest⟩ := Option.bind_eq_some_iff.mp hadd
        have hstep : Restores (fun bs => (add start entry).map fun a => (a, bs)) [] next := by
          intro rest
          rw [hnext]
          rfl
        exact hstep.bind (ih hrest)
  have hbind := (restores_decodeEntries h).bind hfold
  rwa [List.append_nil] at hbind

end Maps

/-- The entry for what may be known under a key of one byte. -/
def entryFor {α : Type} (key : UInt8) (encode : α → Bytes) (value : Option α) : Entries :=
  value.toList.map fun a => ([key], encode a)

theorem fitsEntry_of_mem_entryFor {α : Type} {key : UInt8} {encode : α → Bytes} {value : Option α}
    (h : ∀ a ∈ value, (encode a).length < limit64) : ∀ entry ∈ entryFor key encode value,
      FitsEntry entry := by
  intro entry hentry
  obtain ⟨a, ha, rfl⟩ := List.mem_map.mp hentry
  have hkey : 1 < limit64 := by decide
  exact ⟨List.cons_ne_nil _ _, hkey, h a (Option.mem_toList.mp ha)⟩

theorem foldlM_entryFor {α β : Type} {key : UInt8} {encode : α → Bytes} {value : Option α}
    {add : β → Bytes × Bytes → Option β} {start : β} (put : Option α → β) (hnone : put none = start)
    (hsome : ∀ a ∈ value, add start ([key], encode a) = some (put (some a))) :
    (entryFor key encode value).foldlM add start = some (put value) := by
  cases value with
  | none => exact congrArg some hnone.symm
  | some a =>
      rw [entryFor, Option.toList_some, List.map_singleton, List.foldlM_cons, hsome a rfl]
      rfl

end Psbt

/-- What is known of an input, in a form that can be written. -/
structure PsbtInput.Fits (i : PsbtInput) : Prop where
  previousOutput : ∀ o ∈ i.previousOutput, o.Fits ∧ o.encode.length < limit64
  finalScript : ∀ script ∈ i.finalScript, script.length < limit64
  finalWitness : ∀ witness ∈ i.finalWitness,
    FitsWitness witness ∧ (Transaction.encodeWitness witness).length < limit64

namespace PsbtInput

theorem Fits.length_script {i : PsbtInput} (h : i.Fits) :
    (i.finalScript.getD []).length < limit64 := by
  cases hscript : i.finalScript with
  | none => exact Nat.two_pow_pos 64
  | some script => exact h.finalScript script hscript

theorem Fits.witness {i : PsbtInput} (h : i.Fits) : FitsWitness (i.finalWitness.getD []) := by
  cases hwitness : i.finalWitness with
  | none => exact ⟨Nat.two_pow_pos 64, List.forall_mem_nil _⟩
  | some witness => exact (h.finalWitness witness hwitness).1

theorem Plain.inputEntries_eq {i : PsbtInput} (h : i.Plain) : Psbt.inputEntries i =
    Psbt.entryFor 0x01 TxOut.encode i.previousOutput ++ Psbt.entryFor 0x07 id i.finalScript ++
      Psbt.entryFor 0x08 Transaction.encodeWitness i.finalWitness := by
  rw [Psbt.inputEntries, h.previousTx, h.redeemScript, h.others]
  cases i.previousOutput <;> cases i.finalScript <;> cases i.finalWitness <;> rfl

theorem Plain.eq {i : PsbtInput} (h : i.Plain) :
    i = ⟨none, i.previousOutput, none, i.finalScript, i.finalWitness, []⟩ := by
  rw [← h.previousTx, ← h.redeemScript, ← h.others]

theorem Fits.foldlM_addInput {i : PsbtInput} (h : i.Fits) :
    (Psbt.entryFor 0x01 TxOut.encode i.previousOutput ++ Psbt.entryFor 0x07 id i.finalScript ++
      Psbt.entryFor 0x08 Transaction.encodeWitness i.finalWitness).foldlM Psbt.addInput .empty =
      some ⟨none, i.previousOutput, none, i.finalScript, i.finalWitness, []⟩ := by
  have houtput : (Psbt.entryFor 0x01 TxOut.encode i.previousOutput).foldlM Psbt.addInput .empty =
      some ⟨none, i.previousOutput, none, none, none, []⟩ :=
    Psbt.foldlM_entryFor (fun o => PsbtInput.mk none o none none none []) rfl fun o ho => by
      have hread := (h.previousOutput o ho).1.restores.whole?
      simp [Psbt.addInput, Psbt.setOnce, PsbtInput.empty, hread]
  have hscript : (Psbt.entryFor 0x07 id i.finalScript).foldlM Psbt.addInput
      ⟨none, i.previousOutput, none, none, none, []⟩ =
        some ⟨none, i.previousOutput, none, i.finalScript, none, []⟩ :=
    Psbt.foldlM_entryFor (fun s => PsbtInput.mk none i.previousOutput none s none []) rfl
      fun s _ => rfl
  have hwitness : (Psbt.entryFor 0x08 Transaction.encodeWitness i.finalWitness).foldlM
      Psbt.addInput ⟨none, i.previousOutput, none, i.finalScript, none, []⟩ =
        some ⟨none, i.previousOutput, none, i.finalScript, i.finalWitness, []⟩ :=
    Psbt.foldlM_entryFor (fun w => PsbtInput.mk none i.previousOutput none i.finalScript w []) rfl
      fun w hw => by
        have hread := (h.finalWitness w hw).1.restores.whole?
        simp [Psbt.addInput, Psbt.setOnce, hread]
  rw [List.foldlM_append, List.foldlM_append, houtput]
  exact (congrArg (Option.bind · _) hscript).trans hwitness

theorem Plain.restores {i : PsbtInput} (h : i.Plain) (hfits : i.Fits) :
    (Psbt.decodeMap .empty Psbt.addInput).Restores (Psbt.encodeMap (Psbt.inputEntries i)) i := by
  rw [h.inputEntries_eq]
  refine Psbt.restores_decodeMap (fun entry hentry => ?_) ?_
  · rcases List.mem_append.mp hentry with hentry | hwitness
    · rcases List.mem_append.mp hentry with houtput | hscript
      · exact Psbt.fitsEntry_of_mem_entryFor (fun o ho => (hfits.previousOutput o ho).2) _ houtput
      · exact Psbt.fitsEntry_of_mem_entryFor hfits.finalScript _ hscript
    · exact Psbt.fitsEntry_of_mem_entryFor (fun w hw => (hfits.finalWitness w hw).2) _ hwitness
  · exact hfits.foldlM_addInput.trans (congrArg some h.eq.symm)

end PsbtInput

/-- Signing data in a form that can be written. -/
structure Psbt.Fits (p : Psbt) : Prop where
  tx : p.tx.Fits
  length_encodeBase : p.tx.encodeBase.length < limit64
  inputs : ∀ i ∈ p.inputs, i.Fits

namespace Psbt

theorem Plain.witness_eq_nil {p : Psbt} (h : p.Plain) : ∀ i ∈ p.tx.inputs, i.witness = [] := by
  intro i hi
  rw [← h.unsigned i hi]
  rfl

theorem Fits.restores_globals {p : Psbt} (h : p.Fits) (hplain : p.Plain) :
    (decodeMap ⟨none, []⟩ addGlobal).Restores
      (encodeMap (p.globals.insert [0x00] p.tx.encodeBase)) ⟨some p.tx, []⟩ := by
  rw [hplain.globals]
  refine restores_decodeMap (fun entry hentry => ?_) ?_
  · obtain rfl := List.mem_singleton.mp hentry
    have hkey : 1 < limit64 := by decide
    exact ⟨List.cons_ne_nil _ _, hkey, h.length_encodeBase⟩
  · have hread := h.tx.restores_decodeBase.whole?
    rw [map_unwitnessed hplain.witness_eq_nil] at hread
    simp [Table.insert, addGlobal, setOnce, hread]

theorem Fits.restores_inputs {p : Psbt} (h : p.Fits) (hplain : p.Plain) :
    (replicate (decodeMap .empty addInput) p.tx.inputs.length).Restores
      (p.inputs.flatMap fun i => encodeMap (inputEntries i)) p.inputs := by
  have hitems := restores_replicate (f := id) fun i hi =>
    (hplain.inputs i hi).restores (h.inputs i hi)
  rwa [hplain.length_inputs, List.map_id] at hitems

theorem Plain.restores_outputs {p : Psbt} (h : p.Plain) :
    (replicate (decodeMap [] addOutput) p.tx.outputs.length).Restores
      (p.outputs.flatMap encodeMap) p.outputs := by
  have hempty : (decodeMap [] addOutput).Restores (encodeMap []) [] :=
    restores_decodeMap (List.forall_mem_nil _) rfl
  rw [h.outputs, List.flatMap_map]
  exact restores_replicate fun _ _ => hempty

/-- Signing data that holds nothing else is written so that it can be read back. -/
theorem Fits.restores_decode {p : Psbt} (h : p.Fits) (hplain : p.Plain) :
    decode.Restores p.encode p := by
  have hunsigned : p.tx.inputs.all fun i => i.signatureScript.isEmpty && i.witness.isEmpty := by
    refine List.all_eq_true.mpr fun i hi => ?_
    rw [← hplain.unsigned i hi]
    rfl
  have hwhole : p = ⟨p.tx, [], p.inputs, p.outputs⟩ := by rw [← hplain.globals]
  rw [encode, List.append_assoc, List.append_assoc]
  change decode.Restores (magic ++ ([] ++ (encodeMap (p.globals.insert [0x00] p.tx.encodeBase) ++
    ([] ++ (p.inputs.flatMap (fun i => encodeMap (inputEntries i)) ++
      p.outputs.flatMap encodeMap))))) p
  refine (restores_take rfl).bind ((restores_guard (by decide)).bind ?_)
  refine (h.restores_globals hplain).bind ((restores_guard hunsigned).bind ?_)
  refine (h.restores_inputs hplain).bind ?_
  have hrest := hplain.restores_outputs.map (f := fun outputs => Psbt.mk p.tx [] p.inputs outputs)
  rwa [← hwhole] at hrest

theorem Fits.ofBytes?_encode {p : Psbt} (h : p.Fits) (hplain : p.Plain) :
    ofBytes? p.encode = some p := by
  have hrun := h.restores_decode hplain []
  rw [List.append_nil] at hrun
  rw [ofBytes?, StateT.run, hrun]
  rfl

theorem length_extract_inputs {p : Psbt} (h : p.inputs.length = p.tx.inputs.length) :
    p.extract.inputs.length = p.tx.inputs.length := by
  simp [Psbt.extract, inputPairs, h]

theorem Fits.extract {p : Psbt} (h : p.Fits) : p.extract.Fits where
  version := h.tx.version
  inputCount := by
    refine Nat.lt_of_le_of_lt ?_ h.tx.inputCount
    simp [Psbt.extract, inputPairs]
  inputs := by
    intro i hi
    obtain ⟨⟨input, known⟩, hpair, rfl⟩ := List.mem_map.mp hi
    have hinput := h.tx.inputs input (List.of_mem_zip hpair).1
    have hknown := h.inputs known (List.of_mem_zip hpair).2
    refine ⟨hinput.previous, ?_, hinput.sequence, ?_⟩
    · exact hknown.length_script
    · exact hknown.witness
  outputCount := h.tx.outputCount
  outputs := h.tx.outputs
  lockTime := h.tx.lockTime

theorem Plain.extract_inputs_ne {p : Psbt} (h : p.Plain) : p.extract.inputs ≠ [] := by
  have hlength := length_extract_inputs h.length_inputs
  exact List.ne_nil_of_length_pos (hlength ▸ List.length_pos_of_ne_nil h.inputs_ne)

/-- Signing data begins as no other data does. -/
theorem take_of_ofBytes? {bs : Bytes} {p : Psbt} (h : ofBytes? bs = some p) :
    bs.take magic.length = magic := by
  obtain ⟨⟨_, rest⟩, hrun, -⟩ := Option.map_eq_some_iff.mp h
  obtain ⟨⟨front, behind⟩, htake, hrun⟩ := Option.bind_eq_some_iff.mp hrun
  obtain ⟨_, hguard, -⟩ := Option.bind_eq_some_iff.mp hrun
  obtain ⟨-, htaken⟩ := Option.ite_none_right_eq_some.mp htake
  obtain ⟨hmagic, -⟩ := Option.ite_none_right_eq_some.mp hguard
  rw [(Prod.mk.inj (Option.some.inj htaken)).1]
  exact beq_iff_eq.mp hmagic

theorem ofBytes?_eq_none_of_head? {bs : Bytes} (h : bs.head? ≠ some 0x70) : ofBytes? bs = none := by
  refine Option.eq_none_iff_forall_ne_some.mpr fun p hp => h ?_
  have hhead := congrArg List.head? (take_of_ofBytes? hp)
  rwa [List.head?_take, if_neg (by decide)] at hhead

end Psbt

theorem exists_tag_of_encodeCount {n : Nat} (h : n < limit32) :
    ∃ tag more, encodeCount n = tag :: more ∧ tag ≠ 0xff := by
  unfold encodeCount
  split_ifs with hsmall
  · refine ⟨_, _, rfl, fun htag => ?_⟩
    have hvalue := congrArg UInt8.toNat htag
    rw [UInt8.toNat_ofNat'] at hvalue
    change n % 256 = 255 at hvalue
    omega
  · exact ⟨_, _, rfl, by decide⟩
  · exact ⟨_, _, rfl, by decide⟩

theorem Transaction.length_inputs_le (inputs : List TxIn) :
    inputs.length ≤ total (inputs.map fun i => i.encode.length) := by
  induction inputs with
  | nil => exact Nat.zero_le _
  | cons i inputs ih =>
      have hsequence := length_littleEndian 4 i.sequence
      simp only [List.map_cons, total_cons, TxIn.encode, List.length_append, List.length_cons] at ih ⊢
      omega

theorem Transaction.length_inputs_le_length_encode (tx : Transaction) :
    tx.inputs.length ≤ tx.encode.length := by
  have hinputs := length_inputs_le tx.inputs
  have hbase : tx.inputs.length ≤ tx.encodeBase.length := by
    simp only [encodeBase, List.length_append, length_encodeList]
    omega
  rw [length_encode]
  omega

/-- The fifth byte of a transaction is the marker or the tag of a count, and neither is what
it would have to be. -/
theorem Transaction.psbt_ofBytes?_encode {tx : Transaction} (hlength : tx.encode.length < limit32) :
    Psbt.ofBytes? tx.encode = none := by
  have hcount : tx.inputs.length < limit32 :=
    Nat.lt_of_le_of_lt tx.length_inputs_le_length_encode hlength
  have hfifth : ∃ c more, tx.encode = Bytes.littleEndian 4 tx.version ++ c :: more ∧ c ≠ 0xff := by
    unfold Transaction.encode
    split
    · simp only [List.append_assoc]
      exact ⟨0x00, _, rfl, by decide⟩
    · obtain ⟨tag, more, htag, hne⟩ := exists_tag_of_encodeCount hcount
      simp only [encodeBase, encodeList, htag, List.append_assoc, List.cons_append]
      exact ⟨tag, _, rfl, hne⟩
  obtain ⟨c, more, hencode, hne⟩ := hfifth
  refine Option.eq_none_iff_forall_ne_some.mpr fun p hp => hne ?_
  have hmagic := Psbt.take_of_ofBytes? hp
  rw [hencode] at hmagic
  have hindex := congrArg (·[4]?) hmagic
  have hversion := length_littleEndian 4 tx.version
  rw [List.getElem?_take_of_lt (by decide), List.getElem?_append_right (Nat.le_of_eq hversion),
    hversion] at hindex
  exact Option.some.inj hindex

end Paydesk.Chain

import Paydesk.Chain.Psbt.Codec
import Paydesk.Proofs.Chain.Encoding

/-!
Transactions and signing data as they are written, read back.
-/

namespace Paydesk

namespace Decoder

variable {α β : Type} {item : Decoder β} {encode : α → Bytes} {f : α → β} {items : List α}

theorem restores_replicate (h : ∀ a ∈ items, item.Restores (encode a) (f a)) :
    (replicate item items.length).Restores (items.flatMap encode) (items.map f) := by
  induction items with
  | nil => exact restores_pure []
  | cons a items ih =>
      obtain ⟨ha, hitems⟩ := List.forall_mem_cons.mp h
      rw [List.flatMap_cons]
      exact ha.bind (ih hitems).map

end Decoder

namespace Chain

open Decoder

theorem restores_decodeList {α : Type} {item : Decoder α} {encode : α → Bytes} {f : α → α}
    {items : List α} (hlength : items.length < limit64)
    (h : ∀ a ∈ items, item.Restores (encode a) (f a)) :
    (decodeList item).Restores (encodeList encode items) (items.map f) :=
  (restores_decodeCount hlength).bind (restores_replicate h)

/-- A witness whose lengths fit into counts. -/
structure FitsWitness (witness : List Bytes) : Prop where
  length : witness.length < limit64
  items : ∀ item ∈ witness, item.length < limit64

theorem FitsWitness.restores {witness : List Bytes} (h : FitsWitness witness) :
    Transaction.decodeWitness.Restores (Transaction.encodeWitness witness) witness := by
  have hlist := restores_decodeList (f := id) h.length fun item hitem =>
    restores_decodeBlob (h.items item hitem)
  rwa [List.map_id] at hlist

/-- An input that can be written: numbers have 32 bits, and lengths have 64. -/
structure TxIn.Fits (i : TxIn) : Prop where
  previous : i.previous.Fits
  script : i.signatureScript.length < limit64
  sequence : i.sequence < limit32
  witness : FitsWitness i.witness

/-- What stands in front of the witnesses. -/
def TxIn.unwitnessed (i : TxIn) : TxIn := { i with witness := [] }

theorem map_unwitnessed {inputs : List TxIn} (h : ∀ i ∈ inputs, i.witness = []) :
    inputs.map TxIn.unwitnessed = inputs := by
  refine (List.map_congr_left fun i hi => ?_).trans (List.map_id _)
  rw [TxIn.unwitnessed, ← h i hi]
  rfl

theorem TxIn.Fits.restores {i : TxIn} (h : i.Fits) :
    TxIn.decode.Restores i.encode i.unwitnessed := by
  rw [TxIn.encode, List.append_assoc]
  exact h.previous.restores.bind
    ((restores_decodeBlob h.script).bind (restores_littleEndian 4 h.sequence).map)

structure Transaction.Fits (tx : Transaction) : Prop where
  version : tx.version < limit32
  inputCount : tx.inputs.length < limit64
  inputs : ∀ i ∈ tx.inputs, i.Fits
  outputCount : tx.outputs.length < limit64
  outputs : ∀ o ∈ tx.outputs, o.Fits
  lockTime : tx.lockTime < limit32

namespace Transaction.Fits

variable {tx : Transaction} (h : tx.Fits)
include h

theorem restores_inputs : (decodeList TxIn.decode).Restores (encodeList TxIn.encode tx.inputs)
    (tx.inputs.map TxIn.unwitnessed) :=
  restores_decodeList h.inputCount fun i hi => (h.inputs i hi).restores

theorem restores_outputs :
    (decodeList TxOut.decode).Restores (encodeList TxOut.encode tx.outputs) tx.outputs := by
  have hlist := restores_decodeList (f := id) h.outputCount fun o ho => (h.outputs o ho).restores
  rwa [List.map_id] at hlist

theorem restores_witnesses : (replicate decodeWitness tx.inputs.length).Restores
    (tx.inputs.flatMap (encodeWitness ·.witness)) (tx.inputs.map TxIn.witness) :=
  restores_replicate fun i hi => (h.inputs i hi).witness.restores

/-- Without witnesses, nothing else is lost. -/
theorem restores_decodeBase : decodeBase.Restores tx.encodeBase
    { tx with inputs := tx.inputs.map TxIn.unwitnessed } := by
  rw [encodeBase, List.append_assoc, List.append_assoc]
  exact (restores_littleEndian 4 h.version).bind (h.restores_inputs.bind
    (h.restores_outputs.bind (restores_littleEndian 4 h.lockTime).map))

/-- In the form with witnesses, a count of no inputs is the marker. -/
theorem restores_decode_witnessed (hwitness : tx.inputs.any fun i => !i.witness.isEmpty) :
    decode.Restores (Bytes.littleEndian 4 tx.version ++ [0x00, 0x01] ++
      encodeList TxIn.encode tx.inputs ++ encodeList TxOut.encode tx.outputs ++
      tx.inputs.flatMap (encodeWitness ·.witness) ++ Bytes.littleEndian 4 tx.lockTime) tx := by
  have hmarker : (decodeList TxIn.decode).Restores [0x00] [] :=
    (restores_decodeCount (n := 0) (by decide)).bind (restores_pure [])
  have hguard : ((tx.inputs.map TxIn.unwitnessed).isEmpty ||
      (tx.inputs.map TxIn.witness).any fun w => !w.isEmpty) = true := by
    rw [List.any_map]
    exact Bool.or_eq_true_iff.mpr (.inr hwitness)
  have hzip : (tx.inputs.map TxIn.unwitnessed).zipWith (fun i w => { i with witness := w })
      (tx.inputs.map TxIn.witness) = tx.inputs := by
    rw [List.zipWith_map, List.zipWith_self]
    exact List.map_id _
  rw [List.append_assoc, List.append_assoc, List.append_assoc, List.append_assoc]
  change decode.Restores (Bytes.littleEndian 4 tx.version ++ ([0x00] ++ ([0x01] ++ ([] ++
    (encodeList TxIn.encode tx.inputs ++ (encodeList TxOut.encode tx.outputs ++
      (tx.inputs.flatMap (encodeWitness ·.witness) ++ ([] ++
        Bytes.littleEndian 4 tx.lockTime)))))))) tx
  refine (restores_littleEndian 4 h.version).bind (hmarker.bind ?_)
  rw [if_pos List.isEmpty_nil]
  refine (restores_byte 0x01).bind ((restores_guard rfl).bind ?_)
  refine h.restores_inputs.bind (h.restores_outputs.bind ?_)
  rw [List.length_map]
  refine h.restores_witnesses.bind ((restores_guard hguard).bind ?_)
  rw [hzip]
  exact (restores_littleEndian 4 h.lockTime).map

theorem restores_decode_base (hinputs : tx.inputs ≠ [])
    (hwitness : ¬tx.inputs.any fun i => !i.witness.isEmpty) :
    decode.Restores tx.encodeBase tx := by
  have hnone : ∀ i ∈ tx.inputs, i.witness = [] := by simpa using hwitness
  have hsome : ¬(tx.inputs.isEmpty = true) := by simpa using hinputs
  rw [encodeBase, List.append_assoc, List.append_assoc]
  refine (restores_littleEndian 4 h.version).bind (h.restores_inputs.bind ?_)
  rw [map_unwitnessed hnone, if_neg hsome]
  exact h.restores_outputs.bind (restores_littleEndian 4 h.lockTime).map

/-- A transaction with inputs is written so that it can be read back. -/
theorem restores_decode (hinputs : tx.inputs ≠ []) : decode.Restores tx.encode tx := by
  by_cases hwitness : tx.inputs.any fun i => !i.witness.isEmpty
  · rw [encode, hasWitnessForm, hwitness, Bool.or_true, if_pos rfl]
    exact h.restores_decode_witnessed hwitness
  · have hform : tx.hasWitnessForm = false := by
      rw [hasWitnessForm, Bool.or_eq_false_iff]
      exact ⟨by simpa using hinputs, by simpa using hwitness⟩
    rw [encode, hform, if_neg Bool.false_ne_true]
    exact h.restores_decode_base hinputs hwitness

theorem ofBytes?_encode (hinputs : tx.inputs ≠ []) : ofBytes? tx.encode = some tx :=
  (h.restores_decode hinputs).whole?

end Transaction.Fits

end Chain

end Paydesk

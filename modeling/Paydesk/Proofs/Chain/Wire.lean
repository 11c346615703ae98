import Paydesk.Chain.Psbt.Codec
import Paydesk.Proofs.Chain.Weight

/-!
What holds of all transactions and signing data that are read from bytes: identifiers
have 32 bytes, nothing is signed yet, and nothing is larger than what it was read from.
-/

namespace Paydesk

namespace Decoder

variable {α β : Type} {d : Decoder α} {p p' : Nat → α → Prop} {q : Nat → β → Prop}

/-- What a decoder reads from some number of bytes has a property. -/
def Reads (d : Decoder α) (p : Nat → α → Prop) : Prop :=
  ∀ bs a rest, d bs = some (a, rest) → ∃ k, k + rest.length = bs.length ∧ p k a

theorem Reads.mono (h : d.Reads p) (himp : ∀ k a, p k a → p' k a) : d.Reads p' := by
  intro bs a rest hread
  obtain ⟨k, hk, hp⟩ := h bs a rest hread
  exact ⟨k, hk, himp k a hp⟩

theorem reads_pure {a : α} (h : p 0 a) : (pure a : Decoder α).Reads p := by
  rintro bs a rest hread
  cases hread
  exact ⟨0, Nat.zero_add _, h⟩

theorem reads_failure : (failure : Decoder α).Reads p := by
  rintro bs a rest hread
  cases hread

theorem Reads.bind {f : α → Decoder β} (h : d.Reads p)
    (hf : ∀ k a, p k a → (f a).Reads fun j b => q (k + j) b) : (d >>= f).Reads q := by
  rintro bs b rest hread
  obtain ⟨⟨a, between⟩, ha, hb⟩ := Option.bind_eq_some_iff.mp hread
  obtain ⟨k, hk, hp⟩ := h bs a between ha
  obtain ⟨j, hj, hq⟩ := hf k a hp between b rest hb
  exact ⟨k + j, by omega, hq⟩

theorem reads_take (n : Nat) : (take n).Reads fun k bs => bs.length = n ∧ k = n := by
  rintro bs front rest hread
  simp only [take] at hread
  split at hread
  · rename_i hlength
    cases hread
    rw [List.length_take] at hlength
    exact ⟨n, by rw [List.length_drop]; omega, by rw [List.length_take]; exact hlength, rfl⟩
  · cases hread

theorem reads_byte : byte.Reads fun k _ => k = 1 := by
  rintro bs b rest hread
  cases bs with
  | nil => cases hread
  | cons c bs =>
      cases hread
      exact ⟨1, Nat.add_comm _ _, rfl⟩

theorem reads_littleEndian (width : Nat) : (littleEndian width).Reads fun k _ => k = width :=
  (reads_take width).bind fun _ _ h => reads_pure h.2

theorem reads_guard (b : Bool) : (guard b).Reads fun k _ => k = 0 ∧ b := by
  rintro bs a rest hread
  simp only [guard] at hread
  split at hread
  · rename_i hb
    cases hread
    exact ⟨0, Nat.zero_add _, rfl, hb⟩
  · cases hread

/-- Values that each have a property and a size are read from the bytes for all sizes. -/
theorem Reads.replicate {c : α → Prop} {size : α → Nat} (h : d.Reads fun k a => c a ∧ size a ≤ k)
    (n : Nat) :
    (replicate d n).Reads fun k as => (∀ a ∈ as, c a) ∧ total (as.map size) ≤ k := by
  induction n with
  | zero => exact reads_pure ⟨by simp, Nat.zero_le _⟩
  | succ n ih =>
      refine h.bind fun k a ha => ih.bind fun j as has => reads_pure ⟨?_, ?_⟩
      · exact List.forall_mem_cons.mpr ⟨ha.1, has.1⟩
      · rw [List.map_cons, total_cons]
        omega

theorem Reads.of_whole? (h : d.Reads p) {bs : Bytes} {a : α} (hread : whole? d bs = some a) :
    p bs.length a := by
  unfold whole? at hread
  split at hread
  · rename_i hrun
    cases hread
    obtain ⟨k, hk, hp⟩ := h bs a [] hrun
    exact (show k = bs.length from hk) ▸ hp
  · cases hread

end Decoder

namespace Chain

open Decoder

theorem reads_decodeCount : decodeCount.Reads fun k _ => 1 ≤ k := by
  refine reads_byte.bind fun k tag hk => ?_
  split
  · exact reads_pure (by omega)
  · exact (reads_littleEndian _).bind fun _ _ _ => (reads_guard _).bind fun _ _ _ =>
      reads_pure (by omega)

theorem reads_decodeBlob : decodeBlob.Reads fun k bs => bs.length + 1 ≤ k :=
  reads_decodeCount.bind fun _ n hk => (reads_take n).mono fun _ _ h => by omega

theorem reads_decodeList {α : Type} {item : Decoder α} {c : α → Prop} {size : α → Nat}
    (h : item.Reads fun k a => c a ∧ size a ≤ k) :
    (decodeList item).Reads fun k items => (∀ a ∈ items, c a) ∧ total (items.map size) + 1 ≤ k :=
  reads_decodeCount.bind fun _ n hk =>
    (h.replicate n).mono fun _ _ ⟨hitems, hsize⟩ => ⟨hitems, by omega⟩

theorem reads_outPoint : OutPoint.decode.Reads fun k o => o.txid.length = 32 ∧ k = 36 :=
  (reads_take 32).bind fun _ _ h => (reads_littleEndian 4).bind fun _ _ hk =>
    reads_pure ⟨h.1, by omega⟩

theorem reads_input : TxIn.decode.Reads fun k i =>
    (i.previous.txid.length = 32 ∧ i.witness = []) ∧ i.size ≤ k :=
  reads_outPoint.bind fun _ _ h => reads_decodeBlob.bind fun _ _ hscript =>
    (reads_littleEndian 4).bind fun _ _ hk => reads_pure ⟨⟨h.1, rfl⟩, by
      simp only [TxIn.size, blobsSize, List.map_nil, total_nil]
      omega⟩

theorem reads_output : TxOut.decode.Reads fun k o => True ∧ o.size ≤ k :=
  (reads_littleEndian 8).bind fun _ _ _ => reads_decodeBlob.bind fun _ _ hscript =>
    reads_pure ⟨trivial, by
      simp only [TxOut.size]
      omega⟩

/-- A transaction with whole identifiers, and with no more than `n` bytes. -/
structure Transaction.Sized (n : Nat) (tx : Transaction) : Prop where
  ids : ∀ i ∈ tx.inputs, i.previous.txid.length = 32
  size : tx.size ≤ n

namespace Transaction

theorem Sized.mono {n m : Nat} {tx : Transaction} (h : tx.Sized n) (hle : n ≤ m) : tx.Sized m :=
  ⟨h.ids, Nat.le_trans h.size hle⟩

theorem reads_decodeBase : decodeBase.Reads Sized :=
  (reads_littleEndian 4).bind fun _ _ _ => (reads_decodeList reads_input).bind fun _ _ hinputs =>
    (reads_decodeList reads_output).bind fun _ _ houtputs =>
      (reads_littleEndian 4).bind fun _ _ _ => reads_pure
        ⟨fun i hi => (hinputs.1 i hi).1, by
          simp only [size]
          omega⟩

theorem reads_decodeWitness : decodeWitness.Reads fun k witness => blobsSize witness + 1 ≤ k :=
  (reads_decodeList (c := fun _ => True) (reads_decodeBlob.mono fun _ _ h => ⟨trivial, h⟩)).mono
    fun _ _ h => h.2

/-- Witnesses are put to inputs that have none. -/
theorem sized_zipWith {inputs : List TxIn}
    (h : ∀ i ∈ inputs, i.previous.txid.length = 32 ∧ i.witness = [])
    (witnesses : List (List Bytes)) :
    (∀ i ∈ inputs.zipWith (fun i w => { i with witness := w }) witnesses,
        i.previous.txid.length = 32) ∧
      total ((inputs.zipWith (fun i w => { i with witness := w }) witnesses).map TxIn.size) ≤
        total (inputs.map TxIn.size) + total (witnesses.map blobsSize) := by
  induction inputs generalizing witnesses with
  | nil => simp
  | cons i inputs ih =>
      obtain ⟨⟨hid, hwitness⟩, hrest⟩ := List.forall_mem_cons.mp h
      cases witnesses with
      | nil => simp
      | cons witness witnesses =>
          obtain ⟨hids, hsize⟩ := ih hrest witnesses
          refine ⟨List.forall_mem_cons.mpr ⟨hid, hids⟩, ?_⟩
          simp only [List.zipWith_cons_cons, List.map_cons, total_cons, TxIn.size, hwitness,
            blobsSize, List.map_nil, total_nil] at hsize ⊢
          omega

theorem reads_decode : decode.Reads Sized := by
  refine (reads_littleEndian 4).bind fun _ version _ =>
    (reads_decodeList reads_input).bind fun _ inputs hinputs => ?_
  dsimp only
  split
  · refine reads_byte.bind fun _ _ _ => (reads_guard _).bind fun _ _ _ =>
      (reads_decodeList reads_input).bind fun _ inputs hinputs =>
        (reads_decodeList reads_output).bind fun _ outputs houtputs => ?_
    have hwitness : decodeWitness.Reads fun k witness => True ∧ blobsSize witness ≤ k :=
      reads_decodeWitness.mono fun _ _ h => ⟨trivial, by omega⟩
    refine (hwitness.replicate _).bind fun _ witnesses hwitnesses => (reads_guard _).bind
      fun _ _ _ => (reads_littleEndian 4).bind fun _ _ _ => reads_pure ?_
    obtain ⟨hids, hsize⟩ := sized_zipWith hinputs.1 witnesses
    refine ⟨hids, ?_⟩
    simp only [size]
    omega
  · exact (reads_decodeList reads_output).bind fun _ _ houtputs =>
      (reads_littleEndian 4).bind fun _ _ _ => reads_pure
        ⟨fun i hi => (hinputs.1 i hi).1, by
          simp only [size]
          omega⟩

theorem sized_of_ofBytes? {bs : Bytes} {tx : Transaction} (h : ofBytes? bs = some tx) :
    tx.Sized bs.length :=
  reads_decode.of_whole? h

end Transaction

/-- What the final scripts and the witness of an input take up at least. -/
def PsbtInput.size (i : PsbtInput) : Nat :=
  (i.finalScript.getD []).length + blobsSize (i.finalWitness.getD [])

/-- Signing data whose transaction is not signed, and has no more than `n` bytes once it is. -/
structure Psbt.Received (n : Nat) (p : Psbt) : Prop where
  ids : ∀ i ∈ p.tx.inputs, i.previous.txid.length = 32
  unsigned : ∀ i ∈ p.tx.inputs, i.signatureScript = [] ∧ i.witness = []
  size : p.extract.size ≤ n

namespace Psbt

theorem Received.mono {n m : Nat} {p : Psbt} (h : p.Received n) (hle : n ≤ m) : p.Received m :=
  { h with size := Nat.le_trans h.size hle }

theorem reads_entriesLoop (fuel : Nat) : (entriesLoop fuel).Reads fun k entries =>
    total (entries.map fun entry => entry.2.length) ≤ k := by
  induction fuel with
  | zero => exact reads_failure
  | succ fuel ih =>
      refine reads_decodeBlob.bind fun _ key _ => ?_
      split
      · exact reads_pure (Nat.zero_le _)
      · exact reads_decodeBlob.bind fun _ value hvalue => ih.bind fun _ entries hentries =>
          reads_pure (by
            simp only [List.map_cons, total_cons]
            omega)

theorem reads_decodeEntries : decodeEntries.Reads fun k entries =>
    total (entries.map fun entry => entry.2.length) ≤ k :=
  fun bs entries rest hread => reads_entriesLoop _ bs entries rest hread

/-- A property that one more entry keeps, as long as its value counts. -/
theorem reads_decodeMap {α : Type} {start : α} {add : α → Bytes × Bytes → Option α}
    {p : Nat → α → Prop} (hmono : ∀ k j a, k ≤ j → p k a → p j a) (hstart : p 0 start)
    (hadd : ∀ k a entry a', p k a → add a entry = some a' → p (k + entry.2.length) a') :
    (decodeMap start add).Reads p := by
  have hfold : ∀ (entries : List (Bytes × Bytes)) (k : Nat) (a : α), p k a →
      (entries.foldlM (fun a entry bs => (add a entry).map fun a => (a, bs)) a :
        Decoder α).Reads fun _ a' =>
          p (k + total (entries.map fun entry => entry.2.length)) a' := by
    intro entries
    induction entries with
    | nil => exact fun k a ha => reads_pure ha
    | cons entry entries ih =>
        intro k a ha
        rw [List.foldlM_cons]
        refine Reads.bind (p := fun j a' => j = 0 ∧ p (k + entry.2.length) a') ?_ ?_
        · rintro bs a' rest hread
          obtain ⟨next, hnext, hresult⟩ := Option.map_eq_some_iff.mp hread
          obtain ⟨rfl, rfl⟩ := Prod.mk.inj hresult
          exact ⟨0, Nat.zero_add _, rfl, hadd k a entry next ha hnext⟩
        · rintro _ a' ⟨rfl, ha'⟩
          refine (ih _ a' ha').mono fun _ _ h => ?_
          rwa [List.map_cons, total_cons, ← Nat.add_assoc]
  exact reads_decodeEntries.bind fun k entries hentries =>
    (hfold entries 0 start hstart).mono fun _ a ha => hmono _ _ a (by omega) ha

/-- The transaction comes from an entry, and other entries leave it as it is. -/
theorem sized_of_addGlobal {k : Nat} {g g' : Globals} {entry : Bytes × Bytes}
    (hg : ∀ tx, g.tx = some tx → tx.Sized k) (h : addGlobal g entry = some g') :
    ∀ tx, g'.tx = some tx → tx.Sized (k + entry.2.length) := by
  have hkept : ∀ tx, g.tx = some tx → tx.Sized (k + entry.2.length) := fun tx htx =>
    (hg tx htx).mono (Nat.le_add_right _ _)
  unfold addGlobal at h
  split at h
  · rename_i value
    obtain ⟨tx, htx, hresult⟩ := Option.bind_eq_some_iff.mp h
    obtain rfl := Option.some.inj hresult
    rintro _ ⟨⟩
    unfold setOnce at htx
    split at htx
    · cases htx
    · exact (Transaction.reads_decodeBase.of_whole? htx).mono (Nat.le_add_left _ _)
  · cases h
  · split at h
    · obtain ⟨others, -, rfl⟩ := Option.map_eq_some_iff.mp h
      exact hkept
    · cases h
  · cases h

/-- A script or a witness comes from an entry, once each. -/
theorem size_of_addInput {i i' : PsbtInput} {entry : Bytes × Bytes}
    (h : addInput i entry = some i') : i'.size ≤ i.size + entry.2.length := by
  unfold addInput at h
  split at h
  · obtain ⟨tx, -, hresult⟩ := Option.bind_eq_some_iff.mp h
    obtain rfl := Option.some.inj hresult
    exact Nat.le_add_right _ _
  · obtain ⟨output, -, hresult⟩ := Option.bind_eq_some_iff.mp h
    obtain rfl := Option.some.inj hresult
    exact Nat.le_add_right _ _
  · obtain ⟨script, -, hresult⟩ := Option.bind_eq_some_iff.mp h
    obtain rfl := Option.some.inj hresult
    exact Nat.le_add_right _ _
  · obtain ⟨script, hscript, hresult⟩ := Option.bind_eq_some_iff.mp h
    obtain rfl := Option.some.inj hresult
    unfold setOnce at hscript
    split at hscript
    · cases hscript
    · obtain rfl := Option.some.inj hscript
      simp only [PsbtInput.size, Option.getD_some]
      omega
  · obtain ⟨witness, hwitness, hresult⟩ := Option.bind_eq_some_iff.mp h
    obtain rfl := Option.some.inj hresult
    unfold setOnce at hwitness
    split at hwitness
    · cases hwitness
    · have hblobs := Transaction.reads_decodeWitness.of_whole? hwitness
      simp only [PsbtInput.size, Option.getD_some]
      omega
  · split at h
    · cases h
    · split at h
      · obtain ⟨others, -, rfl⟩ := Option.map_eq_some_iff.mp h
        exact Nat.le_add_right _ _
      · cases h
  · cases h

theorem reads_decodeInput : (decodeMap .empty addInput).Reads fun k i => True ∧ i.size ≤ k :=
  reads_decodeMap (fun _ _ _ hle h => ⟨trivial, Nat.le_trans h.2 hle⟩) ⟨trivial, Nat.le_refl 0⟩
    fun k i entry i' hi h => ⟨trivial, by
      have hsize := size_of_addInput h
      omega⟩

theorem reads_decodeOutput : (decodeMap [] addOutput).Reads fun k _ => True ∧ 0 ≤ k :=
  reads_decodeMap (fun _ _ _ _ _ => ⟨trivial, Nat.zero_le _⟩) ⟨trivial, Nat.zero_le _⟩
    fun _ _ _ _ _ _ => ⟨trivial, Nat.zero_le _⟩

theorem total_size_zip (inputs : List TxIn) (known : List PsbtInput) :
    total (((inputs.zip known).map fun (i, k) =>
      { i with
        signatureScript := k.finalScript.getD []
        witness := k.finalWitness.getD [] }).map TxIn.size) ≤
      total (inputs.map TxIn.size) + total (known.map PsbtInput.size) := by
  induction inputs generalizing known with
  | nil => exact Nat.zero_le _
  | cons i inputs ih =>
      cases known with
      | nil => exact Nat.zero_le _
      | cons k known =>
          have hrest := ih known
          simp only [List.zip_cons_cons, List.map_cons, total_cons, TxIn.size, PsbtInput.size]
            at hrest ⊢
          omega

theorem size_extract (p : Psbt) :
    p.extract.size ≤ p.tx.size + total (p.inputs.map PsbtInput.size) := by
  have hinputs : total (p.extract.inputs.map TxIn.size) ≤ _ := total_size_zip p.tx.inputs p.inputs
  have houtputs : p.extract.outputs = p.tx.outputs := rfl
  rw [Transaction.size, Transaction.size, houtputs]
  omega

theorem reads_decode : decode.Reads Received := by
  refine (reads_take _).bind fun _ _ _ => (reads_guard _).bind fun _ _ _ =>
    (reads_decodeMap (p := fun k g => ∀ tx, g.tx = some tx → tx.Sized k)
      (fun _ _ _ hle h tx htx => (h tx htx).mono hle) (by simp)
      fun _ _ _ _ => sized_of_addGlobal).bind fun _ globals hglobals => ?_
  split
  · rename_i tx htx
    refine (reads_guard _).bind fun _ _ hunsigned =>
      (reads_decodeInput.replicate _).bind fun _ inputs hinputs => ?_
    refine (reads_decodeOutput.replicate _).bind fun _ outputs _ => reads_pure ?_
    have hsized := hglobals tx htx
    refine ⟨hsized.ids, by simpa [List.all_eq_true] using hunsigned.2, ?_⟩
    refine Nat.le_trans (size_extract _) ?_
    have hsize := hsized.size
    dsimp only
    omega
  · exact reads_failure

theorem received_of_ofBytes? {bs : Bytes} {p : Psbt} (h : ofBytes? bs = some p) :
    p.Received bs.length := by
  obtain ⟨⟨p, rest⟩, hread, rfl⟩ := Option.map_eq_some_iff.mp h
  obtain ⟨k, hk, hp⟩ := reads_decode bs p rest hread
  exact hp.mono (by omega)

end Psbt

end Chain

end Paydesk

import Mathlib.Data.List.TakeDrop
import Mathlib.Tactic.MkIffOfInductiveProp
import Mathlib.Tactic.SplitIfs
import Paydesk.Chain.Transaction
import Paydesk.Proofs.Bytes.Hex
import Paydesk.Proofs.Chain.Weight
import Paydesk.Proofs.Text.Digits

/-!
What is written of outputs and of references to them, as bytes and as texts, read back.
-/

namespace Paydesk

namespace Bytes

theorem ofLittleEndian_littleEndian {width n : Nat} (h : n < 256 ^ width) :
    ofLittleEndian (littleEndian width n) = n := by
  induction width generalizing n with
  | zero =>
      rw [Nat.pow_zero, Nat.lt_one_iff] at h
      rw [h]
      rfl
  | succ width ih =>
      have hrest : n / 256 < 256 ^ width := by
        rw [Nat.pow_succ] at h
        omega
      rw [littleEndian, ofLittleEndian, ih hrest, UInt8.toNat_ofNat']
      omega

end Bytes

namespace Decoder

variable {α β : Type} {d : Decoder α} {a : α} {b : β} {bs cs : Bytes}

/-- Some bytes are read as a value, whatever stands behind them. -/
def Restores (d : Decoder α) (bs : Bytes) (a : α) : Prop := ∀ rest, d (bs ++ rest) = some (a, rest)

theorem restores_pure (a : α) : (pure a : Decoder α).Restores [] a := fun _ => rfl

theorem Restores.bind {f : α → Decoder β} (h : d.Restores bs a) (hf : (f a).Restores cs b) :
    (d >>= f).Restores (bs ++ cs) b := by
  intro rest
  rw [List.append_assoc]
  exact (congrArg (Option.bind · _) (h (cs ++ rest))).trans (hf rest)

theorem Restores.map {f : α → β} (h : d.Restores bs a) :
    (do return f (← d)).Restores bs (f a) := by
  have hbind : (d >>= fun a => pure (f a)).Restores (bs ++ []) (f a) :=
    h.bind (restores_pure (f a))
  rwa [List.append_nil] at hbind

theorem restores_take {n : Nat} (h : bs.length = n) : (take n).Restores bs bs := by
  intro rest
  simp [take, ← h]

theorem restores_byte (b : UInt8) : byte.Restores [b] b := fun _ => rfl

theorem restores_littleEndian (width : Nat) {n : Nat} (h : n < 256 ^ width) :
    (littleEndian width).Restores (Bytes.littleEndian width n) n := by
  have htake := restores_take (Chain.length_littleEndian width n)
  have hmap := htake.map (f := Bytes.ofLittleEndian)
  rwa [Bytes.ofLittleEndian_littleEndian h] at hmap

theorem restores_guard {p : Bool} (h : p) : (guard p).Restores [] () := by
  intro rest
  simp [guard, h]

theorem Restores.whole? (h : d.Restores bs a) : whole? d bs = some a := by
  have hrun := h []
  rw [List.append_nil] at hrun
  rw [Decoder.whole?, StateT.run, hrun]

end Decoder

namespace Chain

open Decoder

/-- A count in as many bytes as its tag tells, if fewer would not do. -/
theorem restores_decodeCount_wide {tag : UInt8} {width n : Nat} (htag : ¬tag < 0xfd)
    (hwidth : (if tag = 0xfd then 2 else if tag = 0xfe then 4 else 8) = width)
    (hn : n < 256 ^ width) (hsize : countSize n = width + 1) :
    decodeCount.Restores (tag :: Bytes.littleEndian width n) n := by
  have hguard : (countSize n == width + 1) = true := beq_iff_eq.mpr hsize
  have hrest : (do
      let n ← littleEndian width
      Decoder.guard (countSize n == width + 1)
      return n : Decoder Nat).Restores (Bytes.littleEndian width n ++ ([] ++ [])) n :=
    (restores_littleEndian width hn).bind ((restores_guard hguard).bind (restores_pure n))
  rw [List.append_nil, List.append_nil] at hrest
  refine (restores_byte tag).bind ?_
  rw [if_neg htag, hwidth]
  exact hrest

theorem restores_decodeCount {n : Nat} (h : n < limit64) :
    decodeCount.Restores (encodeCount n) n := by
  unfold encodeCount
  split_ifs with hsmall hshort hlong
  · have htag : (UInt8.ofNat n).toNat = n := by
      rw [UInt8.toNat_ofNat']
      omega
    have hlt : UInt8.ofNat n < 0xfd := UInt8.lt_iff_toNat_lt.mpr (htag.symm ▸ hsmall)
    refine (restores_byte _).bind ?_
    rw [if_pos hlt, htag]
    exact restores_pure n
  · refine restores_decodeCount_wide (by decide) rfl hshort ?_
    simp [countSize, hsmall, hshort]
  · refine restores_decodeCount_wide (by decide) rfl hlong ?_
    simp [countSize, hsmall, hshort, hlong]
  · refine restores_decodeCount_wide (by decide) rfl h ?_
    simp [countSize, hsmall, hshort, hlong]

theorem restores_decodeBlob {bs : Bytes} (h : bs.length < limit64) :
    decodeBlob.Restores (encodeBlob bs) bs :=
  (restores_decodeCount h).bind (restores_take rfl)

/-- An identifier of 32 bytes and an index of 32 bits. -/
@[mk_iff]
structure OutPoint.Fits (o : OutPoint) : Prop where
  txid : o.txid.length = 32
  vout : o.vout < limit32

@[mk_iff]
structure TxOut.Fits (o : TxOut) : Prop where
  value : o.value < limit64
  script : o.script.length < limit64

instance (o : OutPoint) : Decidable o.Fits := decidable_of_iff' _ (OutPoint.fits_iff o)

instance (o : TxOut) : Decidable o.Fits := decidable_of_iff' _ (TxOut.fits_iff o)

theorem OutPoint.Fits.restores {o : OutPoint} (h : o.Fits) :
    OutPoint.decode.Restores o.encode o :=
  (restores_take h.txid).bind (restores_littleEndian 4 h.vout).map

theorem TxOut.Fits.restores {o : TxOut} (h : o.Fits) : TxOut.decode.Restores o.encode o :=
  (restores_littleEndian 8 h.value).bind (restores_decodeBlob h.script).map

theorem readId?_renderId {id : Bytes} (h : id.length = 32) : readId? (renderId id) = some id := by
  simp [readId?, renderId, Hex.decode?_encode, h]

theorem OutPoint.toList_render (o : OutPoint) :
    o.render.toList = Hex.encodeChars o.txid.reverse ++ ':' :: (toString o.vout).toList := by
  simp [OutPoint.render, renderId, Hex.encode]

theorem OutPoint.Fits.read?_render {o : OutPoint} (h : o.Fits) :
    OutPoint.read? o.render = some o := by
  have hcolon : ∀ c ∈ Hex.encodeChars o.txid.reverse, (c != ':') = true := fun c hc =>
    (Hex.isDigit_of_mem_encodeChars c hc).of_forall (p := fun c => (c != ':') = true) (by decide)
  have hspan : o.render.toList.span (· != ':') =
      (Hex.encodeChars o.txid.reverse, ':' :: (toString o.vout).toList) := by
    rw [OutPoint.toList_render, List.span_eq_takeWhile_dropWhile,
      List.takeWhile_append_of_pos hcolon, List.dropWhile_append_of_pos hcolon]
    simp
  have hid : readId? (String.ofList (Hex.encodeChars o.txid.reverse)) = some o.txid :=
    readId?_renderId h.txid
  have hvout : Text.readNat limit32 (String.ofList (toString o.vout).toList) = .ok o.vout := by
    rw [String.ofList_toList]
    exact Text.readNat_toString h.vout
  rw [OutPoint.read?, hspan]
  simp only [hid, hvout, Option.bind_eq_bind, Option.bind_some, Except.toOption, if_true]

end Chain

end Paydesk

import Mathlib.Algebra.Group.Nat.Defs
import Paydesk.Proofs.Chain.Weight
import Paydesk.Wallet.Signing

/-!
How long signatures are as scripts hold them: the second integer of a signature is in the
lower half, so it never needs a byte for its sign, and the first one needs at most one.
-/

namespace Paydesk

namespace Bytes

theorem length_bigEndian (width n : Nat) : (bigEndian width n).length = width := by
  rw [bigEndian, List.length_reverse, Chain.length_littleEndian]

theorem littleEndian_succ (width n : Nat) : littleEndian (width + 1) n =
    littleEndian width n ++ [UInt8.ofNat (n / 256 ^ width % 256)] := by
  induction width generalizing n with
  | zero => simp [littleEndian]
  | succ width ih =>
      have hdigit : n / 256 / 256 ^ width = n / 256 ^ (width + 1) := by
        rw [Nat.div_div_eq_div_mul, Nat.pow_succ, Nat.mul_comm]
      rw [littleEndian, ih, hdigit, littleEndian, List.cons_append]

theorem bigEndian_succ (width n : Nat) :
    bigEndian (width + 1) n = UInt8.ofNat (n / 256 ^ width % 256) :: bigEndian width n := by
  rw [bigEndian, littleEndian_succ, List.reverse_append]
  rfl

/-- Leading zeros are all that more digits than needed bring. -/
theorem dropWhile_bigEndian {width n : Nat} (h : n < 256 ^ width) {width' : Nat}
    (hle : width ≤ width') :
    (bigEndian width' n).dropWhile (· == 0) = (bigEndian width n).dropWhile (· == 0) := by
  induction hle with
  | refl => rfl
  | @step width' hle ih =>
      have hzero : n / 256 ^ width' = 0 :=
        Nat.div_eq_of_lt (Nat.lt_of_lt_of_le h (Nat.pow_le_pow_right (by decide) hle))
      rw [bigEndian_succ, hzero, ← ih]
      rfl

end Bytes

namespace Keys

namespace Signature

open Bytes

/-- A number whose highest bit is clear takes its digits, and a byte for how many they are. -/
theorem length_signedInteger_le {width n : Nat} (h : n < 128 * 256 ^ width) (hle : width < 33) :
    (signedInteger n).length ≤ width + 2 := by
  have hpow : 0 < 256 ^ width := Nat.pow_pos (by decide)
  have hdigits : (bigEndian 33 n).dropWhile (· == 0) =
      (bigEndian (width + 1) n).dropWhile (· == 0) := by
    refine dropWhile_bigEndian ?_ hle
    rw [Nat.pow_succ]
    omega
  have hfirst : UInt8.ofNat (n / 256 ^ width % 256) < 0x80 := by
    have hlow : n / 256 ^ width < 128 := (Nat.div_lt_iff_lt_mul hpow).mpr h
    have hbyte : (UInt8.ofNat (n / 256 ^ width % 256)).toNat = n / 256 ^ width % 256 := by
      rw [UInt8.toNat_ofNat', Nat.mod_mod]
    rw [UInt8.lt_iff_toNat_lt, hbyte, Nat.mod_eq_of_lt (by omega)]
    exact hlow
  have hwidth := length_bigEndian width n
  have hrest := (List.dropWhile_sublist (l := bigEndian width n) (· == 0)).length_le
  simp only [signedInteger]
  rw [hdigits, bigEndian_succ, List.dropWhile_cons]
  by_cases hzero : UInt8.ofNat (n / 256 ^ width % 256) == 0
  · -- The highest digit is a zero, and one for the sign takes no more than its place.
    rw [if_pos hzero]
    cases hdropped : (bigEndian width n).dropWhile (· == 0) with
    | nil => simp
    | cons b bs =>
        rw [hdropped, List.length_cons] at hrest
        dsimp only
        split <;> simp only [List.length_cons] <;> omega
  · rw [if_neg hzero]
    dsimp only
    refine Nat.le_of_eq ?_
    rw [if_pos hfirst, List.length_cons, List.length_cons, hwidth]

/-- The first integer is one of the scalars, and the second one is in their lower half. -/
structure Reduced (signature : Signature) : Prop where
  r_lt : signature.r < groupOrder
  s_le : signature.s ≤ groupOrder / 2

theorem reduced_of_withNonce? {key : SecretKey} {digest nonce : Nat} {signature : Signature}
    (h : withNonce? key digest nonce = some signature) : signature.Reduced := by
  have horder : 0 < groupOrder := by decide
  simp only [withNonce?, Option.ite_none_left_eq_some, Option.some.injEq] at h
  obtain ⟨-, -, rfl⟩ := h
  refine ⟨Nat.mod_lt _ horder, ?_⟩
  dsimp only
  split <;> omega

theorem reduced_firstOf (key : SecretKey) (digest attempts : Nat) (source : NonceSource) :
    (firstOf key digest attempts source).Reduced := by
  induction attempts generalizing source with
  | zero =>
      have horder : 0 < groupOrder := by decide
      exact ⟨horder, Nat.zero_le _⟩
  | succ attempts ih =>
      cases hsigned : withNonce? key digest source.draw.1.toNat with
      | none =>
          simp only [firstOf, hsigned]
          exact ih _
      | some signature =>
          simp only [firstOf, hsigned]
          exact reduced_of_withNonce? hsigned

theorem reduced_sign (key : SecretKey) (digest extra : Bytes) : (sign key digest extra).Reduced :=
  reduced_firstOf _ _ _ _

theorem reduced_signLow (key : SecretKey) (digest : Bytes) : (signLow key digest).Reduced := by
  have hfrom : ∀ attempts counter, (lowFrom key digest attempts counter).Reduced := by
    intro attempts
    induction attempts with
    | zero => exact fun _ => reduced_sign _ _ _
    | succ attempts ih =>
        intro counter
        unfold lowFrom
        generalize (if counter = 0 then [] else littleEndian 32 counter) = extra
        dsimp only
        split
        · exact reduced_sign _ _ _
        · exact ih _
  exact hfrom _ _

theorem Reduced.length_encode_le {signature : Signature} (h : signature.Reduced) :
    signature.encode.length ≤ 71 := by
  have horder : groupOrder < 128 * 256 ^ 32 := by decide
  have hhalf : groupOrder / 2 < 128 * 256 ^ 31 := by decide
  have hr := length_signedInteger_le (Nat.lt_trans h.r_lt horder) (by decide)
  have hs := length_signedInteger_le (Nat.lt_of_le_of_lt h.s_le hhalf) (by decide)
  simp only [encode, List.length_cons, List.length_append]
  omega

end Signature

theorem SecretKey.length_publicKey (key : SecretKey) : key.publicKey.length = 33 := by
  rw [publicKey, Point.compressed]
  simp [Bytes.length_bigEndian]

end Keys

namespace Wallet

open Keys

theorem length_signDigest_le (key : SecretKey) (choice : NonceChoice) (digest : Bytes) :
    (signDigest key choice digest).length ≤ 72 := by
  unfold signDigest
  rw [List.length_append, List.length_singleton]
  cases choice with
  | first => exact Nat.succ_le_succ (Signature.reduced_sign key digest []).length_encode_le
  | low => exact Nat.succ_le_succ (Signature.reduced_signLow key digest).length_encode_le

end Wallet

end Paydesk

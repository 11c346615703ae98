import Paydesk.Bytes.Hex

/-!
The digits of bytes, read back.
-/

namespace Paydesk

namespace Hex

/-- A digit as it is written, in lower case. -/
def IsDigit (c : Char) : Prop := ∃ n, n < 16 ∧ c = digit n

theorem value?_digit {n : Nat} (h : n < 16) : value? (digit n) = some n := by
  have hall : ∀ n < 16, value? (digit n) = some n := by decide
  exact hall n h

theorem IsDigit.of_forall {p : Char → Prop} (h : ∀ n < 16, p (digit n)) {c : Char}
    (hc : IsDigit c) : p c := by
  obtain ⟨n, hn, rfl⟩ := hc
  exact h n hn

theorem isDigit_of_mem_encodeChars {bs : Bytes} : ∀ c ∈ encodeChars bs, IsDigit c := by
  induction bs with
  | nil => exact fun _ h => absurd h List.not_mem_nil
  | cons b bs ih =>
      have hb : b.toNat < 256 := b.toNat_lt
      intro c hc
      rcases List.mem_cons.mp hc with rfl | hc
      · exact ⟨_, by omega, rfl⟩
      · rcases List.mem_cons.mp hc with rfl | hc
        · exact ⟨_, by omega, rfl⟩
        · exact ih c hc

theorem length_encodeChars (bs : Bytes) : (encodeChars bs).length = 2 * bs.length := by
  induction bs with
  | nil => rfl
  | cons b bs ih =>
      simp only [encodeChars, List.length_cons, ih]
      omega

theorem decodeLoop_encodeChars (acc bs : Bytes) :
    decodeLoop acc (encodeChars bs) = some (acc.reverse ++ bs) := by
  induction bs generalizing acc with
  | nil => simp [encodeChars, decodeLoop]
  | cons b bs ih =>
      have hb : b.toNat < 256 := b.toNat_lt
      have hbyte : UInt8.ofNat (b.toNat / 16 * 16 + b.toNat % 16) = b := by
        rw [Nat.mul_comm, Nat.div_add_mod]
        exact UInt8.ofNat_toNat
      rw [encodeChars, decodeLoop, value?_digit (by omega), value?_digit (by omega)]
      simp only [hbyte, ih, List.reverse_cons, List.append_assoc, List.singleton_append]

theorem decodeChars?_encodeChars (bs : Bytes) : decodeChars? (encodeChars bs) = some bs :=
  decodeLoop_encodeChars [] bs

theorem decode?_encode (bs : Bytes) : decode? (encode bs) = some bs := by
  rw [decode?, encode, String.toList_ofList, decodeChars?_encodeChars]

/-- No text stands for more bytes than it has characters. -/
theorem length_decodeLoop_le {acc bs : Bytes} {cs : List Char}
    (h : decodeLoop acc cs = some bs) : bs.length ≤ acc.length + cs.length := by
  fun_induction decodeLoop acc cs with
  | case1 =>
      obtain rfl := Option.some.inj h
      simp
  | case2 => cases h
  | case3 acc a b cs x y hx hy ih =>
      have ih := ih h
      simp only [List.length_cons] at ih ⊢
      omega
  | case4 => cases h

end Hex

end Paydesk

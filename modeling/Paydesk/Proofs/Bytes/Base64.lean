import Paydesk.Bytes.Base64
import Paydesk.Proofs.Bytes.Hex

/-!
Groups of digits, read back as the bytes that they stand for.
-/

namespace Paydesk

namespace Base64

attribute [local simp] decodeLoop encodeChars

theorem value?_digit {n : Nat} (h : n < 64) : value? (digit n) = some n := by
  have hall : ∀ n < 64, value? (digit n) = some n := by decide +kernel
  exact hall n h

theorem digit_ne_pad {n : Nat} (h : n < 64) : digit n ≠ '=' := by
  have hall : ∀ n < 64, digit n ≠ '=' := by decide +kernel
  exact hall n h

theorem ofNat_eq {n : Nat} {b : UInt8} (h : n = b.toNat) : UInt8.ofNat n = b := by
  rw [h, UInt8.ofNat_toNat]

section Groups

variable {acc : Bytes} {a b c d : Nat} (ha : a < 64) (hb : b < 64)
include ha hb

theorem decodeLoop_one (hrest : b % 16 = 0) :
    decodeLoop acc [digit a, digit b, '=', '='] =
      some (UInt8.ofNat (a * 4 + b / 16) :: acc).reverse := by
  rw [decodeLoop]
  simp only [value?_digit ha, value?_digit hb, hrest, if_true]

theorem decodeLoop_two (hc : c < 64) (hrest : c % 4 = 0) :
    decodeLoop acc [digit a, digit b, digit c, '='] =
      some (UInt8.ofNat (b % 16 * 16 + c / 4) :: UInt8.ofNat (a * 4 + b / 16) :: acc).reverse := by
  rw [decodeLoop]
  · simp only [value?_digit ha, value?_digit hb, value?_digit hc, hrest, if_true]
  · exact digit_ne_pad hc

theorem decodeLoop_group (hc : c < 64) (hd : d < 64) (cs : List Char) :
    decodeLoop acc (digit a :: digit b :: digit c :: digit d :: cs) =
      decodeLoop (UInt8.ofNat (c % 4 * 64 + d) :: UInt8.ofNat (b % 16 * 16 + c / 4) ::
        UInt8.ofNat (a * 4 + b / 16) :: acc) cs := by
  have hpad := digit_ne_pad hd
  rw [decodeLoop]
  · simp only [value?_digit ha, value?_digit hb, value?_digit hc, value?_digit hd]
  · rintro - hpad' -
    exact hpad hpad'
  · rintro hpad' -
    exact hpad hpad'

end Groups

theorem decodeLoop_encodeChars (acc bs : Bytes) :
    decodeLoop acc (encodeChars bs) = some (acc.reverse ++ bs) := by
  fun_induction encodeChars bs generalizing acc with
  | case1 => simp [decodeLoop]
  | case2 a n =>
      have ha := a.toNat_lt
      rw [decodeLoop_one (by omega) (by omega) (by omega), ofNat_eq (b := a) (by omega)]
      simp
  | case3 a b n =>
      have ha := a.toNat_lt
      have hb := b.toNat_lt
      rw [decodeLoop_two (by omega) (by omega) (by omega) (by omega), ofNat_eq (b := b) (by omega),
        ofNat_eq (b := a) (by omega)]
      simp
  | case4 a b c bs n ih =>
      have ha := a.toNat_lt
      have hb := b.toNat_lt
      have hc := c.toNat_lt
      rw [decodeLoop_group (by omega) (by omega) (by omega) (by omega), ih,
        ofNat_eq (b := c) (by omega), ofNat_eq (b := b) (by omega), ofNat_eq (b := a) (by omega)]
      simp

theorem decodeChars?_encodeChars (bs : Bytes) : decodeChars? (encodeChars bs) = some bs :=
  decodeLoop_encodeChars [] bs

/-- No text stands for more bytes than it has characters. -/
theorem length_decodeLoop_le {acc bs : Bytes} {cs : List Char}
    (h : decodeLoop acc cs = some bs) : bs.length ≤ acc.length + cs.length := by
  fun_induction decodeLoop acc cs with
  | case1 =>
      obtain rfl := Option.some.inj h
      simp
  | case2 =>
      obtain rfl := Option.some.inj h
      simp
  | case5 =>
      obtain rfl := Option.some.inj h
      simp
  | case8 =>
      rename_i ih
      have ih := ih h
      simp only [List.length_cons] at ih ⊢
      omega
  | case3 | case4 | case6 | case7 | case9 | case10 => cases h

/-- What was read already comes first. -/
theorem prefix_of_decodeLoop {acc bs : Bytes} {cs : List Char} (h : decodeLoop acc cs = some bs) :
    acc.reverse <+: bs := by
  fun_induction decodeLoop acc cs with
  | case1 =>
      obtain rfl := Option.some.inj h
      exact List.prefix_rfl
  | case2 =>
      obtain rfl := Option.some.inj h
      simp
  | case5 =>
      obtain rfl := Option.some.inj h
      simp
  | case8 =>
      rename_i ih
      have hprefix := ih h
      simp only [List.reverse_cons, List.append_assoc] at hprefix
      exact (List.prefix_append _ _).trans hprefix
  | case3 | case4 | case6 | case7 | case9 | case10 => cases h

/-- The first byte that a text stands for comes from its first two digits. -/
theorem head?_of_decodeChars? {a b : Char} {cs : List Char} {bs : Bytes}
    (h : decodeChars? (a :: b :: cs) = some bs) : ∃ x y, value? a = some x ∧ value? b = some y ∧
      bs.head? = some (UInt8.ofNat (x * 4 + y / 16)) := by
  rw [decodeChars?, decodeLoop.eq_def] at h
  split at h
  · rename_i heq
    cases heq
  · rename_i heq
    cases heq
    split at h
    · rename_i x y hx hy
      split at h
      · refine ⟨x, y, hx, hy, ?_⟩
        obtain rfl := Option.some.inj h
        rfl
      · cases h
    · cases h
  · rename_i heq
    cases heq
    split at h
    · rename_i x y z hx hy hz
      split at h
      · refine ⟨x, y, hx, hy, ?_⟩
        obtain rfl := Option.some.inj h
        rfl
      · cases h
    · cases h
  · rename_i heq
    cases heq
    split at h
    · rename_i x y z w hx hy hz hw
      refine ⟨x, y, hx, hy, ?_⟩
      obtain ⟨more, rfl⟩ := prefix_of_decodeLoop h
      rfl
    · cases h
  · cases h

/-- Hexadecimal digits read as digits of this kind never stand for bytes that begin with a
`p`. -/
theorem head?_of_hex {bs bs' : Bytes} (h : decodeChars? (Hex.encodeChars bs) = some bs') :
    bs'.head? ≠ some 0x70 := by
  have hdigit : ∀ n < 16, ∀ m < 16, ∀ x y, value? (Hex.digit n) = some x →
      value? (Hex.digit m) = some y → UInt8.ofNat (x * 4 + y / 16) ≠ 0x70 := by
    intro n hn m hm x y hx hy
    have hall : ∀ n < 16, ∀ m < 16, ((value? (Hex.digit n)).getD 0 * 4 +
      (value? (Hex.digit m)).getD 0 / 16) % 256 ≠ 0x70 := by decide +kernel
    have hne := hall n hn m hm
    rw [hx, hy, Option.getD_some, Option.getD_some] at hne
    intro heq
    have hnat := congrArg UInt8.toNat heq
    rw [UInt8.toNat_ofNat'] at hnat
    exact hne hnat
  cases bs with
  | nil =>
      obtain rfl := Option.some.inj h
      simp
  | cons b bs =>
      have hb := b.toNat_lt
      obtain ⟨x, y, hx, hy, hhead⟩ := head?_of_decodeChars? h
      rw [hhead]
      exact fun heq => hdigit _ (by omega) _ (by omega) x y hx hy (Option.some.inj heq)

end Base64

end Paydesk

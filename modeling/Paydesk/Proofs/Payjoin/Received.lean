import Paydesk.Payjoin.Request
import Paydesk.Proofs.Bytes.Base64
import Paydesk.Proofs.Chain.Wire
import Paydesk.Proofs.Outcome
import Paydesk.Proofs.Text.Segments

/-!
What holds of every request that is read from a body. No text stands for more bytes than
it has characters.
-/

namespace Paydesk

namespace Text

theorem Utf8.length_decodeFrom_le {index skip : Nat} {done cs : List Char} {bs : Bytes}
    (h : decodeFrom index skip done bs = .ok cs) : cs.length ≤ done.length + bs.length := by
  fun_induction decodeFrom index skip done bs with
  | case1 =>
      obtain rfl := Except.ok.inj h
      simp
  | case2 index done b bs skip ih =>
      have ih := ih h
      rw [List.length_cons]
      omega
  | case3 =>
      rename_i ih
      have ih := ih h
      simp only [List.length_cons] at ih ⊢
      omega
  | case4 => cases h
  | case5 => cases h

theorem Utf8.length_of_decode {ε : Type} {f : DecodeError → ε} {bs : Bytes} {cs : List Char}
    (h : (decode bs).mapError f = .ok cs) : cs.length ≤ bs.length := by
  cases hdecode : decode bs with
  | error => rw [hdecode] at h; cases h
  | ok =>
      rw [hdecode] at h
      obtain rfl := Except.ok.inj h
      simpa using length_decodeFrom_le hdecode

end Text

namespace Payjoin

open Chain Text

/-- What a request carries is not signed where it must not be, and it is no larger than
what it was read from. -/
def Payload.Received (n : Nat) : Payload → Prop
  | .psbt p => p.Received n
  | .transaction tx => tx.Sized n

theorem Payload.Received.mono {n m : Nat} {payload : Payload} (h : payload.Received n)
    (hle : n ≤ m) : payload.Received m := by
  cases payload with
  | psbt p => exact Psbt.Received.mono h hle
  | transaction tx => exact Transaction.Sized.mono h hle

theorem received_of_parseBody? {text : List Char} {payload : Payload} {format : BodyFormat}
    (h : parseBody? text = some (payload, format)) : payload.Received text.length := by
  have hbase64 : ∀ bs, Base64.decodeChars? text = some bs → bs.length ≤ text.length :=
    fun bs hbs => Nat.le_trans (Base64.length_decodeLoop_le hbs) (by simp)
  have hhex : ∀ bs, Hex.decodeChars? text = some bs → bs.length ≤ text.length :=
    fun bs hbs => Nat.le_trans (Hex.length_decodeLoop_le hbs) (by simp)
  unfold parseBody? at h
  split at h
  · rename_i p hread
    cases h
    obtain ⟨bs, hbs, hp⟩ := Option.bind_eq_some_iff.mp hread
    exact (Psbt.received_of_ofBytes? hp).mono (hbase64 bs hbs)
  · obtain ⟨bs, hbs, hread⟩ := Option.bind_eq_some_iff.mp h
    split at hread
    · rename_i p hp
      cases hread
      exact (Psbt.received_of_ofBytes? hp).mono (hhex bs hbs)
    · obtain ⟨tx, htx, hresult⟩ := Option.map_eq_some_iff.mp hread
      cases hresult
      have hbytes := (Option.ite_none_right_eq_some.mp htx).2
      exact (Transaction.sized_of_ofBytes? hbytes).mono (hhex bs hbs)

theorem Request.received_of_read {body : Bytes} {query : String}
    {headers : List (String × String)} {request : Request}
    (h : read body query headers = .ok request) : request.payload.Received maxLength := by
  unfold read at h
  generalize headers.lookup "Content-Type" = contentType? at h
  cases contentType? with
  | none => cases h
  | some contentType =>
  replace h := (ite_error_eq_ok.mp h).2
  generalize headers.lookup "Content-Length" = length? at h
  cases length? with
  | none => cases h
  | some written =>
  obtain ⟨length, -, h⟩ := bind_eq_ok.mp h
  obtain ⟨hlength, h⟩ := ite_error_eq_ok.mp h
  generalize htaken : (Decoder.take length).run body = taken? at h
  cases taken? with
  | none => cases h
  | some taken =>
  obtain ⟨text, hdecoded, h⟩ := bind_eq_ok.mp h
  generalize hparsed : parseBody? (trim text) = parsed? at h
  cases parsed? with
  | none => cases h
  | some parsed =>
  obtain ⟨params, -, h⟩ := bind_eq_ok.mp h
  obtain rfl := Except.ok.inj h
  obtain ⟨front, rest⟩ := taken
  obtain ⟨-, -, hfront, -⟩ := Decoder.reads_take length body front rest htaken
  have htext : text.length ≤ front.length := Utf8.length_of_decode hdecoded
  have htrimmed := (trim_sublist text).length_le
  exact (received_of_parseBody? hparsed).mono (by omega)

end Payjoin

end Paydesk

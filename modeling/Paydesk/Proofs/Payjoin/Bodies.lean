import Paydesk.Proofs.Bytes.Base64
import Paydesk.Proofs.Chain.Psbt
import Paydesk.Proofs.Payjoin.Received
import Paydesk.Proofs.Text.Digits
import Paydesk.Proofs.Text.Segments

/-!
A fallback that was written in some format is read as what it is, and as written in that
format.
-/

namespace Paydesk

namespace Text

/-- Text without blanks, each character of which takes one byte. -/
def Dense (cs : List Char) : Prop := ∀ c ∈ cs, isAscii c ∧ ¬isBlank c

theorem Utf8.encodeChar_ascii {c : Char} (h : isAscii c) : encodeChar c = [UInt8.ofNat c.toNat] := by
  have hlt : c.toNat < 0x80 := by simpa [isAscii] using h
  exact if_pos hlt

theorem Utf8.length_encode {s : String} (h : Dense s.toList) :
    (encode s).length = s.toList.length := by
  have hsizes : s.toList.map (fun c => (encodeChar c).length) = s.toList.map fun _ => 1 :=
    List.map_congr_left fun c hc => by
      rw [encodeChar_ascii (h c hc).1]
      rfl
  rw [encode, List.length_flatMap, hsizes, List.map_const', List.sum_replicate_nat, Nat.mul_one]

theorem Utf8.decodeFrom_ascii {cs : List Char} (h : ∀ c ∈ cs, isAscii c) (index : Nat)
    (done : List Char) :
    decodeFrom index 0 done (cs.flatMap encodeChar) = .ok (done.reverse ++ cs) := by
  induction cs generalizing index done with
  | nil => simp [decodeFrom]
  | cons c cs ih =>
      obtain ⟨hc, hcs⟩ := List.forall_mem_cons.mp h
      have hlt : c.toNat < 0x80 := by simpa [isAscii] using hc
      have hbyte : (UInt8.ofNat c.toNat).toNat = c.toNat := by
        rw [UInt8.toNat_ofNat']
        omega
      have hpiece : ∀ bs, piece (UInt8.ofNat c.toNat) bs = .char c.toNat 1 := by
        intro bs
        simp [piece, following?, hbyte, hlt, continuation, firstBits]
      rw [List.flatMap_cons, encodeChar_ascii hc, List.singleton_append, decodeFrom, hpiece]
      dsimp only
      rw [ih hcs, Char.ofNat_toNat, List.reverse_cons, List.append_assoc]
      rfl

theorem Utf8.decode_encode {s : String} (h : Dense s.toList) : decode (encode s) = .ok s.toList :=
  decodeFrom_ascii (fun c hc => (h c hc).1) 0 []

theorem Dense.nil : Dense [] := List.forall_mem_nil _

theorem Dense.cons {c : Char} {cs : List Char} (hc : isAscii c ∧ ¬isBlank c) (h : Dense cs) :
    Dense (c :: cs) := List.forall_mem_cons.mpr ⟨hc, h⟩

theorem Dense.trim {cs : List Char} (h : Dense cs) : trim cs = cs :=
  trim_of_no_blank fun c hc => (h c hc).2

end Text

open Text

theorem Hex.dense_encodeChars (bs : Bytes) : Dense (encodeChars bs) := by
  have hdigit : ∀ n < 16, isAscii (digit n) ∧ ¬isBlank (digit n) := by decide
  intro c hc
  obtain ⟨n, hn, rfl⟩ := isDigit_of_mem_encodeChars c hc
  exact hdigit n hn

theorem Base64.dense_encodeChars (bs : Bytes) : Dense (encodeChars bs) := by
  have hdigit : ∀ n < 64, isAscii (digit n) ∧ ¬isBlank (digit n) := by decide +kernel
  have hpad : isAscii '=' ∧ ¬isBlank '=' := by decide
  fun_induction encodeChars bs with
  | case1 => exact .nil
  | case2 a n =>
      have ha := a.toNat_lt
      exact .cons (hdigit _ (by omega)) (.cons (hdigit _ (by omega)) (.cons hpad (.cons hpad .nil)))
  | case3 a b n =>
      have ha := a.toNat_lt
      have hb := b.toNat_lt
      exact .cons (hdigit _ (by omega)) (.cons (hdigit _ (by omega))
        (.cons (hdigit _ (by omega)) (.cons hpad .nil)))
  | case4 a b c bs n ih =>
      have ha := a.toNat_lt
      have hb := b.toNat_lt
      have hc := c.toNat_lt
      exact .cons (hdigit _ (by omega)) (.cons (hdigit _ (by omega))
        (.cons (hdigit _ (by omega)) (.cons (hdigit _ (by omega)) ih)))

namespace Payjoin

open Chain

/-- What signing data is handed in as, in some format. -/
def BodyFormat.payload (p : Psbt) : BodyFormat → Payload
  | .base64Psbt => .psbt p
  | .hexPsbt => .psbt p
  | .rawTransaction => .transaction p.extract

/-- The bytes of signing data in some format. -/
def BodyFormat.body (p : Psbt) (format : BodyFormat) : Bytes := Utf8.encode (format.encode p)

def BodyFormat.request (p : Psbt) (params : Params) (format : BodyFormat) : Request :=
  ⟨format.payload p, format, params⟩

theorem BodyFormat.dense_encode (p : Psbt) (format : BodyFormat) :
    Dense (format.encode p).toList := by
  cases format with
  | base64Psbt => exact (String.toList_ofList ..).symm ▸ Base64.dense_encodeChars p.encode
  | hexPsbt => exact (String.toList_ofList ..).symm ▸ Hex.dense_encodeChars p.encode
  | rawTransaction =>
      exact (String.toList_ofList ..).symm ▸ Hex.dense_encodeChars p.extract.encode

theorem BodyFormat.length_body (p : Psbt) (format : BodyFormat) :
    (format.body p).length = (format.encode p).toList.length :=
  Utf8.length_encode (format.dense_encode p)

theorem BodyFormat.length_body_rawTransaction (p : Psbt) :
    (rawTransaction.body p).length = 2 * p.extract.encode.length := by
  rw [length_body, encode, Hex.encode, String.toList_ofList, Hex.length_encodeChars]

/-- Hexadecimal digits are not taken for signing data in the other writing. -/
theorem base64_of_hex (bs : Bytes) :
    (Base64.decodeChars? (Hex.encodeChars bs)).bind Psbt.ofBytes? = none := by
  refine Option.bind_eq_none_iff.mpr fun bs' hbs' => ?_
  exact Psbt.ofBytes?_eq_none_of_head? (Base64.head?_of_hex hbs')

/-- What is written in a format is decoded as what it was encoded from. -/
def BodyFormat.Restores (p : Psbt) : BodyFormat → Prop
  | .base64Psbt => Psbt.ofBytes? p.encode = some p
  | .hexPsbt => Psbt.ofBytes? p.encode = some p
  | .rawTransaction => readTransaction? p.extract.encode = some p.extract

/-- A transaction that is read has too few inputs to begin as signing data does. -/
theorem psbt_of_readTransaction? {tx tx' : Transaction}
    (h : readTransaction? tx.encode = some tx') : Psbt.ofBytes? tx.encode = none := by
  have hlength := (Option.ite_none_right_eq_some.mp h).1
  have hmax : maxTransactionLength < limit32 := by decide
  exact Transaction.psbt_ofBytes?_encode (Nat.lt_of_le_of_lt hlength hmax)

theorem BodyFormat.base64_encode (p : Psbt) {format : BodyFormat} (h : format ≠ .base64Psbt) :
    (Base64.decodeChars? (format.encode p).toList).bind Psbt.ofBytes? = none := by
  cases format with
  | base64Psbt => exact absurd rfl h
  | hexPsbt => exact (String.toList_ofList ..).symm ▸ base64_of_hex p.encode
  | rawTransaction => exact (String.toList_ofList ..).symm ▸ base64_of_hex p.extract.encode

theorem BodyFormat.Restores.parseBody? {p : Psbt} {format : BodyFormat} (h : format.Restores p) :
    parseBody? (format.encode p).toList = some (format.payload p, format) := by
  cases format with
  | base64Psbt =>
      have hread : (Base64.decodeChars? (Base64.encodeChars p.encode)).bind Psbt.ofBytes? =
          some p := by
        rw [Base64.decodeChars?_encodeChars, Option.bind_some]
        exact h
      rw [BodyFormat.encode, Psbt.render, Base64.encode, String.toList_ofList, Payjoin.parseBody?,
        hread]
      rfl
  | hexPsbt =>
      have hread : Psbt.ofBytes? p.encode = some p := h
      rw [Payjoin.parseBody?, base64_encode p (by decide), BodyFormat.encode, Hex.encode,
        String.toList_ofList, Hex.decodeChars?_encodeChars]
      simp only [Option.bind_eq_bind, Option.bind_some, hread]
      rfl
  | rawTransaction =>
      have hread : readTransaction? p.extract.encode = some p.extract := h
      rw [Payjoin.parseBody?, base64_encode p (by decide), BodyFormat.encode, Hex.encode,
        String.toList_ofList, Hex.decodeChars?_encodeChars]
      simp only [Option.bind_eq_bind, Option.bind_some, psbt_of_readTransaction? hread, hread]
      rfl

/-- A body is read as in the format that it was written in. No hexadecimal digits are taken for
signing data in the other writing before that, and no transaction for signing data. -/
theorem parseBody?_unambiguous (p : Psbt) (format : BodyFormat) (h : format.Restores p) :
    parseBody? (format.encode p).toList = some (format.payload p, format) ∧
      (format ≠ .base64Psbt →
        (Base64.decodeChars? (format.encode p).toList).bind Psbt.ofBytes? = none) ∧
      (format = .rawTransaction →
        (Hex.decodeChars? (format.encode p).toList).bind Psbt.ofBytes? = none) := by
  refine ⟨h.parseBody?, format.base64_encode p, ?_⟩
  rintro rfl
  rw [BodyFormat.encode, Hex.encode, String.toList_ofList, Hex.decodeChars?_encodeChars]
  exact psbt_of_readTransaction? h

namespace Bodies

/-- One coin is spent with a witness. -/
def signed : Psbt where
  tx := ⟨2, [⟨⟨List.replicate 32 7, 0⟩, [], 0xffffffff, []⟩], [⟨900, [0x51]⟩], 0⟩
  globals := []
  inputs := [⟨none, some ⟨1000, [0x51]⟩, none, none, some [[1]], []⟩]
  outputs := [[]]

theorem signed_unambiguous :
    BodyFormat.hexPsbt.Restores signed ∧ BodyFormat.rawTransaction.Restores signed ∧
      parseBody? (BodyFormat.base64Psbt.encode signed).toList =
        some (.psbt signed, .base64Psbt) ∧
      parseBody? (BodyFormat.hexPsbt.encode signed).toList = some (.psbt signed, .hexPsbt) ∧
      parseBody? (BodyFormat.rawTransaction.encode signed).toList =
        some (.transaction signed.extract, .rawTransaction) := by
  have hpsbt : Psbt.ofBytes? signed.encode = some signed := by decide +kernel
  have htx : readTransaction? signed.extract.encode = some signed.extract := by decide +kernel
  exact ⟨hpsbt, htx, (parseBody?_unambiguous signed .base64Psbt hpsbt).1,
    (parseBody?_unambiguous signed .hexPsbt hpsbt).1,
    (parseBody?_unambiguous signed .rawTransaction htx).1⟩

end Bodies

theorem BodyFormat.restores {p : Psbt} (hplain : p.Plain) (hfits : p.Fits) (format : BodyFormat)
    (hlength : (format.body p).length ≤ 2 * maxTransactionLength) : format.Restores p := by
  cases format with
  | base64Psbt => exact hfits.ofBytes?_encode hplain
  | hexPsbt => exact hfits.ofBytes?_encode hplain
  | rawTransaction =>
      rw [length_body_rawTransaction] at hlength
      refine (if_pos (by omega)).trans ?_
      exact hfits.extract.ofBytes?_encode hplain.extract_inputs_ne

/-- What a body is announced with: that it is a text, and how long it is. -/
structure Announces (headers : List (String × String)) (body : Bytes) : Prop where
  contentType : ∃ value, headers.lookup "Content-Type" = some value ∧
    value.startsWith "text/plain"
  contentLength : headers.lookup "Content-Length" = some (toString body.length)
  length : body.length < limit64

theorem Request.read_body {p : Psbt} (hplain : p.Plain) (hfits : p.Fits) (format : BodyFormat)
    {headers : List (String × String)} (h : Announces headers (format.body p)) (query : String) :
    read (format.body p) query headers =
      if maxLength < (format.body p).length then .error (.tooLarge (format.body p).length)
      else ((Params.ofPairs (Form.parse query)).mapError .params).map (format.request p ·) := by
  obtain ⟨value, hvalue, htext⟩ := h.contentType
  have hlength := readNat_toString h.length
  have htaken : (Decoder.take (format.body p).length).run (format.body p) =
      some (format.body p, []) := by
    have htake : (Decoder.take _).Restores (format.body p) _ := Decoder.restores_take rfl
    have hrun := htake []
    rwa [List.append_nil] at hrun
  have hdecoded : Utf8.decode (format.body p) = .ok (format.encode p).toList :=
    Utf8.decode_encode (format.dense_encode p)
  unfold read
  rw [hvalue, h.contentLength]
  simp only [htext, hlength, Bool.not_true, Bool.false_eq_true, if_false, mapError_ok_bind]
  split
  · rfl
  · rename_i hle
    have hparsed : parseBody? (trim (format.encode p).toList) =
        some (format.payload p, format) := by
      have hmax : maxLength ≤ 2 * maxTransactionLength := by decide
      rw [(format.dense_encode p).trim]
      exact (format.restores hplain hfits (by omega)).parseBody?
    simp only [htaken, hdecoded, mapError_ok_bind, hparsed]
    cases Params.ofPairs (Form.parse query) <;> rfl

end Payjoin

end Paydesk

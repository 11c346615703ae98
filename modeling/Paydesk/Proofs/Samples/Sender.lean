import Mathlib.Tactic.Ring
import Paydesk.Proofs.Payjoin.Completion
import Paydesk.Samples.Sender

/-!
The sample payments pass every check of a fallback, and the sample coins can be added to
them and signed. So whatever goes wrong with a sample goes wrong because of what was done
to it.
-/

namespace Paydesk

namespace Bytes

/-- Equal digits are a multiple of the number whose digits are all one. -/
theorem toNat_replicate (n : Nat) (b : UInt8) :
    255 * toNat (List.replicate n b) = (256 ^ n - 1) * b.toNat := by
  induction n with
  | zero => simp [toNat]
  | succ n ih =>
      have hpos : 1 ≤ 256 ^ n := Nat.pow_pos (by decide)
      have hlast : toNat (List.replicate (n + 1) b) =
          toNat (List.replicate n b) * 256 + b.toNat := by
        rw [List.replicate_succ', toNat, List.foldl_append]
        rfl
      have hpow : 256 ^ (n + 1) - 1 = (256 ^ n - 1) * 256 + 255 := by
        rw [Nat.pow_succ]
        omega
      rw [hlast, hpow, Nat.mul_add, ← Nat.mul_assoc, ih]
      ring

end Bytes

namespace Chain

theorem isPayToWitnessKeyHash_payToWitnessKeyHash (publicKey : Bytes) :
    Script.isPayToWitnessKeyHash (Script.payToWitnessKeyHash publicKey) = true := by
  have hlength := length_payToWitnessKeyHash publicKey
  have hhash := Hash.length_hash160 publicKey
  rw [Script.isPayToWitnessKeyHash, hlength, Script.payToWitnessKeyHash, Script.push,
    if_pos (by omega), hhash]
  rfl

end Chain

namespace Wallet

open Chain

theorem ScriptType.ofInput?_eq_segwit {input : TxIn} {known : PsbtInput} {output : TxOut}
    {publicKey : Bytes} (hknown : known.previousOutput? input.previous.vout = some output)
    (hscript : output.script = Script.payToWitnessKeyHash publicKey) :
    ofInput? input known = some .segwit := by
  have hpays := isPayToWitnessKeyHash_payToWitnessKeyHash publicKey
  rw [ofInput?, hknown, Option.bind_eq_bind, Option.bind_some, hscript, if_pos hpays]

end Wallet

namespace Samples

open Chain Keys Wallet Payjoin

/-- A key can be made of any byte but the first and the last one. -/
theorem key?_isSome_iff (seed : Nat) :
    (key? seed).isSome ↔ seed % 256 ≠ 0 ∧ seed % 256 ≠ 255 := by
  have hbytes := Bytes.toNat_replicate 32 (UInt8.ofNat seed)
  have hbyte : (UInt8.ofNat seed).toNat = seed % 256 := UInt8.toNat_ofNat'
  have horder : 254 * (256 ^ 32 - 1) < 255 * groupOrder := by decide
  have hlast : groupOrder < 256 ^ 32 - 1 := by decide
  rw [hbyte] at hbytes
  rw [key?, SecretKey.ofBytes?, if_pos List.length_replicate, SecretKey.ofNat?,
    Option.isSome_dite]
  omega

section Payment

variable {p : Payment} {psbt : Psbt} {key : SecretKey}

namespace Payment

/-- The output that the sender spends. -/
def spentBy (p : Payment) (key : SecretKey) : TxOut :=
  ⟨p.spentValue, Script.payToWitnessKeyHash key.publicKey⟩

/-- The payment as the sender's key signs it. -/
def signedBy (p : Payment) (key : SecretKey) : Psbt :=
  let change := p.change.toList.map fun value => (⟨value, (p.spentBy key).script⟩ : TxOut)
  let tx : Transaction :=
    ⟨2, [⟨p.outPoint, [], 0xfffffffd, []⟩], ⟨p.value, p.script⟩ :: change, 0⟩
  { Psbt.ofTransaction tx with
    inputs := [{ PsbtInput.empty with
      previousOutput := some (p.spentBy key)
      finalWitness := (signInput .segwit key .low tx 0 (p.spentBy key)).witness }] }

theorem psbt?_eq_some_iff : p.psbt? = some psbt ↔
    ∃ key, key? p.sender = some key ∧ p.spentValue < limit64 ∧ psbt = p.signedBy key := by
  unfold psbt? unsigned? spent? script?
  cases hkey : key? p.sender with
  | none => simp
  | some key =>
      by_cases hlarge : limit64 ≤ p.spentValue
      · simp [hlarge]
      · simp [hlarge, Nat.lt_of_not_le hlarge, signedBy, spentBy, eq_comm]

/-- Every sender with a key can pay what is in range. -/
theorem psbt?_isSome_iff : p.psbt?.isSome ↔
    (p.sender % 256 ≠ 0 ∧ p.sender % 256 ≠ 255) ∧ p.spentValue < limit64 := by
  rw [← key?_isSome_iff, Option.isSome_iff_exists, Option.isSome_iff_exists]
  constructor
  · rintro ⟨psbt, hpsbt⟩
    obtain ⟨key, hkey, hsmall, -⟩ := psbt?_eq_some_iff.mp hpsbt
    exact ⟨⟨key, hkey⟩, hsmall⟩
  · rintro ⟨⟨key, hkey⟩, hsmall⟩
    exact ⟨_, psbt?_eq_some_iff.mpr ⟨key, hkey, hsmall, rfl⟩⟩

theorem total_signedBy (p : Payment) (key : SecretKey) :
    total ((p.signedBy key).tx.outputs.map TxOut.value) + p.fee = p.spentValue := by
  unfold signedBy spentValue
  cases p.change <;> simp [Psbt.ofTransaction]

theorem previousOutputs?_signedBy (p : Payment) (key : SecretKey) :
    (p.signedBy key).previousOutputs? = some [p.spentBy key] := rfl

theorem fee?_signedBy (h : p.spentValue < limit64) : (p.signedBy key).fee? = some p.fee := by
  have htotal := total_signedBy p key
  have hvalue : total ([p.spentBy key].map TxOut.value) = p.spentValue := rfl
  rw [Psbt.fee?, previousOutputs?_signedBy, Option.bind_eq_bind, Option.bind_some, hvalue, if_pos (by omega)]
  congr 1
  omega

/-- All that can be wrong with a sample is that it is worth more than there is. -/
theorem admitted_signedBy :
    Fallback.Admitted (p.signedBy key) .segwit ↔ p.spentValue ≤ Amount.maxMoney := by
  have htotal := total_signedBy p key
  have hspent := previousOutputs?_signedBy p key
  have hvalue : total ([p.spentBy key].map TxOut.value) = p.spentValue := rfl
  constructor
  · intro h
    obtain ⟨spent, hspent', hle, -⟩ := h.money
    obtain rfl := Option.some.inj (hspent.symm.trans hspent')
    exact hvalue ▸ hle
  · intro hle
    exact
      { types := List.forall_mem_singleton.mpr (ScriptType.ofInput?_eq_segwit rfl rfl)
        inputs := List.cons_ne_nil _ _
        outputs := List.cons_ne_nil _ _
        inputCount := rfl
        outputCount := List.length_map _
        once := List.nodup_singleton _
        spends := List.forall_mem_singleton.mpr ⟨p.spentBy key, rfl, fun _ h => nomatch h⟩
        money := ⟨_, hspent, hvalue ▸ hle, by omega, by omega⟩
        anonymous := by
          simp [Psbt.hasKeyOrigins, signedBy, Psbt.ofTransaction, PsbtInput.empty, Table.keys]
        final := rfl }

end Payment

end Payment

section Coin

variable {index value : Nat} {type : ScriptType} {coin : Coin}

/-- A sample coin is one that the receiver can spend. -/
theorem coin?_eq_some (h : coin? index value type = some coin) : index < limit31 ∧
    coin.outPoint = ⟨Bytes.bigEndian 4 index ++ List.replicate 28 0xc0, index⟩ ∧
    coin.output.value = value ∧
    ∃ account, receiverKey? = some account ∧ Signing.Controls account type coin := by
  simp only [coin?, Option.bind_eq_bind] at h
  split at h
  · cases h
  · rename_i hsmall
    obtain ⟨account, haccount, h⟩ := Option.bind_eq_some_iff.mp h
    obtain ⟨key, hkey, h⟩ := Option.bind_eq_some_iff.mp h
    obtain rfl := Option.some.inj h
    exact ⟨Nat.lt_of_not_le hsmall, rfl, rfl, account, haccount, key, hkey, rfl⟩

theorem length_txid_of_coin? (h : coin? index value type = some coin) :
    coin.outPoint.txid.length = 32 := by
  obtain ⟨-, houtPoint, -⟩ := coin?_eq_some h
  rw [houtPoint, List.length_append, Bytes.length_bigEndian, List.length_replicate]

/-- No sample payment spends a sample coin. -/
theorem outPoint_ne_of_coin? (h : coin? index value type = some coin) (p : Payment) :
    coin.outPoint ≠ p.outPoint := by
  obtain ⟨-, houtPoint, -⟩ := coin?_eq_some h
  intro heq
  obtain ⟨htxid, hvout⟩ := OutPoint.mk.inj (houtPoint.symm.trans heq)
  have hmem : ∀ b ∈ Bytes.bigEndian 4 index ++ List.replicate 28 0xc0,
      b = UInt8.ofNat p.sender := fun b hb => List.eq_of_mem_replicate (htxid ▸ hb)
  have hindex : index = 0 := hvout
  subst hindex
  exact absurd ((hmem 0 (by decide)).trans (hmem 0xc0 (by decide)).symm) (by decide)

end Coin

section Results

variable {p : Payment} {psbt : Psbt} {index value : Nat} {type : ScriptType} {coin : Coin}

/-- A sample payment is a fallback unless it is worth more than there is. -/
theorem sample_is_checked (h : p.psbt? = some psbt) :
    psbt.fee? = some p.fee ∧
    psbt.tx.outPoints = [p.outPoint] ∧
    psbt.tx.outputs[0]? = some ⟨p.value, p.script⟩ ∧
    (Fallback.check psbt = .ok .segwit ↔ p.spentValue ≤ Amount.maxMoney) := by
  obtain ⟨key, -, hsmall, rfl⟩ := Payment.psbt?_eq_some_iff.mp h
  exact ⟨Payment.fee?_signedBy hsmall, rfl, rfl,
    Fallback.check_eq_ok_iff_admitted.trans Payment.admitted_signedBy⟩

/-- A sample coin can be added to a sample payment, and it is signed whatever outputs are
lowered for it. The proposal spends both, and weighs no more than it was reckoned with. -/
theorem sample_is_joined (hpsbt : p.psbt? = some psbt) (hmoney : p.spentValue ≤ Amount.maxMoney)
    (hcoin : coin? index value type = some coin) (hroom : p.value + value < limit64)
    (change : Option Script) (ws : Words) :
    ∃ d ws' account, Draft.contribute psbt 0 [coin] type change ws = .ok (d, ws') ∧
      d.psbt.tx.outPoints.Perm [p.outPoint, coin.outPoint] ∧
      d.psbt.tx.outPoints.Nodup ∧
      receiverKey? = some account ∧
      ∀ rate due params relayRate d' c,
        d.preserveFeeRate rate due params relayRate = .ok (d', c) → ∀ choice : NonceChoice,
          ∃ signed, Signing.sign d' account type choice = .ok signed ∧
            signed.psbt.tx = d'.psbt.tx ∧
            (signed.completed psbt.extract signed.proofs).weight ≤ d'.predictedWeight := by
  obtain ⟨-, houtPoints, hpaid, hcheck⟩ := sample_is_checked hpsbt
  replace hcheck := hcheck.mpr hmoney
  obtain ⟨-, -, hvalue, account, haccount, hcontrols⟩ := coin?_eq_some hcoin
  have hlength := Fallback.length_inputs_of_check hcheck
  have hextract : psbt.extract.outPoints = [p.outPoint] :=
    (outPoints_extract hlength).trans houtPoints
  have hfresh : coin.outPoint ≠ p.outPoint := outPoint_ne_of_coin? hcoin p
  have hadded : total ([coin].map (·.output.value)) = value := hvalue
  obtain ⟨d, ws', hd⟩ := Draft.exists_contribute hcheck hpaid (hadded.symm ▸ hroom)
  have hmerges := Draft.contribute_merges (by simpa [hextract] using hfresh) hd
  refine ⟨d, ws', account, hd, ?_, ?_, haccount, ?_⟩
  · simpa [hextract] using hmerges.inputs
  · refine hmerges.inputs.nodup_iff.mpr ?_
    simpa [hextract] using hfresh.symm
  · intro rate due params relayRate d' c hpreserve choice
    obtain ⟨i, -, hcontributed⟩ := Draft.contribute_hosts hlength hd
    have hcoins : ∀ pair ∈ d'.contributed, Signing.Controls account type pair.2 := by
      rw [(Draft.preserveFeeRate_eq_ok hpreserve).2.2, hcontributed, List.forall_mem_singleton]
      exact hcontrols
    obtain ⟨signed, hsign⟩ := (Signing.exists_sign_iff choice).mpr hcoins
    refine ⟨signed, hsign, (Signing.sign_eq_ok hsign).1, ?_⟩
    refine signed_weight_le hcheck ?_ ?_ hd hpreserve hsign
    · rw [houtPoints, List.forall_mem_singleton]
      exact List.length_replicate
    · rw [List.forall_mem_singleton]
      exact length_txid_of_coin? hcoin

end Results

end Samples

end Paydesk

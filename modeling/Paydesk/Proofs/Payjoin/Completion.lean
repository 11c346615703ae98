import Paydesk.Proofs.Keys.Signature
import Paydesk.Proofs.Payjoin.Admission
import Paydesk.Proofs.Payjoin.Identity

/-!
What a proposal weighs once everyone has signed it, against the weight that its fee was
found for.
-/

namespace Paydesk

namespace Hash

theorem length_hash160 (message : Bytes) : (hash160 message).length = 20 := by
  simp [hash160, ripemd160, Ripemd160.State.bytes, Chain.length_littleEndian]

end Hash

namespace Chain

theorem length_push {data : Bytes} (h : data.length < 0x4c) :
    (Script.push data).length = 1 + data.length := by
  rw [Script.push, if_pos h, List.length_cons, Nat.add_comm]

theorem length_payToWitnessKeyHash (publicKey : Bytes) :
    (Script.payToWitnessKeyHash publicKey).length = 22 := by
  have hhash := Hash.length_hash160 publicKey
  rw [Script.payToWitnessKeyHash, List.length_cons, length_push (by omega), hhash]

namespace TxIn

variable {original : Transaction} {i : TxIn}

theorem previous_completed (original : Transaction) (i : TxIn) :
    (i.completed original).previous = i.previous := by
  unfold completed
  split <;> rfl

end TxIn

end Chain

namespace Wallet

open Chain

/-- What proves the right to spend, of a signature and a key. -/
def ScriptType.proof (type : ScriptType) (signature publicKey : Bytes) : Proof :=
  match type with
  | .segwit => ⟨none, some [signature, publicKey]⟩
  | .segwitP2sh =>
      ⟨some (Script.push (Script.payToWitnessKeyHash publicKey)), some [signature, publicKey]⟩
  | .legacy => ⟨some (Script.push signature ++ Script.push publicKey), none⟩

/-- The signatures and keys that are put in are no longer than what is reckoned with. -/
theorem signInput_eq_proof (type : ScriptType) (key : Keys.SecretKey) (choice : NonceChoice)
    (tx : Transaction) (index : Nat) (output : TxOut) : ∃ signature publicKey : Bytes,
      signInput type key choice tx index output = type.proof signature publicKey ∧
        signature.length ≤ 72 ∧ publicKey.length = 33 := by
  have hsignature := length_signDigest_le key choice
  have hkey := key.length_publicKey
  cases type <;> exact ⟨_, _, rfl, hsignature _, hkey⟩

/-- An input with what proves the right to spend it. -/
def Proof.put (proof : Proof) (i : TxIn) : TxIn :=
  { i with signatureScript := proof.script.getD [], witness := proof.witness.getD [] }

/-- A signature of 72 bytes and a key of 33 are the worst case. -/
theorem Proof.data_put_le (type : ScriptType) {signature publicKey : Bytes}
    (hsignature : signature.length ≤ 72) (hkey : publicKey.length = 33) (i : TxIn) :
    ((type.proof signature publicKey).put i).data ≤ type.inputWeight := by
  have hwitness : List.Forall₂ (· ≤ ·) [signature.length, publicKey.length] [72, 33] :=
    .cons hsignature (.cons hkey.le .nil)
  have hredeem := length_payToWitnessKeyHash publicKey
  cases type with
  | segwit => exact InputWeight.ofLengths_le_ofLengths (Nat.le_refl 0) (.inr hwitness)
  | segwitP2sh =>
      refine InputWeight.ofLengths_le_ofLengths ?_ (.inr hwitness)
      rw [ScriptType.proof, Proof.put, Option.getD_some, length_push (by omega), hredeem]
  | legacy =>
      refine InputWeight.ofLengths_le_ofLengths ?_ (.inl rfl)
      rw [ScriptType.proof, Proof.put, Option.getD_some, List.length_append,
        length_push (by omega), length_push (by omega)]
      omega

/-- Nothing is put in, or a signature and a key that are not too long. -/
def Proof.Fits (type : ScriptType) (proof : Proof) : Prop :=
  proof = ⟨none, none⟩ ∨ ∃ signature publicKey : Bytes, proof = type.proof signature publicKey ∧
    signature.length ≤ 72 ∧ publicKey.length = 33

theorem Proof.Fits.data_put_le {type : ScriptType} {proof : Proof} (h : proof.Fits type)
    (i : TxIn) : (proof.put i).data ≤ type.inputWeight := by
  rcases h with rfl | ⟨signature, publicKey, rfl, hsignature, hkey⟩
  · cases type <;> exact InputWeight.ofLengths_le_ofLengths (Nat.zero_le _) (.inl rfl)
  · exact Proof.data_put_le type hsignature hkey i

end Wallet

namespace Payjoin

open Chain Wallet

/-- The weight of an input is told for what it carries in the end, and perhaps for more. -/
theorem data_extract_le (input : TxIn) (known : PsbtInput) (i : TxIn) :
    TxIn.data { i with
      signatureScript := known.finalScript.getD []
      witness := known.finalWitness.getD [] } ≤ Draft.finalWeight input known := by
  refine InputWeight.ofLengths_le_ofLengths ?_ ?_
  · cases known.finalScript with
    | none => exact Nat.zero_le _
    | some script => exact Nat.le_refl _
  · rcases known.finalWitness with _ | _ | ⟨item, items⟩
    · exact .inl rfl
    · exact .inl rfl
    · exact .inr (List.forall₂_refl _)

/-- What is known that proves the right to spend an input. -/
def proofOf (known : PsbtInput) : Proof := ⟨known.finalScript, known.finalWitness⟩

namespace Signing

variable {type : ScriptType} {choice : NonceChoice}

theorem proofOf_endorsed {known : PsbtInput} (hknown : (proofOf known).Fits type)
    (key : Keys.SecretKey) (tx : Transaction) (index : Nat) (output : TxOut) :
    (proofOf (endorsed known (signInput type key choice tx index output))).Fits type := by
  obtain ⟨signature, publicKey, hproof, hsignature, hkey⟩ :=
    signInput_eq_proof type key choice tx index output
  refine .inr ⟨signature, publicKey, ?_, hsignature, hkey⟩
  rw [hproof]
  -- A second signature of the same type takes the place of the first one.
  rcases hknown with hknown | ⟨signature', publicKey', hknown, -, -⟩
  · obtain ⟨hscript, hwitness⟩ := Proof.mk.inj hknown
    cases type <;> simp [proofOf, endorsed, ScriptType.proof, hscript, hwitness]
  · cases type <;> obtain ⟨hscript, hwitness⟩ := Proof.mk.inj hknown <;>
      simp [proofOf, endorsed, ScriptType.proof, hscript, hwitness]

/-- Nothing that is put in when a draft is signed is longer than what is reckoned with. -/
theorem sign_fits {d signed : Draft} {account : Keys.ExtendedKey}
    (hd : ∀ known ∈ d.psbt.inputs, (proofOf known).Fits type)
    (h : sign d account type choice = .ok signed) :
    ∀ known ∈ signed.psbt.inputs, (proofOf known).Fits type := by
  refine sign_induction (P := fun p => ∀ known ∈ p.inputs, (proofOf known).Fits type) ?_ hd h
  intro p p' index coin hp hsigned known hknown
  obtain ⟨key, rfl⟩ := signCoin_eq_modify hsigned
  obtain ⟨i, hi⟩ := List.getElem?_of_mem hknown
  rw [List.getElem?_modify] at hi
  obtain ⟨known', hknown', rfl⟩ := Option.map_eq_some_iff.mp hi
  have hfits := hp known' (List.mem_of_getElem? hknown')
  split
  · exact proofOf_endorsed hfits ..
  · exact hfits

end Signing

namespace Draft

/-- A draft as a transaction that everyone has signed: the receiver its own inputs, and the
sender those of the original, with the signatures that they have there. -/
def completed (d : Draft) (original : Transaction) (proof : Nat → Proof) : Transaction :=
  { d.psbt.tx with
    inputs := d.psbt.tx.inputs.mapIdx fun i input =>
      if i ∈ d.contributed.map Prod.fst then (proof i).put input else input.completed original }

/-- The inputs that a draft is made of. -/
structure MadeOf (d : Draft) (parts : List DraftInput) : Prop where
  inputs : d.psbt.tx.inputs = parts.map (·.input.bare)
  weights : d.inputWeights = parts.map DraftInput.weight
  contributed : d.contributed =
    (parts.mapIdx fun i part => part.coin.map fun coin => (i, coin)).filterMap id

variable {d d' : Draft} {parts : List DraftInput} {fallback : Psbt} {coins : List Coin}
  {type : ScriptType}

theorem contribute_madeOf {payment : Nat} {change : Option Script} {ws ws' : Words}
    (h : contribute fallback payment coins type change ws = .ok (d, ws')) :
    ∃ sequence parts, d.MadeOf parts ∧ parts.Perm (gathered fallback coins type sequence) := by
  obtain ⟨fee, sequence, paid, -, -, -, -, hd⟩ := contribute_eq_ok h
  obtain rfl : d = _ := congrArg Prod.fst hd
  exact ⟨sequence, _, ⟨rfl, rfl, rfl⟩, Words.shuffle_perm ..⟩

theorem MadeOf.preserveFeeRate {rate relayRate : Nat} {due : Int} {params : Params}
    {c : FeeContribution} (hd : d.MadeOf parts)
    (h : d.preserveFeeRate rate due params relayRate = .ok (d', c)) : d'.MadeOf parts := by
  obtain ⟨rfl, -⟩ := Prod.mk.inj (eq_lowered_of_ok h)
  exact ⟨hd.inputs, hd.weights, hd.contributed⟩

theorem MadeOf.sign {signed : Draft} {account : Keys.ExtendedKey} {choice : NonceChoice}
    (hd : d.MadeOf parts) (h : Signing.sign d account type choice = .ok signed) :
    signed.MadeOf parts := by
  have htx := (Signing.sign_eq_ok h).1
  obtain ⟨psbt, -, rfl⟩ := Signing.sign_eq_foldlM h
  exact ⟨htx ▸ hd.inputs, hd.weights, hd.contributed⟩

/-- Nothing is put in yet when a draft is made, and lowering outputs puts nothing in. -/
theorem proofOf_priced {payment rate relayRate : Nat} {due : Int} {params : Params}
    {change : Option Script} {ws ws' : Words} {c : FeeContribution}
    (h : contribute fallback payment coins type change ws = .ok (d, ws'))
    (hpreserve : d.preserveFeeRate rate due params relayRate = .ok (d', c)) :
    ∀ known ∈ d'.psbt.inputs, proofOf known = ⟨none, none⟩ := by
  obtain ⟨rfl, -⟩ := Prod.mk.inj (eq_lowered_of_ok hpreserve)
  obtain ⟨fee, sequence, paid, -, -, -, -, hd⟩ := contribute_eq_ok h
  obtain rfl : d = _ := congrArg Prod.fst hd
  intro known hknown
  obtain ⟨i, -, rfl⟩ := List.mem_map.mp hknown
  rfl

/-- What a draft has for the input at an index. -/
def proofs (d : Draft) (i : Nat) : Proof := (d.psbt.inputs[i]?).elim ⟨none, none⟩ proofOf

theorem proofs_fits (h : ∀ known ∈ d.psbt.inputs, (proofOf known).Fits type) (i : Nat) :
    (d.proofs i).Fits type := by
  unfold proofs
  cases hknown : d.psbt.inputs[i]? with
  | none => exact .inl rfl
  | some known => exact h known (List.mem_of_getElem? hknown)

theorem MadeOf.mem_contributed_iff (hd : d.MadeOf parts) {i : Nat} (hi : i < parts.length) :
    i ∈ d.contributed.map Prod.fst ↔ parts[i].coin.isSome := by
  rw [hd.contributed, Option.isSome_iff_exists]
  simp only [List.mem_map, List.mem_filterMap, List.mem_mapIdx, id]
  constructor
  · rintro ⟨_, ⟨_, ⟨j, hj, rfl⟩, hsome⟩, rfl⟩
    obtain ⟨coin, hcoin, rfl⟩ := Option.map_eq_some_iff.mp hsome
    exact ⟨coin, hcoin⟩
  · rintro ⟨coin, hcoin⟩
    exact ⟨(i, coin), ⟨_, ⟨i, hi, rfl⟩, by rw [hcoin, Option.map_some]⟩, rfl⟩

/-- What becomes of a part of a draft: whose input it is decides who signs it. -/
def signedPart (original : Transaction) (proof : Proof) (part : DraftInput) : TxIn :=
  if part.coin.isSome then proof.put part.input.bare else part.input.bare.completed original

section Completed

variable {sequence : Nat} {part : DraftInput} {proof : Nat → Proof}

theorem previous_signedPart (original : Transaction) (proof : Proof) (part : DraftInput) :
    (signedPart original proof part).previous = part.input.previous := by
  unfold signedPart
  split
  · rfl
  · exact TxIn.previous_completed original _

theorem MadeOf.inputs_completed (hd : d.MadeOf parts) (original : Transaction)
    (proof : Nat → Proof) : (d.completed original proof).inputs =
      parts.mapIdx fun i part => signedPart original (proof i) part := by
  apply List.ext_getElem
  · simp [completed, hd.inputs]
  · intro i hi hlt
    have hi : i < parts.length := by simpa using hlt
    simp only [completed, List.getElem_mapIdx, hd.mem_contributed_iff hi]
    simp only [hd.inputs, List.getElem_map, signedPart]

/-- What a part carries when signed is no more than it was reckoned with. -/
theorem data_signedPart_le (hnodup : fallback.extract.outPoints.Nodup) {proof : Proof}
    (hproof : ∀ i, (proof.put i).data ≤ type.inputWeight)
    (hpart : part ∈ gathered fallback coins type sequence) :
    (signedPart fallback.extract proof part).data ≤ part.weight := by
  rcases List.mem_append.mp hpart with hsender | hcoin
  · obtain ⟨⟨input, known⟩, hpair, rfl⟩ := List.mem_map.mp hsender
    have hsigned : { input with
        signatureScript := known.finalScript.getD []
        witness := known.finalWitness.getD [] } ∈ fallback.extract.inputs :=
      List.mem_map.mpr ⟨_, hpair, rfl⟩
    have hcompleted := TxIn.completed_of_mem (i := input.bare) hnodup hsigned rfl
    change (input.bare.completed fallback.extract).data ≤ finalWeight input known
    rw [hcompleted]
    exact data_extract_le input known input.bare
  · obtain ⟨coin, -, rfl⟩ := List.mem_map.mp hcoin
    exact hproof _

theorem forall₂_mapIdx {α β γ : Type} {R : β → γ → Prop} {f : Nat → α → β} {g : α → γ}
    {as : List α} (h : ∀ i, ∀ a ∈ as, R (f i a) (g a)) :
    List.Forall₂ R (as.mapIdx f) (as.map g) := by
  refine List.forall₂_iff_get.mpr ⟨by simp, fun i hi _ => ?_⟩
  have hi : i < as.length := by simpa using hi
  simpa using h i _ (List.getElem_mem hi)

/-- The weight that a draft is reckoned with is enough for everyone's signatures. -/
theorem MadeOf.weight_completed_le (hd : d.MadeOf parts)
    (hparts : parts.Perm (gathered fallback coins type sequence)) (hnonempty : parts ≠ [])
    (hids : ∀ part ∈ parts, part.input.previous.txid.length = 32)
    (hnodup : fallback.extract.outPoints.Nodup)
    (hproof : ∀ i input, ((proof i).put input).data ≤ type.inputWeight) :
    (d.completed fallback.extract proof).weight ≤ d.predictedWeight := by
  have hinputs := hd.inputs_completed fallback.extract proof
  rw [Transaction.weight_eq_predictWeight, predictedWeight, hd.weights, hinputs]
  · refine predictWeight_mono ?_ _
    rw [List.forall₂_map_left_iff]
    exact forall₂_mapIdx fun i part hpart =>
      data_signedPart_le hnodup (hproof i) (hparts.subset hpart)
  · intro input hinput
    rw [hinputs] at hinput
    obtain ⟨i, hi, rfl⟩ := List.mem_mapIdx.mp hinput
    rw [previous_signedPart]
    exact hids _ (List.getElem_mem hi)
  · rw [hinputs]
    simpa using hnonempty

end Completed

end Draft

section Results

open Draft

variable {fallback : Psbt} {payment : Nat} {coins : List Coin} {kind type : ScriptType}
  {change : Option Script} {ws ws' : Words} {d : Draft}

theorem Draft.ids_of_mem_gathered {sequence : Nat} {part : DraftInput}
    (hids : ∀ o ∈ fallback.tx.outPoints, o.txid.length = 32)
    (hcoins : ∀ coin ∈ coins, coin.outPoint.txid.length = 32)
    (hpart : part ∈ gathered fallback coins type sequence) :
    part.input.previous.txid.length = 32 := by
  rcases List.mem_append.mp hpart with hsender | hcoin
  · obtain ⟨pair, hpair, rfl⟩ := List.mem_map.mp hsender
    exact hids _ (List.mem_map_of_mem (List.of_mem_zip hpair).1)
  · obtain ⟨coin, hmem, rfl⟩ := List.mem_map.mp hcoin
    exact hcoins coin hmem

/-- Whatever a draft becomes, its inputs stay those that it was reckoned with. -/
theorem Draft.contribute_weighs (hcheck : Fallback.check fallback = .ok kind)
    (hids : ∀ o ∈ fallback.tx.outPoints, o.txid.length = 32)
    (hcoins : ∀ coin ∈ coins, coin.outPoint.txid.length = 32)
    (h : contribute fallback payment coins type change ws = .ok (d, ws')) :
    ∃ parts, d.MadeOf parts ∧ ∀ (d' : Draft) (proof : Nat → Proof), d'.MadeOf parts →
      (∀ i input, ((proof i).put input).data ≤ type.inputWeight) →
        (d'.completed fallback.extract proof).weight ≤ d'.predictedWeight := by
  have hadmitted := Fallback.check_eq_ok_iff_admitted.mp hcheck
  have hnodup := outPoints_extract hadmitted.inputCount ▸ hadmitted.once
  obtain ⟨sequence, parts, hd, hperm⟩ := contribute_madeOf h
  have hparts : parts ≠ [] := by
    intro hnil
    have hnone : gathered fallback coins type sequence = [] := List.nil_perm.mp (hnil ▸ hperm)
    exact Fallback.inputPairs_ne_nil hcheck (List.map_eq_nil_iff.mp
      (List.append_eq_nil_iff.mp hnone).1)
  refine ⟨parts, hd, fun d' proof hd' hproof => ?_⟩
  refine hd'.weight_completed_le hperm hparts ?_ hnodup hproof
  exact fun part hpart => ids_of_mem_gathered hids hcoins (hperm.subset hpart)

/-- What the receiver signs with is reckoned with: once the sender's signatures are back in
place, too, nothing weighs more than the weight that outputs were lowered for. -/
theorem signed_weight_le (hcheck : Fallback.check fallback = .ok kind)
    (hids : ∀ o ∈ fallback.tx.outPoints, o.txid.length = 32)
    (hcoins : ∀ coin ∈ coins, coin.outPoint.txid.length = 32)
    (h : contribute fallback payment coins type change ws = .ok (d, ws')) {rate relayRate : Nat}
    {due : Int} {params : Params} {d' signed : Draft} {c : FeeContribution}
    (hpreserve : d.preserveFeeRate rate due params relayRate = .ok (d', c))
    {account : Keys.ExtendedKey} {choice : NonceChoice}
    (hsign : Signing.sign d' account type choice = .ok signed) :
    (signed.completed fallback.extract signed.proofs).weight ≤ d'.predictedWeight := by
  obtain ⟨parts, hd, hweighs⟩ := contribute_weighs hcheck hids hcoins h
  have hfits := Signing.sign_fits
    (fun known hknown => .inl (proofOf_priced h hpreserve known hknown)) hsign
  have hle := hweighs signed signed.proofs ((hd.preserveFeeRate hpreserve).sign hsign)
    fun i input => (proofs_fits hfits i).data_put_le input
  have hpredicted : signed.predictedWeight = d'.predictedWeight := by
    have htx := (Signing.sign_eq_ok hsign).1
    obtain ⟨psbt, -, rfl⟩ := Signing.sign_eq_foldlM hsign
    rw [predictedWeight, htx, predictedWeight]
  exact hpredicted ▸ hle

/-- A draft is reckoned with no less than what it weighs in the end, once the sender's
signatures are back in place and the receiver signed with at most 72 bytes for each input.
So what is paid in the end is never below the rate that outputs were lowered for. -/
theorem completed_weight_le_predictedWeight (hcheck : Fallback.check fallback = .ok kind)
    (hids : ∀ o ∈ fallback.tx.outPoints, o.txid.length = 32)
    (hcoins : ∀ coin ∈ coins, coin.outPoint.txid.length = 32)
    (h : contribute fallback payment coins type change ws = .ok (d, ws')) (proof : Nat → Proof)
    (hproof : ∀ i, ∃ signature publicKey : Bytes, proof i = type.proof signature publicKey ∧
      signature.length ≤ 72 ∧ publicKey.length = 33) :
    (d.completed fallback.extract proof).weight ≤ d.predictedWeight ∧
    ∀ rate due params relayRate d' c, d.preserveFeeRate rate due params relayRate = .ok (d', c) →
      (d'.completed fallback.extract proof).weight ≤ d'.predictedWeight ∧
      ∃ spent fee, fallback.previousOutputs? = some spent ∧
        total (spent.map TxOut.value) + total (coins.map (·.output.value)) =
          total ((d'.completed fallback.extract proof).outputs.map TxOut.value) + fee ∧
        c.feeRate * (d'.completed fallback.extract proof).weight ≤ 1000 * fee := by
  obtain ⟨parts, hd, hweighs⟩ := contribute_weighs hcheck hids hcoins h
  have hdata : ∀ i input, ((proof i).put input).data ≤ type.inputWeight := by
    intro i input
    obtain ⟨signature, publicKey, hproof, hsignature, hkey⟩ := hproof i
    rw [hproof]
    exact Proof.data_put_le type hsignature hkey input
  refine ⟨hweighs d proof hd hdata, ?_⟩
  intro rate due params relayRate d' c hpreserve
  have hle := hweighs d' proof (hd.preserveFeeRate hpreserve) hdata
  obtain ⟨hlabelled, spent, hspent, hspending⟩ := contribute_spending h
  have hadjusted := (Adjusts.spending_eq hlabelled ⟨_, _, _, _, _, hpreserve⟩).2
  have hrate : c.feeRate = feeRateOf d'.fee d'.predictedWeight := by
    have hlowered := eq_lowered_of_ok hpreserve
    have hfeeRate := d.lowered_feeRate rate due params
    rwa [← lowered_predictedWeight hlabelled.length rate due params, hlowered] at hfeeRate
  refine ⟨hle, spent, d'.fee, hspent, ?_, ?_⟩
  · rw [← hspending, ← hadjusted]
    rfl
  · calc
      c.feeRate * (d'.completed fallback.extract proof).weight ≤
          c.feeRate * d'.predictedWeight := Nat.mul_le_mul_left _ hle
      _ ≤ 1000 * d'.fee := hrate ▸ feeRateOf_mul_le _ _

/-- The worst case of a proof for a coin of the sample. -/
def Draft.Sample.longest : Proof := ScriptType.segwit.proof (.replicate 72 0x30) (.replicate 33 2)

theorem Draft.Sample.settled_completed_weight :
    Fallback.check accepted.psbt = .ok .segwit ∧
    Draft.contribute accepted.psbt target.index [Draft.Sample.coin] .segwit none [] =
      .ok (drafted, []) ∧
    drafted.preserveFeeRate accepted.rate (-100) Sample.params 250 =
      .ok (settled, ⟨100, 200, 1778⟩) ∧
    (settled.completed accepted.psbt.extract fun _ => longest).weight ≤
      settled.predictedWeight ∧
    ∃ fee, total ([spent].map TxOut.value) + total ([Draft.Sample.coin].map (·.output.value)) =
        total ((settled.completed accepted.psbt.extract fun _ => longest).outputs.map
          TxOut.value) + fee ∧
      1778 * (settled.completed accepted.psbt.extract fun _ => longest).weight ≤ 1000 * fee := by
  obtain ⟨-, hsettled⟩ := completed_weight_le_predictedWeight accepted_sound.check (by decide)
    (by decide) contribute_eq_drafted (fun _ => longest)
    fun _ => ⟨_, _, rfl, by decide, by decide⟩
  obtain ⟨hweight, known, fee, hknown, hpays, hrate⟩ :=
    hsettled _ _ _ _ _ _ preserveFeeRate_eq_settled
  obtain rfl : known = [spent] := Option.some.inj (hknown.symm.trans rfl)
  dsimp only at hrate
  exact ⟨accepted_sound.check, contribute_eq_drafted, preserveFeeRate_eq_settled, hweight, fee,
    hpays, hrate⟩

end Results

end Payjoin

end Paydesk

import Mathlib.Data.List.Perm.Basic
import Paydesk.Payjoin.Signing
import Paydesk.Proofs.Order.Shuffle

/-!
Which inputs a draft has, and that neither fees nor signatures change them.
-/

namespace Paydesk

namespace Payjoin

open Chain Wallet

namespace Draft

/-- The inputs of a draft are those of an original and some coins, and the coins
are what it lists as contributed. -/
structure Merges (d : Draft) (original coins : List OutPoint) : Prop where
  inputs : d.psbt.tx.outPoints.Perm (original ++ coins)
  coins : (d.contributed.map (·.2.outPoint)).Perm coins
  contributed : d.contributed.map (·.2.outPoint) =
    d.psbt.tx.outPoints.filter (!original.contains ·)
  complete : d.psbt.inputs.length = d.psbt.tx.inputs.length

theorem contributed_ofInputs (fallback : Psbt) (fee : Nat) (inputs : List DraftInput)
    (outputs : List (OutputRole × TxOut)) :
    (ofInputs fallback fee inputs outputs).contributed.map (·.2) =
      inputs.filterMap DraftInput.coin := by
  have hcoins : (inputs.mapIdx fun i input => input.coin.map fun coin => (i, coin)).map
      (Option.map Prod.snd) = inputs.map DraftInput.coin := by
    apply List.ext_getElem?
    intro i
    cases hi : inputs[i]? with
    | none => simp [hi]
    | some input => cases hc : input.coin <;> simp [hi, hc]
  calc
    (ofInputs fallback fee inputs outputs).contributed.map (·.2) =
        ((inputs.mapIdx fun i input => input.coin.map fun coin => (i, coin)).map
          (Option.map Prod.snd)).filterMap id := by
      simp only [ofInputs, List.map_filterMap, List.filterMap_map]
      rfl
    _ = inputs.filterMap DraftInput.coin := by
      rw [hcoins, List.filterMap_map]
      rfl

theorem outPoints_ofInputs (fallback : Psbt) (fee : Nat) (inputs : List DraftInput)
    (outputs : List (OutputRole × TxOut)) :
    (ofInputs fallback fee inputs outputs).psbt.tx.outPoints =
      inputs.map (·.input.previous) := by
  simp [ofInputs, Psbt.ofTransaction, Transaction.outPoints, Function.comp_def, TxIn.bare]

/-- An input is one of the original's, or it spends the coin that comes with it. -/
def Placed (original : List OutPoint) (i : DraftInput) : Prop :=
  match i.coin with
  | none => i.input.previous ∈ original
  | some coin => i.input.previous = coin.outPoint ∧ coin.outPoint ∉ original

theorem filterMap_coin_of_placed {original : List OutPoint} {inputs : List DraftInput}
    (h : ∀ i ∈ inputs, Placed original i) :
    (inputs.filterMap DraftInput.coin).map Coin.outPoint =
      (inputs.map (·.input.previous)).filter (!original.contains ·) := by
  induction inputs with
  | nil => rfl
  | cons i inputs ih =>
      have htail := ih fun j hj => h j (List.mem_cons_of_mem _ hj)
      have hhead := h i List.mem_cons_self
      unfold Placed at hhead
      cases hc : i.coin with
      | none =>
          rw [hc] at hhead
          simpa [List.filterMap_cons, hc, hhead] using htail
      | some coin =>
          rw [hc] at hhead
          simpa [List.filterMap_cons, hc, hhead.1, hhead.2] using htail

/-- The inputs of the sender and the coins, before they are shuffled. -/
def gathered (fallback : Psbt) (coins : List Coin) (type : ScriptType) (sequence : Nat) :
    List DraftInput :=
  fallback.inputPairs.map (fun (input, known) => ⟨input, finalWeight input known, none⟩) ++
    coins.map (coinInput type sequence)

/-- What a contribution comes to if nothing is missing and the payment does not
grow too large. -/
def assemble (fallback : Psbt) (fee payment : Nat) (coins : List Coin) (type : ScriptType)
    (sequence : Nat) (script : Option Script) (ws : Words) : Draft × Words :=
  let contributed := total (coins.map (·.output.value))
  let (outputs, ws) := addDecoy contributed script
    (growPayment fallback.tx.outputs payment contributed) ws
  let (inputs, ws) := ws.shuffle (gathered fallback coins type sequence)
  let (outputs, ws) := ws.shuffle outputs
  (ofInputs fallback fee inputs outputs, ws)

section Contribute

variable {fallback : Psbt} {fee payment : Nat} {coins : List Coin} {type : ScriptType}
  {sequence : Nat} {script : Option Script} {ws ws' : Words} {d : Draft}

theorem contribute_eq_ite {paid : TxOut} (hfee : fallback.fee? = some fee)
    (hsequence : (ws.choose? (fallback.tx.inputs.map TxIn.sequence)).1 = some sequence)
    (hpaid : fallback.tx.outputs[payment]? = some paid) :
    contribute fallback payment coins type script ws =
      if limit64 ≤ paid.value + total (coins.map (·.output.value)) then .error .overflow
      else .ok (assemble fallback fee payment coins type sequence script
        (ws.choose? (fallback.tx.inputs.map TxIn.sequence)).2) := by
  simp only [contribute, hfee, hsequence, hpaid]
  split <;> rfl

theorem contribute_eq_ok (h : contribute fallback payment coins type script ws = .ok (d, ws')) :
    ∃ fee sequence paid, fallback.fee? = some fee ∧
      fallback.tx.outputs[payment]? = some paid ∧
      paid.value + total (coins.map (·.output.value)) < limit64 ∧
      (ws.choose? (fallback.tx.inputs.map TxIn.sequence)).1 = some sequence ∧
      (d, ws') = assemble fallback fee payment coins type sequence script
        (ws.choose? (fallback.tx.inputs.map TxIn.sequence)).2 := by
  cases hfee : fallback.fee? with
  | none => simp [contribute, hfee] at h
  | some fee =>
      cases hseq : (ws.choose? (fallback.tx.inputs.map TxIn.sequence)).1 with
      | none => simp [contribute, hfee, hseq] at h
      | some sequence =>
          cases hpaid : fallback.tx.outputs[payment]? with
          | none => simp [contribute, hfee, hseq, hpaid] at h
          | some paid =>
              rw [contribute_eq_ite hfee hseq hpaid] at h
              split at h
              · cases h
              · rename_i hroom
                exact ⟨fee, sequence, paid, rfl, rfl, Nat.lt_of_not_le hroom, rfl,
                  (Except.ok.inj h).symm⟩

end Contribute

theorem placed_of_mem_gathered {fallback : Psbt} {coins : List Coin} {type : ScriptType}
    {sequence : Nat} (hcoins : ∀ c ∈ coins, c.outPoint ∉ fallback.extract.outPoints)
    {i : DraftInput} (hi : i ∈ gathered fallback coins type sequence) :
    Placed fallback.extract.outPoints i := by
  rcases List.mem_append.mp hi with hsender | hcoin
  · obtain ⟨pair, hpair, rfl⟩ := List.mem_map.mp hsender
    simp only [Placed, Psbt.extract, Transaction.outPoints, List.map_map, List.mem_map]
    exact ⟨pair, hpair, rfl⟩
  · obtain ⟨coin, hmem, rfl⟩ := List.mem_map.mp hcoin
    exact ⟨rfl, hcoins coin hmem⟩

theorem ofInputs_merges {fallback : Psbt} {fee : Nat} {coins : List Coin} {type : ScriptType}
    {sequence : Nat} {inputs : List DraftInput} (outputs : List (OutputRole × TxOut))
    (hcoins : ∀ c ∈ coins, c.outPoint ∉ fallback.extract.outPoints)
    (hperm : inputs.Perm (gathered fallback coins type sequence)) :
    (ofInputs fallback fee inputs outputs).Merges fallback.extract.outPoints
      (coins.map Coin.outPoint) := by
  have hplaced : ∀ i ∈ inputs, Placed fallback.extract.outPoints i :=
    fun i hi => placed_of_mem_gathered hcoins (hperm.subset hi)
  have hcontributed :
      (ofInputs fallback fee inputs outputs).contributed.map (·.2.outPoint) =
        (inputs.filterMap DraftInput.coin).map Coin.outPoint := by
    rw [← contributed_ofInputs fallback fee inputs outputs, List.map_map]
    rfl
  refine ⟨?_, ?_, ?_, ?_⟩
  · rw [outPoints_ofInputs]
    refine (hperm.map _).trans ?_
    simp only [gathered, List.map_append, List.map_map, Psbt.extract, Transaction.outPoints]
    exact .refl _
  · rw [hcontributed]
    refine ((hperm.filterMap _).map _).trans ?_
    simp [gathered, List.filterMap_append, List.filterMap_map, Function.comp_def, coinInput]
  · rw [hcontributed, outPoints_ofInputs]
    exact filterMap_coin_of_placed hplaced
  · simp [ofInputs, Psbt.ofTransaction]

theorem contribute_merges {fallback : Psbt} {payment : Nat} {coins : List Coin}
    {type : ScriptType} {script : Option Script} {ws ws' : Words} {d : Draft}
    (hcoins : ∀ c ∈ coins, c.outPoint ∉ fallback.extract.outPoints)
    (h : contribute fallback payment coins type script ws = .ok (d, ws')) :
    d.Merges fallback.extract.outPoints (coins.map Coin.outPoint) := by
  obtain ⟨fee, sequence, paid, -, -, -, -, hd⟩ := contribute_eq_ok h
  rw [(Prod.mk.inj hd).1]
  exact ofInputs_merges _ hcoins (Words.shuffle_perm ..)

/-- What the fee still lacks at a rate. -/
def lacking (d : Draft) (rate : Nat) : Nat := feeFor rate d.predictedWeight - d.fee

/-- A draft with its outputs lowered, whether that is enough or not. -/
def lowered (d : Draft) (rate : Nat) (due : Int) (params : Params) : Draft × FeeContribution :=
  let (between, receiver) := drain OutputRole.isReceiver
    (min (d.lacking rate) (receiverBudget due params)) (d.roles.zip d.psbt.tx.outputs)
  let (outputs, sender) := drain (senderEligible params)
    (senderBudget params (d.lacking rate - receiver)) (d.roles.zip between)
  let fee := d.fee + receiver + sender
  let psbt := { d.psbt with tx := { d.psbt.tx with outputs } }
  ({ d with psbt, fee }, ⟨receiver, sender, feeRateOf fee d.predictedWeight⟩)

section Preserve

variable {d d' : Draft} {rate relayRate : Nat} {due : Int} {params : Params} {c : FeeContribution}

theorem preserveFeeRate_eq_ite (d : Draft) (rate : Nat) (due : Int) (params : Params)
    (relayRate : Nat) :
    d.preserveFeeRate rate due params relayRate =
      if limit64 ≤ rate * d.predictedWeight then .error .overflow
      else if (d.lowered rate due params).2.receiver + (d.lowered rate due params).2.sender <
            d.lacking rate ∧
          (d.lowered rate due params).2.feeRate < params.minFeeRate.getD relayRate then
        .error (.notEnoughMoney (d.lowered rate due params).2.feeRate
          (params.minFeeRate.getD relayRate))
      else .ok (d.lowered rate due params) := rfl

theorem eq_lowered_of_ok (h : d.preserveFeeRate rate due params relayRate = .ok (d', c)) :
    d.lowered rate due params = (d', c) := by
  rw [preserveFeeRate_eq_ite] at h
  split at h
  · cases h
  · split at h
    · cases h
    · exact Except.ok.inj h

/-- Outputs are lowered and nothing else changes. -/
theorem preserveFeeRate_eq_ok (h : d.preserveFeeRate rate due params relayRate = .ok (d', c)) :
    d'.psbt.tx.inputs = d.psbt.tx.inputs ∧ d'.psbt.inputs = d.psbt.inputs ∧
      d'.contributed = d.contributed := by
  obtain rfl : _ = d' := congrArg Prod.fst (eq_lowered_of_ok h)
  exact ⟨rfl, rfl, rfl⟩

theorem preserveFeeRate_eq_overflow (d : Draft) (rate relayRate : Nat) (due : Int)
    (params : Params) :
    d.preserveFeeRate rate due params relayRate = .error .overflow ↔
      limit64 ≤ rate * d.predictedWeight := by
  rw [preserveFeeRate_eq_ite]
  split
  · rename_i hlarge
    exact ⟨fun _ => hlarge, fun _ => rfl⟩
  · rename_i hsmall
    refine ⟨fun h => ?_, fun h => absurd h hsmall⟩
    split at h <;> cases h

end Preserve

theorem Merges.preserveFeeRate {d d' : Draft} {rate relayRate : Nat} {due : Int}
    {params : Params} {c : FeeContribution} {original coins : List OutPoint}
    (hd : d.Merges original coins)
    (h : d.preserveFeeRate rate due params relayRate = .ok (d', c)) :
    d'.Merges original coins := by
  obtain ⟨hinputs, hknown, hcontributed⟩ := preserveFeeRate_eq_ok h
  have houtPoints : d'.psbt.tx.outPoints = d.psbt.tx.outPoints := by
    rw [Transaction.outPoints, hinputs, Transaction.outPoints]
  refine ⟨houtPoints ▸ hd.inputs, hcontributed ▸ hd.coins, ?_, ?_⟩
  · rw [hcontributed, houtPoints]
    exact hd.contributed
  · rw [hknown, hinputs]
    exact hd.complete

end Draft

namespace Signing

/-- What is known of an input once it is signed. -/
def endorsed (known : PsbtInput) (proof : Proof) : PsbtInput :=
  { known with
    finalScript := proof.script <|> known.finalScript
    finalWitness := proof.witness <|> known.finalWitness }

theorem signCoin_eq_modify {account : Keys.ExtendedKey} {type : ScriptType} {choice : NonceChoice}
    {p p' : Psbt} {index : Nat} {coin : Coin}
    (h : signCoin account type choice p index coin = .ok p') :
    ∃ key : Keys.SecretKey, p' = { p with
      inputs := p.inputs.modify index fun known =>
        endorsed known (signInput type key choice p.tx index coin.output) } := by
  simp only [signCoin] at h
  split at h
  · rename_i key hkey
    split at h
    · cases h
    · exact ⟨key.secret, (Except.ok.inj h).symm⟩
  · cases h

theorem signCoin_eq_ok {account : Keys.ExtendedKey} {type : ScriptType} {choice : NonceChoice}
    {p p' : Psbt} {index : Nat} {coin : Coin}
    (h : signCoin account type choice p index coin = .ok p') :
    p'.tx = p.tx ∧ p'.inputs.length = p.inputs.length := by
  obtain ⟨key, rfl⟩ := signCoin_eq_modify h
  exact ⟨rfl, List.length_modify ..⟩

/-- The path of a coin leads from the account to the key that its script asks for. -/
def Controls (account : Keys.ExtendedKey) (type : ScriptType) (coin : Coin) : Prop :=
  ∃ key, account.derive? coin.path = some key ∧
    type.script key.secret.publicKey = coin.output.script

theorem exists_signCoin_iff {account : Keys.ExtendedKey} {type : ScriptType} {choice : NonceChoice}
    {p : Psbt} {index : Nat} {coin : Coin} :
    (∃ p', signCoin account type choice p index coin = .ok p') ↔ Controls account type coin := by
  unfold signCoin Controls
  cases hkey : account.derive? coin.path with
  | none => simp
  | some key =>
      by_cases hscript : type.script key.secret.publicKey = coin.output.script
      · simp [hscript, pure, Except.pure]
      · simp [hscript, bind, Except.bind]

theorem sign_eq_foldlM {d d' : Draft} {account : Keys.ExtendedKey} {type : ScriptType}
    {choice : NonceChoice} (h : sign d account type choice = .ok d') :
    ∃ psbt, d.contributed.foldlM
        (fun p (index, coin) => signCoin account type choice p index coin) d.psbt = .ok psbt ∧
      d' = { d with psbt } := by
  simp only [sign] at h
  cases hsigned : d.contributed.foldlM
      (fun p (index, coin) => signCoin account type choice p index coin) d.psbt with
  | error e => simp [hsigned, bind, Except.bind] at h
  | ok psbt =>
      simp only [hsigned, bind, Except.bind, pure, Except.pure] at h
      exact ⟨psbt, rfl, (Except.ok.inj h).symm⟩

theorem exists_foldlM_signCoin_iff {account : Keys.ExtendedKey} {type : ScriptType}
    {choice : NonceChoice} (coins : List (Nat × Coin)) (p : Psbt) :
    (∃ psbt, coins.foldlM
      (fun p (index, coin) => signCoin account type choice p index coin) p = .ok psbt) ↔
        ∀ pair ∈ coins, Controls account type pair.2 := by
  induction coins generalizing p with
  | nil => exact ⟨fun _ _ hmem => absurd hmem List.not_mem_nil, fun _ => ⟨p, rfl⟩⟩
  | cons pair coins ih =>
      rw [List.foldlM_cons, List.forall_mem_cons, ← exists_signCoin_iff (p := p)]
      cases hcoin : signCoin account type choice p pair.1 pair.2 with
      | error e => simp [hcoin, bind, Except.bind]
      | ok next => simp [hcoin, bind, Except.bind, ih next]

/-- A draft is signed exactly if the account has the keys of all coins that were added. -/
theorem exists_sign_iff {d : Draft} {account : Keys.ExtendedKey} {type : ScriptType}
    (choice : NonceChoice) : (∃ signed, sign d account type choice = .ok signed) ↔
      ∀ pair ∈ d.contributed, Controls account type pair.2 := by
  rw [← exists_foldlM_signCoin_iff d.contributed d.psbt]
  constructor
  · rintro ⟨signed, hsigned⟩
    obtain ⟨psbt, hpsbt, -⟩ := sign_eq_foldlM hsigned
    exact ⟨psbt, hpsbt⟩
  · rintro ⟨psbt, hpsbt⟩
    exact ⟨{ d with psbt }, by rw [sign, hpsbt]; rfl⟩

/-- What signing one coin keeps, signing all of them keeps. -/
theorem sign_induction {d d' : Draft} {account : Keys.ExtendedKey} {type : ScriptType}
    {choice : NonceChoice} {P : Psbt → Prop}
    (hcoin : ∀ p p' index coin, P p → signCoin account type choice p index coin = .ok p' → P p')
    (hd : P d.psbt) (h : sign d account type choice = .ok d') : P d'.psbt := by
  obtain ⟨psbt, hsigned, rfl⟩ := sign_eq_foldlM h
  change P psbt
  clear h
  generalize d.psbt = p at hd hsigned
  generalize d.contributed = coins at hsigned
  induction coins generalizing p with
  | nil => exact Except.ok.inj hsigned ▸ hd
  | cons c coins ih =>
      rw [List.foldlM_cons] at hsigned
      cases hc : signCoin account type choice p c.1 c.2 with
      | error e => simp [hc, bind, Except.bind] at hsigned
      | ok next =>
          simp only [hc, bind, Except.bind] at hsigned
          exact ih next (hcoin p next c.1 c.2 hd hc) hsigned

theorem sign_eq_ok {d d' : Draft} {account : Keys.ExtendedKey} {type : ScriptType}
    {choice : NonceChoice} (h : sign d account type choice = .ok d') :
    d'.psbt.tx = d.psbt.tx ∧ d'.psbt.inputs.length = d.psbt.inputs.length ∧
      d'.contributed = d.contributed := by
  have hcoin : ∀ p p' index coin,
      p.tx = d.psbt.tx ∧ p.inputs.length = d.psbt.inputs.length →
        signCoin account type choice p index coin = .ok p' →
          p'.tx = d.psbt.tx ∧ p'.inputs.length = d.psbt.inputs.length := by
    rintro p p' index coin ⟨htx, hlength⟩ hsigned
    obtain ⟨htx', hlength'⟩ := signCoin_eq_ok hsigned
    exact ⟨htx'.trans htx, hlength'.trans hlength⟩
  obtain ⟨htx, hlength⟩ := sign_induction hcoin ⟨rfl, rfl⟩ h
  obtain ⟨psbt, -, rfl⟩ := sign_eq_foldlM h
  exact ⟨htx, hlength, rfl⟩

end Signing

theorem Draft.Merges.sign {d d' : Draft} {account : Keys.ExtendedKey} {type : ScriptType}
    {choice : NonceChoice} {original coins : List OutPoint} (hd : d.Merges original coins)
    (h : Signing.sign d account type choice = .ok d') : d'.Merges original coins := by
  obtain ⟨htx, hlength, hcontributed⟩ := Signing.sign_eq_ok h
  refine ⟨htx ▸ hd.inputs, hcontributed ▸ hd.coins, ?_, ?_⟩
  · rw [hcontributed, htx]
    exact hd.contributed
  · rw [hlength, htx]
    exact hd.complete

theorem outPoints_extract {p : Psbt} (h : p.inputs.length = p.tx.inputs.length) :
    p.extract.outPoints = p.tx.outPoints := by
  simp only [Psbt.extract, Psbt.inputPairs, Transaction.outPoints, List.map_map]
  have hfst : (p.tx.inputs.zip p.inputs).map Prod.fst = p.tx.inputs :=
    List.map_fst_zip (Nat.le_of_eq h.symm)
  conv => rhs; rw [← hfst, List.map_map]
  rfl

theorem Draft.Merges.outPoints_extract {d : Draft} {original coins : List OutPoint}
    (hd : d.Merges original coins) : d.psbt.extract.outPoints = d.psbt.tx.outPoints :=
  Payjoin.outPoints_extract hd.complete

end Payjoin

end Paydesk

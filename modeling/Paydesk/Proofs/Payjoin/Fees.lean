import Paydesk.Proofs.Payjoin.Outputs

/-!
What a proposal leaves to the receiver and to the sender, whatever the coins, the
parameters and the random words are.
-/

namespace Paydesk.Payjoin

open Chain Wallet Invoices

namespace Draft

theorem outputs_ofInputs (fallback : Psbt) (fee : Nat) (inputs : List DraftInput)
    (outputs : List (OutputRole × TxOut)) :
    (ofInputs fallback fee inputs outputs).outputs = outputs := by
  simp [Draft.outputs, ofInputs, Psbt.ofTransaction, ← List.unzip_fst, ← List.unzip_snd,
    List.zip_unzip]

theorem labelled_ofInputs {fallback : Psbt} {fee : Nat} {inputs : List DraftInput}
    {outputs : List (OutputRole × TxOut)} (h : (outputs.map Prod.fst).Nodup) :
    (ofInputs fallback fee inputs outputs).Labelled where
  length := by simp [ofInputs, Psbt.ofTransaction]
  nodup := h

theorem assemble_shares {fallback : Psbt} {payment : Nat} {paid : TxOut}
    (hpaid : fallback.tx.outputs[payment]? = some paid) (fee : Nat) (coins : List Coin)
    (type : ScriptType) (sequence : Nat) (script : Option Script) (ws : Words) :
    (assemble fallback fee payment coins type sequence script ws).1.fee = fee ∧
      (assemble fallback fee payment coins type sequence script ws).1.Labelled ∧
      Shares fallback.tx.outputs payment (total (coins.map (·.output.value))) paid
        (assemble fallback fee payment coins type sequence script ws).1.outputs := by
  have hgrown := Shares.growPayment hpaid (total (coins.map (·.output.value)))
  have hshares := fun ws' => (hgrown.addDecoy script ws).perm (Words.shuffle_perm _ ws').symm
  refine ⟨rfl, labelled_ofInputs (hshares _).nodup, ?_⟩
  rw [assemble, outputs_ofInputs]
  exact hshares _

theorem contribute_shares {fallback : Psbt} {payment : Nat} {coins : List Coin}
    {type : ScriptType} {script : Option Script} {ws ws' : Words} {d : Draft}
    (h : contribute fallback payment coins type script ws = .ok (d, ws')) :
    fallback.fee? = some d.fee ∧ d.Labelled ∧
      ∃ paid, fallback.tx.outputs[payment]? = some paid ∧
        Shares fallback.tx.outputs payment (total (coins.map (·.output.value))) paid d.outputs := by
  obtain ⟨fee, sequence, paid, hfee, hpaid, -, -, hd⟩ := contribute_eq_ok h
  rw [(Prod.mk.inj hd).1]
  obtain ⟨hsame, hlabelled, hshares⟩ := assemble_shares hpaid fee coins type sequence script
    (ws.choose? (fallback.tx.inputs.map TxIn.sequence)).2
  exact ⟨hsame ▸ hfee, hlabelled, paid, hpaid, hshares⟩

theorem contribute_labelled {fallback : Psbt} {payment : Nat} {coins : List Coin}
    {type : ScriptType} {script : Option Script} {ws ws' : Words} {d : Draft}
    (h : contribute fallback payment coins type script ws = .ok (d, ws')) : d.Labelled :=
  (contribute_shares h).2.1

theorem Labelled.sign {d d' : Draft} {account : Keys.ExtendedKey} {type : ScriptType}
    {choice : NonceChoice} (hd : d.Labelled) (h : Signing.sign d account type choice = .ok d') :
    d'.Labelled := by
  have htx := (Signing.sign_eq_ok h).1
  obtain ⟨psbt, -, rfl⟩ := Signing.sign_eq_foldlM h
  exact ⟨htx ▸ hd.length, hd.nodup⟩

theorem senderEligible_isReceiver (params : Params) {role : OutputRole} (h : role.isReceiver) :
    senderEligible params role = false := by
  cases hparams : params.feeContribution with
  | none => simp [senderEligible, hparams, OutputRole.isSender, h]
  | some contribution =>
      cases role with
      | sender i => cases h
      | payment => simp [senderEligible, hparams]
      | decoyChange => simp [senderEligible, hparams]

theorem senderEligible_isSender (params : Params) {role : OutputRole}
    (h : senderEligible params role) : role.isSender := by
  cases hrole : role.isReceiver with
  | true => simp [senderEligible_isReceiver params hrole] at h
  | false => exact OutputRole.isSender_iff.mpr hrole

theorem senderBudget_le (params : Params) (additional : Nat) :
    senderBudget params additional ≤ additional := by
  unfold senderBudget
  split
  · exact min_le_left _ _
  · exact le_rfl

/-- What the outputs of a draft give up for a fee that lacks some amount. -/
structure Settles (d d' : Draft) (lacking : Nat) (due : Int) (params : Params)
    (c : FeeContribution) : Prop where
  labelled : d'.Labelled
  receiverLe : c.receiver ≤ min lacking (receiverBudget due params)
  senderLe : c.sender ≤ senderBudget params (lacking - c.receiver)
  receiverWorth : worth OutputRole.isReceiver d'.outputs + c.receiver =
    worth OutputRole.isReceiver d.outputs
  senderWorth : worth OutputRole.isSender d'.outputs + c.sender =
    worth OutputRole.isSender d.outputs
  receivers : ∀ role output, role.isReceiver → (role, output) ∈ d.outputs →
    ∃ output', (role, output') ∈ d'.outputs ∧ Lowered c.receiver output output'
  senders : ∀ i output, (.sender i, output) ∈ d.outputs →
    ∃ output', (.sender i, output') ∈ d'.outputs ∧ Lowered c.sender output output' ∧
      (senderEligible params (.sender i) = false → output' = output)
  spared : (∀ role ∈ d.roles, senderEligible params role = false) → c.sender = 0

section Preserve

variable {d d' : Draft} {rate relayRate : Nat} {due : Int} {params : Params} {c : FeeContribution}

theorem Labelled.map_fst_outputs (h : d.Labelled) : d.outputs.map Prod.fst = d.roles :=
  List.map_fst_zip h.length.le

theorem preserveFeeRate_drains (h : d.preserveFeeRate rate due params relayRate = .ok (d', c)) :
    ∃ between,
      (between, c.receiver) = drain OutputRole.isReceiver
        (min (d.lacking rate) (receiverBudget due params)) d.outputs ∧
      (d'.psbt.tx.outputs, c.sender) = drain (senderEligible params)
        (senderBudget params (d.lacking rate - c.receiver)) (d.roles.zip between) ∧
      d'.roles = d.roles := by
  obtain ⟨rfl, rfl⟩ := Prod.mk.inj (eq_lowered_of_ok h)
  exact ⟨_, rfl, rfl, rfl⟩

theorem preserveFeeRate_settles (hd : d.Labelled)
    (h : d.preserveFeeRate rate due params relayRate = .ok (d', c)) :
    Settles d d' (d.lacking rate) due params c := by
  obtain ⟨between, hreceiver, hsender, hroles⟩ := preserveFeeRate_drains h
  obtain ⟨hbetween, hgiven⟩ := Prod.mk.inj hreceiver
  obtain ⟨houtputs, htaken⟩ := Prod.mk.inj hsender
  have hmiddle : d.roles.zip between = drained OutputRole.isReceiver
      (min (d.lacking rate) (receiverBudget due params)) d.outputs := by
    rw [drained, hd.map_fst_outputs, hbetween]
  have hfst : (d.roles.zip between).map Prod.fst = d.roles := by
    rw [hmiddle, map_fst_drained, hd.map_fst_outputs]
  have hlast : d'.outputs = drained (senderEligible params)
      (senderBudget params (d.lacking rate - c.receiver)) (d.roles.zip between) := by
    rw [Draft.outputs, hroles, houtputs, drained, hfst]
  constructor
  · constructor
    · rw [hroles, houtputs, length_drain, ← List.length_map Prod.fst, hfst]
    · exact hroles ▸ hd.nodup
  · rw [hgiven]
    exact drain_le ..
  · rw [htaken]
    exact drain_le ..
  · rw [hlast, worth_drained_of_not fun role => senderEligible_isReceiver params, hgiven, hmiddle]
    exact worth_drained (fun _ => id) _ _
  · rw [hlast, htaken, worth_drained fun role => senderEligible_isSender params, hmiddle]
    exact worth_drained_of_not (fun _ => OutputRole.isSender_iff.mp) _ _
  · intro role output hrole hmem
    obtain ⟨output₁, hmem₁, hlowered, -⟩ := mem_drained OutputRole.isReceiver
      (min (d.lacking rate) (receiverBudget due params)) hmem
    rw [← hmiddle] at hmem₁
    obtain ⟨output₂, hmem₂, -, hkept⟩ := mem_drained (senderEligible params)
      (senderBudget params (d.lacking rate - c.receiver)) hmem₁
    obtain rfl := hkept (senderEligible_isReceiver params hrole)
    exact ⟨output₂, hlast ▸ hmem₂, hgiven ▸ hlowered⟩
  · intro i output hmem
    obtain ⟨output₁, hmem₁, -, hkept⟩ := mem_drained OutputRole.isReceiver
      (min (d.lacking rate) (receiverBudget due params)) hmem
    obtain rfl := hkept rfl
    rw [← hmiddle] at hmem₁
    obtain ⟨output₂, hmem₂, hlowered, hspared⟩ := mem_drained (senderEligible params)
      (senderBudget params (d.lacking rate - c.receiver)) hmem₁
    exact ⟨output₂, hlast ▸ hmem₂, htaken ▸ hlowered, hspared⟩
  · intro hnone
    rw [htaken, drain_of_not _ (by rwa [hfst])]

/-- Where the sender names an output, the fee is taken from the first one of that role. No
other output of a draft has it. -/
theorem preserveFeeRate_named (hd : d.Labelled) {amount index : Nat}
    (hparams : params.feeContribution = some (amount, index))
    (h : d.preserveFeeRate rate due params relayRate = .ok (d', c)) :
    ∃ between, (between, c.receiver) = drain OutputRole.isReceiver
        (min (d.lacking rate) (receiverBudget due params)) d.outputs ∧
      d'.psbt.tx.outputs = between.modify (d.roles.idxOf (.sender index))
        (lower (min (d.lacking rate - c.receiver) amount)) := by
  obtain ⟨between, hreceiver, hsender, -⟩ := preserveFeeRate_drains h
  refine ⟨between, hreceiver, ?_⟩
  have hlength : d.roles.length = between.length := by
    rw [(Prod.mk.inj hreceiver).1, length_drain, ← List.length_map Prod.fst, hd.map_fst_outputs]
  have hroles := List.map_fst_zip hlength.le
  have heligible : senderEligible params = fun role => decide (role = .sender index) := by
    simp only [senderEligible, hparams]
  have hbudget : senderBudget params (d.lacking rate - c.receiver) =
      min (d.lacking rate - c.receiver) amount := by
    simp only [senderBudget, hparams]
  rw [(Prod.mk.inj hsender).1, heligible, hbudget,
    drain_eq_modify_idxOf (hroles.symm ▸ hd.nodup), hroles, List.map_snd_zip hlength.ge]

end Preserve

end Draft

/-!
A payment of a little more than is due, with change. The sender allows for a part
of the fee only.
-/

namespace Draft.Sample

def source : OutPoint := ⟨List.replicate 32 1, 0⟩

def deposit : Script := [0x00, 0x14] ++ List.replicate 20 7

def change : Script := [0x00, 0x14] ++ List.replicate 20 8

def spent : TxOut := ⟨6800, [0x00, 0x14] ++ List.replicate 20 5⟩

def original : Transaction :=
  ⟨2, [⟨source, [], 0xfffffffd, [[1], [2]]⟩], [⟨5000, deposit⟩, ⟨800, change⟩], 0⟩

def params : Params := ⟨false, some (200, 1), none⟩

def accepted : Accepted :=
  ⟨Submission.psbtOf original [some spent], original, .rawTransaction, params, .segwit,
    Draft.feeRateOf 1000 original.weight⟩

def target : Target := ⟨"order", 0, ⟨deposit, true, ⟨"shop", .segwit⟩, 4900, false⟩⟩

/-- Paid to the key that is the base point itself. -/
def coinScript : Script :=
  [0x00, 0x14, 0x75, 0x1e, 0x76, 0xe8, 0x19, 0x91, 0x96, 0xd4, 0x54, 0x94, 0x1c, 0x45, 0xd1, 0xb3,
    0xa3, 0x23, 0xf1, 0x43, 0x3b, 0xd6]

def coin : Coin := ⟨⟨List.replicate 32 9, 1⟩, ⟨3000, coinScript⟩, []⟩

theorem accepted_sound : accepted.Sound where
  check := rfl
  fee := ⟨1000, rfl, rfl⟩
  fallback := rfl

def drafted : Draft where
  psbt := { Psbt.ofTransaction ⟨2, [⟨coin.outPoint, [], 0xfffffffd, []⟩,
      ⟨source, [], 0xfffffffd, []⟩], [⟨800, change⟩, ⟨8000, deposit⟩], 0⟩ with
    inputs := [{ PsbtInput.empty with previousOutput := some coin.output }, .empty] }
  roles := [.sender 1, .payment]
  contributed := [(0, coin)]
  inputWeights := [⟨1, 108⟩, ⟨1, 5⟩]
  fee := 1000

/-- The payment gives what is overpaid, the change what the sender allows. -/
def settled : Draft :=
  { drafted with
    psbt := { drafted.psbt with
      tx := { drafted.psbt.tx with outputs := [⟨600, change⟩, ⟨7900, deposit⟩] } }
    fee := 1300 }

theorem contribute_eq_drafted :
    Draft.contribute accepted.psbt target.index [coin] .segwit none [] = .ok (drafted, []) := rfl

theorem preserveFeeRate_eq_settled :
    drafted.preserveFeeRate accepted.rate
      (remainingDue target.method.due (Submission.paidValue accepted target)) params 250 =
        .ok (settled, ⟨100, 200, 1778⟩) := by
  decide +kernel

end Draft.Sample

section Results

variable {a : Accepted} {t : Target} {coin : Coin} {coins : List Coin} {fallback : Psbt}
  {payment rate relayRate : Nat} {due : Int} {type : ScriptType} {script : Option Script}
  {params : Params} {ws ws' : Words} {d d' : Draft} {c : Draft.FeeContribution}

theorem receiverBudget_le {due paid : Nat} (h : due ≤ paid) (params : Params) :
    due + Draft.receiverBudget (remainingDue due paid) params ≤ paid := by
  unfold Draft.receiverBudget
  split
  · exact h
  · unfold remainingDue limit63
    omega

/-- Nothing is asked of an output that is the payment or that is not there. -/
theorem Draft.Shares.senderEligible {outputs : List TxOut} {contributed amount index : Nat}
    {paid : TxOut} (hlabelled : d.Labelled)
    (hshares : Draft.Shares outputs payment contributed paid d.outputs)
    (hparams : params.feeContribution = some (amount, index))
    (hindex : index = payment ∨ outputs.length ≤ index) :
    ∀ role ∈ d.roles, Draft.senderEligible params role = false := by
  intro role hrole
  rw [← hlabelled.map_fst_outputs] at hrole
  obtain ⟨⟨role, output⟩, hmem, rfl⟩ := List.mem_map.mp hrole
  cases role with
  | payment => exact Draft.senderEligible_isReceiver params rfl
  | decoyChange => exact Draft.senderEligible_isReceiver params rfl
  | sender i =>
      obtain ⟨hne, houtput⟩ := (hshares.senders i output).mp hmem
      obtain ⟨hlt, -⟩ := List.getElem?_eq_some_iff.mp houtput
      have hother : i ≠ index := by omega
      simp [Draft.senderEligible, hparams, hother]

theorem Accepted.Sound.outputs (ha : a.Sound) : a.fallback.outputs = a.psbt.tx.outputs := by
  rw [ha.fallback]
  rfl

theorem Submission.paidValue_eq {paid : TxOut} (h : a.fallback.outputs[t.index]? = some paid) :
    Submission.paidValue a t = paid.value := by
  simp [Submission.paidValue, h]

/-- A payjoin never costs the receiver what is due: the receiver's outputs hold
the payment and the coin, less what the receiver adds to the fee. -/
theorem receiver_keeps_due (ha : a.Sound) (hdue : t.method.due ≤ Submission.paidValue a t)
    (hcontribute : Draft.contribute a.psbt t.index [coin] type script ws = .ok (d, ws'))
    (hpreserve : d.preserveFeeRate rate (remainingDue t.method.due (Submission.paidValue a t))
      params relayRate = .ok (d', c)) :
    d'.Labelled ∧
    Draft.worth OutputRole.isReceiver d'.outputs + c.receiver =
      Submission.paidValue a t + coin.output.value ∧
    t.method.due + coin.output.value ≤ Draft.worth OutputRole.isReceiver d'.outputs ∧
    (∀ signed, ∃ merge, (Submission.paymentOf a t signed c.receiver).merge = some merge ∧
      merge.value + c.receiver = Submission.paidValue a t ∧ t.method.due ≤ merge.value) ∧
    (params.keepOutputs → c.receiver = 0 ∧
      ∃ output, (.payment, output) ∈ d'.outputs ∧ Submission.paidValue a t ≤ output.value) := by
  obtain ⟨-, hlabelled, paid, hpaid, hshares⟩ := Draft.contribute_shares hcontribute
  have hsettles := Draft.preserveFeeRate_settles hlabelled hpreserve
  have hvalue : Submission.paidValue a t = paid.value :=
    Submission.paidValue_eq (ha.outputs ▸ hpaid)
  have hcoin : total ([coin].map (·.output.value)) = coin.output.value := Nat.add_zero _
  have hworth := hsettles.receiverWorth.trans hshares.receiverWorth
  have hgiven := Nat.le_min.mp hsettles.receiverLe
  have hbudget := receiverBudget_le hdue params
  rw [hvalue] at hbudget hgiven ⊢
  rw [hcoin] at hworth
  refine ⟨hsettles.labelled, hworth, by omega, ?_, ?_⟩
  · intro signed
    refine ⟨_, rfl, ?_, ?_⟩
    · dsimp only
      omega
    · dsimp only
      omega
  · intro hkeep
    have hzero : c.receiver = 0 := by
      simpa [Draft.receiverBudget, hkeep] using hgiven.2
    obtain ⟨output, hmem, hle⟩ := hshares.covered
    obtain ⟨output', hmem', hlowered⟩ := hsettles.receivers _ output rfl hmem
    have hmost := hlowered.most
    exact ⟨hzero, output', hmem', by omega⟩

theorem Draft.Sample.settled_keeps_due : accepted.Sound ∧
    Draft.contribute accepted.psbt target.index [Draft.Sample.coin] .segwit none [] =
      .ok (drafted, []) ∧
    Draft.worth OutputRole.isReceiver settled.outputs + 100 = 5000 + 3000 ∧
    4900 + 3000 ≤ Draft.worth OutputRole.isReceiver settled.outputs := by
  obtain ⟨-, hworth, hdue, -, -⟩ := receiver_keeps_due accepted_sound (by decide)
    contribute_eq_drafted preserveFeeRate_eq_settled
  exact ⟨accepted_sound, contribute_eq_drafted, hworth, hdue⟩

/-- The sender's outputs pay for nothing but the fee that is lacking, no more than
the sender allows, and none of them becomes dust. -/
theorem sender_pays_lacking_fee
    (hcontribute : Draft.contribute fallback payment coins type script ws = .ok (d, ws'))
    (hpreserve : d.preserveFeeRate rate due params relayRate = .ok (d', c)) :
    d'.Labelled ∧
    (∀ i output, i ≠ payment → fallback.tx.outputs[i]? = some output →
      ∃ output', (.sender i, output') ∈ d'.outputs ∧ Draft.Lowered c.sender output output') ∧
    Draft.worth OutputRole.isSender d'.outputs + c.sender =
      total ((fallback.tx.outputs.eraseIdx payment).map TxOut.value) ∧
    (∃ fee, fallback.fee? = some fee ∧
      c.receiver + c.sender ≤ Draft.feeFor rate d.predictedWeight - fee) ∧
    ∀ amount index, params.feeContribution = some (amount, index) →
      c.sender ≤ amount ∧
      (∀ i output, i ≠ payment → i ≠ index → fallback.tx.outputs[i]? = some output →
        (.sender i, output) ∈ d'.outputs) ∧
      (index = payment ∨ fallback.tx.outputs.length ≤ index →
        c.sender = 0 ∧ ∀ i output, i ≠ payment → fallback.tx.outputs[i]? = some output →
          (.sender i, output) ∈ d'.outputs) := by
  obtain ⟨hfee, hlabelled, paid, -, hshares⟩ := Draft.contribute_shares hcontribute
  have hsettles := Draft.preserveFeeRate_settles hlabelled hpreserve
  have hreceiver := (Nat.le_min.mp hsettles.receiverLe).1
  have hbudget := Draft.senderBudget_le params (d.lacking rate - c.receiver)
  have hsender := hsettles.senderLe
  have houtputs : ∀ i output, i ≠ payment → fallback.tx.outputs[i]? = some output →
      ∃ output', (.sender i, output') ∈ d'.outputs ∧ Draft.Lowered c.sender output output' ∧
        (Draft.senderEligible params (.sender i) = false → output' = output) :=
    fun i output hne houtput => hsettles.senders i output ((hshares.senders i output).mpr
      ⟨hne, houtput⟩)
  have hspared : ∀ i output, i ≠ payment → fallback.tx.outputs[i]? = some output →
      Draft.senderEligible params (.sender i) = false → (.sender i, output) ∈ d'.outputs := by
    intro i output hne houtput hnone
    obtain ⟨output', hmem, -, hkept⟩ := houtputs i output hne houtput
    exact hkept hnone ▸ hmem
  refine ⟨hsettles.labelled, ?_, hsettles.senderWorth.trans hshares.senderWorth,
    ⟨d.fee, hfee, ?_⟩, ?_⟩
  · intro i output hne houtput
    obtain ⟨output', hmem, hlowered, -⟩ := houtputs i output hne houtput
    exact ⟨output', hmem, hlowered⟩
  · unfold Draft.lacking at hreceiver hbudget hsender
    omega
  · intro amount index hparams
    refine ⟨?_, ?_, ?_⟩
    · refine hsender.trans ?_
      simp only [Draft.senderBudget, hparams]
      exact min_le_right _ _
    · intro i output hne hother houtput
      refine hspared i output hne houtput ?_
      simp [Draft.senderEligible, hparams, hother]
    · intro hindex
      have hnone := hshares.senderEligible hlabelled hparams hindex
      refine ⟨hsettles.spared hnone, fun i output hne houtput => hspared i output hne houtput ?_⟩
      refine hnone _ ?_
      rw [← hlabelled.map_fst_outputs]
      exact List.mem_map_of_mem ((hshares.senders i output).mpr ⟨hne, houtput⟩)

theorem Draft.Sample.settled_spares_sender : accepted.psbt.fee? = some 1000 ∧
    Draft.contribute accepted.psbt target.index [Draft.Sample.coin] .segwit none [] =
      .ok (drafted, []) ∧
    (∃ output, (.sender 1, output) ∈ settled.outputs ∧
      Draft.Lowered 200 ⟨800, change⟩ output) ∧
    Draft.worth OutputRole.isSender settled.outputs + 200 = 800 := by
  obtain ⟨-, houtputs, hworth, -, -⟩ := sender_pays_lacking_fee contribute_eq_drafted
    preserveFeeRate_eq_settled
  exact ⟨rfl, contribute_eq_drafted, houtputs 1 _ (by decide) rfl, hworth⟩

end Results

end Paydesk.Payjoin

import Paydesk.Proofs.Payjoin.Fallback
import Paydesk.Proofs.Payjoin.FeeRate
import Paydesk.Proofs.Payjoin.Making

/-!
What a proposal has of the original and what it has of the receiver, wherever the
shuffles put it.
-/

namespace Paydesk

theorem Words.mem_of_choose? {α : Type} {items : List α} {item : α} {ws : Words}
    (h : (choose? items ws).1 = some item) : item ∈ items := by
  rw [choose?] at h
  split at h
  · cases h
  · exact List.mem_of_getElem? h

namespace Payjoin

open Chain Wallet Invoices

theorem modify_append {α : Type} (before : List α) (item : α) (after : List α) (f : α → α) :
    (before ++ item :: after).modify before.length f = before ++ f item :: after := by
  induction before with
  | nil => rfl
  | cons first before ih => simp [ih]

/-- What is known of a coin before it is signed. -/
def offered (coin : Coin) : PsbtInput :=
  { PsbtInput.empty with previousOutput := some coin.output }

/-- The inputs are those of an original with a coin among them. Something is known of
the coin, and of the others nothing. -/
structure Hosts (original : List TxIn) (coin : Coin) (index : Nat) (known : PsbtInput) (p : Psbt) :
    Prop where
  split : ∃ (before after : List TxIn) (sequence : Nat), before.length = index ∧
    (before ++ after).Perm original ∧
    sequence ∈ original.map TxIn.sequence ∧
    p.tx.inputs = before.map TxIn.bare ++ ⟨coin.outPoint, [], sequence, []⟩ ::
      after.map TxIn.bare ∧
    p.inputs = before.map (fun _ => .empty) ++ known :: after.map fun _ => .empty

theorem Hosts.congr {original : List TxIn} {coin : Coin} {index : Nat} {known : PsbtInput}
    {p p' : Psbt} (h : Hosts original coin index known p) (htx : p'.tx.inputs = p.tx.inputs)
    (hinputs : p'.inputs = p.inputs) : Hosts original coin index known p' := by
  obtain ⟨before, after, sequence, hindex, hperm, hsequence, htx', hinputs'⟩ := h.split
  exact ⟨before, after, sequence, hindex, hperm, hsequence, htx.trans htx',
    hinputs.trans hinputs'⟩

/-- The scripts paid to are those of an original. There may be one more if the original
has a single output. -/
structure Extends (original : Transaction) (change : Option Script) (tx : Transaction) : Prop where
  version : tx.version = original.version
  lockTime : tx.lockTime = original.lockTime
  outputs : ∃ more : List Script,
    (more = [] ∨ original.outputs.length = 1 ∧ ∃ script, change = some script ∧ more = [script]) ∧
      (tx.outputs.map TxOut.script).Perm (original.outputs.map TxOut.script ++ more)

namespace Draft

theorem filterMap_coins_eq_nil {inputs : List DraftInput} (h : ∀ i ∈ inputs, i.coin = none)
    (place : Nat → Nat) :
    (inputs.mapIdx fun i input => input.coin.map fun coin => (place i, coin)).filterMap id =
      [] := by
  refine List.filterMap_eq_nil_iff.mpr fun entry hentry => ?_
  obtain ⟨i, hlt, rfl⟩ := List.mem_mapIdx.mp hentry
  simp [h _ (List.getElem_mem hlt)]

theorem contributed_append {before after : List DraftInput} {own : DraftInput} {coin : Coin}
    (hbefore : ∀ i ∈ before, i.coin = none) (hown : own.coin = some coin)
    (hafter : ∀ i ∈ after, i.coin = none) (fallback : Psbt) (fee : Nat)
    (outputs : List (OutputRole × TxOut)) :
    (ofInputs fallback fee (before ++ own :: after) outputs).contributed =
      [(before.length, coin)] := by
  have hentry : id (some (0 + before.length, coin)) = some (before.length, coin) := by
    rw [Nat.zero_add, id]
  change ((before ++ own :: after).mapIdx fun i input =>
    input.coin.map fun coin => (i, coin)).filterMap id = _
  rw [List.mapIdx_append, List.mapIdx_cons, List.filterMap_append,
    filterMap_coins_eq_nil hbefore fun i => i, hown, Option.map_some,
    List.filterMap_cons_some hentry, filterMap_coins_eq_nil hafter fun i => i + 1 + before.length,
    List.nil_append]

theorem map_known_eq_empty {inputs : List DraftInput} (h : ∀ i ∈ inputs, i.coin = none) :
    inputs.map (fun i => { PsbtInput.empty with previousOutput := i.coin.map Coin.output }) =
      (inputs.map DraftInput.input).map fun _ => PsbtInput.empty := by
  rw [List.map_map]
  refine List.map_congr_left fun i hi => ?_
  rw [h i hi]
  rfl

/-- One of the inputs is the coin, and the others are the sender's. -/
theorem split_of_perm_gathered {fallback : Psbt}
    (hcomplete : fallback.inputs.length = fallback.tx.inputs.length) {coin : Coin}
    {type : ScriptType} {sequence : Nat} {inputs : List DraftInput}
    (hperm : inputs.Perm (gathered fallback [coin] type sequence)) :
    ∃ before after, inputs = before ++ coinInput type sequence coin :: after ∧
      (∀ i ∈ before ++ after, i.coin = none) ∧
      ((before ++ after).map DraftInput.input).Perm fallback.tx.inputs := by
  have hown : coinInput type sequence coin ∈ inputs :=
    hperm.symm.subset (List.mem_append_right _ List.mem_cons_self)
  obtain ⟨before, after, rfl⟩ := List.append_of_mem hown
  have hothers : (before ++ after).Perm (fallback.inputPairs.map fun pair =>
      (⟨pair.1, finalWeight pair.1 pair.2, none⟩ : DraftInput)) :=
    ((List.perm_middle.symm.trans hperm).trans List.perm_append_comm).cons_inv
  refine ⟨before, after, rfl, ?_, ?_⟩
  · intro i hi
    obtain ⟨pair, -, rfl⟩ := List.mem_map.mp (hothers.subset hi)
    rfl
  · refine (hothers.map DraftInput.input).trans ?_
    rw [List.map_map]
    exact .of_eq (List.map_fst_zip hcomplete.ge)

theorem ofInputs_hosts {fallback : Psbt}
    (hcomplete : fallback.inputs.length = fallback.tx.inputs.length) {coin : Coin}
    {type : ScriptType} {sequence : Nat}
    (hsequence : sequence ∈ fallback.tx.inputs.map TxIn.sequence) {inputs : List DraftInput}
    (hperm : inputs.Perm (gathered fallback [coin] type sequence)) (fee : Nat)
    (outputs : List (OutputRole × TxOut)) :
    ∃ index, Hosts fallback.tx.inputs coin index (offered coin)
        (ofInputs fallback fee inputs outputs).psbt ∧
      (ofInputs fallback fee inputs outputs).contributed = [(index, coin)] := by
  obtain ⟨before, after, rfl, hnone, hothers⟩ := split_of_perm_gathered hcomplete hperm
  obtain ⟨hbefore, hafter⟩ := List.forall_mem_append.mp hnone
  refine ⟨before.length, ⟨before.map DraftInput.input, after.map DraftInput.input, sequence,
    List.length_map _, ?_, hsequence, ?_, ?_⟩, contributed_append hbefore rfl hafter _ _ _⟩
  · rwa [← List.map_append]
  · simp [ofInputs, Psbt.ofTransaction, coinInput, TxIn.bare, Function.comp_def]
  · rw [← map_known_eq_empty hbefore, ← map_known_eq_empty hafter]
    simp [ofInputs, coinInput, offered]

theorem map_script_growPayment (outputs : List TxOut) (payment contributed : Nat) :
    (growPayment outputs payment contributed).map (·.2.script) = outputs.map TxOut.script := by
  apply List.ext_getElem
  · simp [growPayment]
  · intro i _ _
    simp only [growPayment, List.getElem_map, List.getElem_mapIdx]
    split <;> rfl

theorem map_script_addDecoy (contributed : Nat) (change : Option Script)
    (outputs : List (OutputRole × TxOut)) (ws : Words) :
    ∃ more : List Script,
      (more = [] ∨ outputs.length = 1 ∧ ∃ script, change = some script ∧ more = [script]) ∧
        (addDecoy contributed change outputs ws).1.map (·.2.script) =
          outputs.map (·.2.script) ++ more := by
  unfold addDecoy
  split
  · rename_i role payment script
    dsimp only
    split
    · exact ⟨[script], .inr ⟨rfl, script, rfl, rfl⟩, rfl⟩
    · exact ⟨[], .inl rfl, rfl⟩
  · exact ⟨[], .inl rfl, (List.append_nil _).symm⟩

section Contribute

variable {fallback : Psbt} {payment : Nat} {coin : Coin} {coins : List Coin} {type : ScriptType}
  {change : Option Script} {ws ws' : Words} {d : Draft}

theorem contribute_hosts (hcomplete : fallback.inputs.length = fallback.tx.inputs.length)
    (h : contribute fallback payment [coin] type change ws = .ok (d, ws')) :
    ∃ index, Hosts fallback.tx.inputs coin index
        (offered coin) d.psbt ∧
      d.contributed = [(index, coin)] := by
  obtain ⟨fee, sequence, paid, -, -, -, hsequence, hd⟩ := contribute_eq_ok h
  obtain rfl : d = _ := congrArg Prod.fst hd
  exact ofInputs_hosts hcomplete (Words.mem_of_choose? hsequence) (Words.shuffle_perm ..) _ _

theorem assemble_extends (fallback : Psbt) (fee payment : Nat) (coins : List Coin)
    (type : ScriptType) (sequence : Nat) (change : Option Script) (ws : Words) :
    Extends fallback.tx change
      (assemble fallback fee payment coins type sequence change ws).1.psbt.tx := by
  obtain ⟨more, hmore, hscripts⟩ := map_script_addDecoy (total (coins.map (·.output.value)))
    change (growPayment fallback.tx.outputs payment (total (coins.map (·.output.value)))) ws
  have hlength : (growPayment fallback.tx.outputs payment
      (total (coins.map (·.output.value)))).length = fallback.tx.outputs.length :=
    List.length_mapIdx
  rw [map_script_growPayment] at hscripts
  rw [hlength] at hmore
  refine ⟨rfl, rfl, more, hmore, ?_⟩
  rw [← hscripts]
  simp only [assemble, ofInputs, Psbt.ofTransaction, List.map_map]
  exact (Words.shuffle_perm _ _).map _

theorem contribute_extends
    (h : contribute fallback payment coins type change ws = .ok (d, ws')) :
    Extends fallback.tx change d.psbt.tx := by
  obtain ⟨fee, sequence, paid, -, -, -, -, hd⟩ := contribute_eq_ok h
  obtain rfl : d = _ := congrArg Prod.fst hd
  exact assemble_extends ..

end Contribute

section Preserve

variable {d d' : Draft} {rate relayRate : Nat} {due : Int} {params : Params} {c : FeeContribution}

theorem preserveFeeRate_extends {original : Transaction} {change : Option Script}
    (hd : d.roles.length = d.psbt.tx.outputs.length)
    (h : d.preserveFeeRate rate due params relayRate = .ok (d', c))
    (hextends : Extends original change d.psbt.tx) : Extends original change d'.psbt.tx := by
  obtain rfl : _ = d' := congrArg Prod.fst (eq_lowered_of_ok h)
  refine ⟨hextends.version, hextends.lockTime, ?_⟩
  rw [map_script_lowered hd]
  exact hextends.outputs

end Preserve

end Draft

namespace Signing

theorem push_ne_nil (data : Bytes) : Script.push data ≠ [] := by
  rw [Script.push]
  split <;> exact List.cons_ne_nil _ _

theorem isFinal_endorsed (known : PsbtInput) (type : ScriptType) (key : Keys.SecretKey)
    (choice : NonceChoice) (tx : Transaction) (index : Nat) (output : TxOut) :
    (endorsed known (signInput type key choice tx index output)).isFinal := by
  cases type with
  | segwit => simp [endorsed, signInput, PsbtInput.isFinal]
  | segwitP2sh => simp [endorsed, signInput, PsbtInput.isFinal]
  | legacy => simp [endorsed, signInput, PsbtInput.isFinal, push_ne_nil]

theorem signCoin_of_sign {d d' : Draft} {account : Keys.ExtendedKey} {type : ScriptType}
    {choice : NonceChoice} {coin : Coin} {index : Nat} (hd : d.contributed = [(index, coin)])
    (h : sign d account type choice = .ok d') :
    signCoin account type choice d.psbt index coin = .ok d'.psbt := by
  obtain ⟨psbt, hsigned, rfl⟩ := sign_eq_foldlM h
  rw [hd, List.foldlM_cons] at hsigned
  cases hcoin : signCoin account type choice d.psbt index coin with
  | error e => simp [hcoin, bind, Except.bind] at hsigned
  | ok p =>
      simp only [hcoin, bind, Except.bind, List.foldlM_nil, pure, Except.pure] at hsigned
      exact hsigned

/-- The coin of a draft is signed, wherever it is. -/
theorem sign_hosts {d d' : Draft} {account : Keys.ExtendedKey} {type : ScriptType}
    {choice : NonceChoice} {original : List TxIn} {coin : Coin} {index : Nat}
    (hd : d.contributed = [(index, coin)])
    (hhosts : Hosts original coin index (offered coin) d.psbt)
    (h : sign d account type choice = .ok d') :
    ∃ known, Hosts original coin index known d'.psbt ∧
      known.previousOutput = some coin.output ∧ known.isFinal := by
  obtain ⟨before, after, sequence, hindex, hperm, hsequence, htx, hinputs⟩ := hhosts.split
  obtain ⟨key, hsigned⟩ := signCoin_eq_modify (signCoin_of_sign hd h)
  refine ⟨endorsed (offered coin) (signInput type key choice d.psbt.tx index coin.output),
    ⟨before, after, sequence, hindex, hperm, hsequence, ?_, ?_⟩, rfl, isFinal_endorsed ..⟩
  · rw [hsigned, htx]
  · have hplace : index = (before.map fun _ => PsbtInput.empty).length := by
      rw [List.length_map, hindex]
    rw [hsigned, hinputs, hplace, modify_append]

end Signing

namespace Submission

/-- What is known of inputs that are not final is dropped, and nothing else. -/
theorem blankOpenInputs_hosts {original : List TxIn} {coin : Coin} {index : Nat}
    {known : PsbtInput} {p : Psbt} (h : Hosts original coin index known p)
    (hfinal : known.isFinal) : Hosts original coin index known (blankOpenInputs p) := by
  obtain ⟨before, after, sequence, hindex, hperm, hsequence, htx, hinputs⟩ := h.split
  have hkept : known.finalScript = none → known.finalWitness = none → PsbtInput.empty = known := by
    intro hscript hwitness
    simp [PsbtInput.isFinal, hscript, hwitness] at hfinal
  refine ⟨before, after, sequence, hindex, hperm, hsequence, htx, ?_⟩
  simpa [blankOpenInputs, hinputs] using hkept

end Submission

/-- The transaction of a request without what signs it. -/
def Request.unsigned (request : Request) : Transaction :=
  match request.payload with
  | .psbt p => p.tx
  | .transaction tx => { tx with inputs := tx.inputs.map TxIn.bare }

theorem Log.Accepts.unsigned {settings : Settings} {log : Log} {request : Request} {a : Accepted}
    (h : log.Accepts settings request a) : a.psbt.tx = request.unsigned := by
  rcases h.payload with hpayload | ⟨tx, previous, hpayload, -, hpsbt⟩
  · rw [Request.unsigned, hpayload]
  · rw [Request.unsigned, hpayload, hpsbt]
    rfl

/-- A proposal that has the inputs and the scripts of an original, one coin, and one
more script at most. The sender learns nothing of its own inputs, and all that it
needs of the coin. -/
structure Joins (original : Transaction) (coin : Coin) (change : Option Script) (p : Psbt) : Prop
    extends Extends original change p.tx where
  inputs : ∃ sequence ∈ original.inputs.map TxIn.sequence,
    (p.tx.inputs.map fun i => (i.previous, i.sequence)).Perm
      (original.inputs.map (fun i => (i.previous, i.sequence)) ++ [(coin.outPoint, sequence)])
  fresh : coin.outPoint ∉ original.outPoints
  nodup : p.tx.outPoints.Nodup
  complete : p.inputs.length = p.tx.inputs.length
  senders : ∀ input known, (input, known) ∈ p.inputPairs → input.previous ∈ original.outPoints →
    known = .empty
  receiver : ∀ input known, (input, known) ∈ p.inputPairs → input.previous = coin.outPoint →
    known.previousOutput = some coin.output ∧ known.isFinal

theorem mem_zip_bare {inputs : List TxIn} {input : TxIn} {known : PsbtInput}
    (h : (input, known) ∈ (inputs.map TxIn.bare).zip (inputs.map fun _ => PsbtInput.empty)) :
    input.previous ∈ inputs.map TxIn.previous ∧ known = .empty := by
  rw [List.zip_map', List.mem_map] at h
  obtain ⟨i, hi, h⟩ := h
  obtain ⟨rfl, rfl⟩ := Prod.mk.inj h
  exact ⟨List.mem_map.mpr ⟨i, hi, rfl⟩, rfl⟩

namespace Hosts

variable {original : Transaction} {coin : Coin} {change : Option Script} {index : Nat}
  {known : PsbtInput} {p : Psbt}

theorem inputs_perm (h : Hosts original.inputs coin index known p) :
    ∃ sequence ∈ original.inputs.map TxIn.sequence,
      (p.tx.inputs.map fun i => (i.previous, i.sequence)).Perm
        (original.inputs.map (fun i => (i.previous, i.sequence)) ++
          [(coin.outPoint, sequence)]) := by
  obtain ⟨before, after, sequence, -, hperm, hsequence, htx, -⟩ := h.split
  refine ⟨sequence, hsequence, ?_⟩
  have hothers := hperm.map fun i => (i.previous, i.sequence)
  have hmiddle : (p.tx.inputs.map fun i => (i.previous, i.sequence)).Perm
      ((coin.outPoint, sequence) :: (before ++ after).map fun i => (i.previous, i.sequence)) := by
    simp only [htx, List.map_append, List.map_cons, List.map_map, Function.comp_def, TxIn.bare]
    exact List.perm_middle
  exact hmiddle.trans ((hothers.cons _).trans (List.perm_append_singleton _ _).symm)

theorem mem_inputPairs (h : Hosts original.inputs coin index known p) {input : TxIn}
    {k : PsbtInput} (hpair : (input, k) ∈ p.inputPairs) :
    input.previous ∈ original.outPoints ∧ k = .empty ∨
      input.previous = coin.outPoint ∧ k = known := by
  obtain ⟨before, after, sequence, -, hperm, -, htx, hinputs⟩ := h.split
  have hsender : ∀ {inputs : List TxIn}, inputs ⊆ before ++ after →
      (input, k) ∈ (inputs.map TxIn.bare).zip (inputs.map fun _ => PsbtInput.empty) →
      input.previous ∈ original.outPoints ∧ k = .empty := by
    intro inputs hsubset h
    obtain ⟨hprevious, rfl⟩ := mem_zip_bare h
    exact ⟨(hperm.map TxIn.previous).subset (List.map_subset _ hsubset hprevious), rfl⟩
  rw [Psbt.inputPairs, htx, hinputs, List.zip_append (by simp), List.zip_cons_cons,
    List.mem_append, List.mem_cons] at hpair
  rcases hpair with hbefore | hown | hafter
  · exact .inl (hsender (List.subset_append_left _ _) hbefore)
  · obtain ⟨rfl, rfl⟩ := Prod.mk.inj hown
    exact .inr ⟨rfl, rfl⟩
  · exact .inl (hsender (List.subset_append_right _ _) hafter)

theorem joins (h : Hosts original.inputs coin index known p)
    (hextends : Extends original change p.tx) (hfresh : coin.outPoint ∉ original.outPoints)
    (hnodup : original.outPoints.Nodup)
    (hknown : known.previousOutput = some coin.output ∧ known.isFinal) :
    Joins original coin change p where
  toExtends := hextends
  inputs := h.inputs_perm
  fresh := hfresh
  nodup := by
    obtain ⟨sequence, -, hperm⟩ := h.inputs_perm
    have houtPoints : p.tx.outPoints.Perm (original.outPoints ++ [coin.outPoint]) := by
      simpa [Transaction.outPoints, Function.comp_def] using hperm.map Prod.fst
    rw [(houtPoints.trans (List.perm_append_singleton _ _)).nodup_iff]
    exact List.nodup_cons.mpr ⟨hfresh, hnodup⟩
  complete := by
    obtain ⟨before, after, sequence, -, -, -, htx, hinputs⟩ := h.split
    simp [htx, hinputs]
  senders := by
    intro input k hpair hsender
    rcases h.mem_inputPairs hpair with ⟨-, hk⟩ | ⟨hcoin, -⟩
    · exact hk
    · exact absurd (hcoin ▸ hsender) hfresh
  receiver := by
    intro input k hpair hcoin
    rcases h.mem_inputPairs hpair with ⟨hsender, -⟩ | ⟨-, rfl⟩
    · exact absurd (hcoin ▸ hsender) hfresh
    · exact hknown

end Hosts

section Results

variable {settings : Settings} {log : Log}

theorem Making.hosts (m : Making settings log) :
    ∃ index known, Hosts m.accepted.psbt.tx.inputs m.coin index known
        (Submission.blankOpenInputs m.signed.psbt) ∧
      known.previousOutput = some m.coin.output ∧ known.isFinal := by
  obtain ⟨words, ⟨words', hcontribute⟩, hpreserve⟩ := m.drafts.prices
  obtain ⟨htx, hinputs, hcontributed⟩ := Draft.preserveFeeRate_eq_ok hpreserve
  obtain ⟨index, hdrafted, hcoin⟩ := Draft.contribute_hosts
    (Fallback.length_inputs_of_check m.accepts.sound.check) hcontribute
  obtain ⟨known, hsigned, hknown, hfinal⟩ := Signing.sign_hosts (hcontributed.trans hcoin)
    (hdrafted.congr htx hinputs) m.signs
  exact ⟨index, known, Submission.blankOpenInputs_hosts hsigned hfinal, hknown, hfinal⟩

theorem Making.scripts (m : Making settings log) :
    Extends m.accepted.psbt.tx m.change (Submission.blankOpenInputs m.signed.psbt).tx := by
  obtain ⟨words, ⟨words', hcontribute⟩, hpreserve⟩ := m.drafts.prices
  obtain ⟨-, hlabelled, -⟩ := Draft.contribute_shares hcontribute
  change Extends m.accepted.psbt.tx m.change m.signed.psbt.tx
  rw [(Signing.sign_eq_ok m.signs).1]
  exact Draft.preserveFeeRate_extends hlabelled.length hpreserve
    (Draft.contribute_extends hcontribute)

theorem Making.joins (m : Making settings log) :
    Joins m.request.unsigned m.coin m.change (Submission.blankOpenInputs m.signed.psbt) := by
  obtain ⟨index, known, hhosts, hknown⟩ := m.hosts
  have hcheck := m.accepts.sound.check
  have hfresh : m.coin.outPoint ∉ m.accepted.psbt.tx.outPoints := by
    rw [← outPoints_extract (Fallback.length_inputs_of_check hcheck), ← m.accepts.sound.fallback]
    exact m.drafts.picks.fresh
  rw [← m.accepts.unsigned]
  exact hhosts.joins m.scripts hfresh (Fallback.nodup_of_check hcheck) hknown

/-- Every proposal that is handed out has what the request has, and a coin that the
wallet listed. -/
theorem proposal_joins_original {proposal : Proposal}
    (h : Course settings (.ended (.ok proposal)) log) :
    ∃ request a t coin change returned, log.BeginsWith settings request ∧
      log.Picks a t coin ∧
      (∀ script : Script, change = some script →
        log.Answered (.splitting a t coin) (.ok script)) ∧
      proposal.body = request.format.encode returned ∧
      proposal.txid = returned.extract.txid ∧
      Joins request.unsigned coin change returned := by
  obtain ⟨m, rfl⟩ := Making.exists_of_ended h
  refine ⟨m.request, m.accepted, m.target, m.coin, m.change,
    Submission.blankOpenInputs m.signed.psbt, m.accepts.begins, m.drafts.picks, m.drafts.changes,
    ?_, ?_, m.joins⟩
  · rw [← m.accepts.format]
    rfl
  · rw [Submission.extract_blankOpenInputs]
    rfl

theorem Attains.Sample.proposed_joins_original : ∃ (log : Log) (m : Making Sample.settings log),
    log.BeginsWith Sample.settings request ∧
    Course Sample.settings (.ended (.ok m.proposal)) log ∧
    ∃ r a t coin change returned, log.BeginsWith Sample.settings r ∧ log.Picks a t coin ∧
      m.proposal.body = r.format.encode returned ∧ Joins r.unsigned coin change returned := by
  obtain ⟨log, m, hbegins, hcourse, -, -⟩ := proposed
  obtain ⟨r, a, t, coin, change, returned, hr, hpicks, -, hbody, -, hjoins⟩ :=
    proposal_joins_original hcourse
  exact ⟨log, m, hbegins, hcourse, r, a, t, coin, change, returned, hr, hpicks, hbody, hjoins⟩

end Results

end Payjoin

end Paydesk

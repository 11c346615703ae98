import Mathlib.Algebra.Order.BigOperators.Group.List
import Mathlib.Algebra.Order.Group.Nat
import Paydesk.Proofs.Chain.Weight
import Paydesk.Proofs.Payjoin.Joined

/-!
The identifier that a proposal is given, against that of the transaction which the sender
makes of it by putting its own signatures back.
-/

namespace Paydesk

namespace Chain

theorem length_encodeBlob_nil_lt {bs : Bytes} (h : bs ≠ []) :
    (encodeBlob []).length < (encodeBlob bs).length := by
  have hpos := countSize_pos bs.length
  have hlength := List.length_pos_iff.mpr h
  have hnil : (encodeBlob []).length = 1 := rfl
  rw [hnil, length_encodeBlob, length_encodeCount]
  omega

namespace TxIn

/-- The input with the signatures that an original has for what it spends. -/
def completed (original : Transaction) (i : TxIn) : TxIn :=
  match original.inputs.find? (·.previous == i.previous) with
  | some signed => { i with signatureScript := signed.signatureScript, witness := signed.witness }
  | none => i

variable {original : Transaction} {i signed : TxIn}

theorem completed_of_notMem (h : i.previous ∉ original.outPoints) : i.completed original = i := by
  have hnone : original.inputs.find? (·.previous == i.previous) = none := by
    refine List.find?_eq_none.mpr fun signed hsigned hprevious => ?_
    exact h (List.mem_map.mpr ⟨signed, hsigned, beq_iff_eq.mp hprevious⟩)
  rw [completed, hnone]

theorem completed_of_mem (hnodup : original.outPoints.Nodup) (hsigned : signed ∈ original.inputs)
    (hprevious : signed.previous = i.previous) : i.completed original =
      { i with signatureScript := signed.signatureScript, witness := signed.witness } := by
  cases hfind : original.inputs.find? (·.previous == i.previous) with
  | none =>
      have hne := List.find?_eq_none.mp hfind signed hsigned
      exact absurd (beq_iff_eq.mpr hprevious) hne
  | some found =>
      have hfound : found.previous = i.previous := by simpa using List.find?_some hfind
      obtain rfl := List.inj_on_of_nodup_map hnodup (List.mem_of_find?_eq_some hfind) hsigned
        (hfound.trans hprevious.symm)
      rw [completed, hfind]

end TxIn

namespace Transaction

/-- The transaction with the signatures of an original put back. -/
def completed (tx original : Transaction) : Transaction :=
  { tx with inputs := tx.inputs.map (TxIn.completed original) }

/-- That a transaction has the inputs of an original, but none of the scripts that sign
them. -/
structure SignsFor (original tx : Transaction) : Prop where
  nodup : original.outPoints.Nodup
  spent : original.outPoints ⊆ tx.outPoints
  blank : ∀ i ∈ tx.inputs, i.previous ∈ original.outPoints → i.signatureScript = []

namespace SignsFor

variable {original tx : Transaction} {i : TxIn}

theorem encode_completed (h : original.SignsFor tx)
    (hblank : ∀ signed ∈ original.inputs, signed.signatureScript = []) (hi : i ∈ tx.inputs) :
    (i.completed original).encode = i.encode := by
  by_cases hmem : i.previous ∈ original.outPoints
  · obtain ⟨signed, hsigned, hprevious⟩ := List.mem_map.mp hmem
    rw [TxIn.completed_of_mem h.nodup hsigned hprevious, TxIn.encode, TxIn.encode,
      hblank signed hsigned, h.blank i hi hmem]
  · rw [TxIn.completed_of_notMem hmem]

theorem length_encode_lt {signed : TxIn} (h : original.SignsFor tx) (hi : i ∈ tx.inputs)
    (hsigned : signed ∈ original.inputs) (hprevious : signed.previous = i.previous)
    (hscript : signed.signatureScript ≠ []) :
    i.encode.length < (i.completed original).encode.length := by
  have hmem : i.previous ∈ original.outPoints := List.mem_map.mpr ⟨signed, hsigned, hprevious⟩
  have hgrows := length_encodeBlob_nil_lt hscript
  rw [TxIn.completed_of_mem h.nodup hsigned hprevious]
  simp only [TxIn.encode, List.length_append, h.blank i hi hmem]
  omega

theorem length_encode_le (h : original.SignsFor tx) (hi : i ∈ tx.inputs) :
    i.encode.length ≤ (i.completed original).encode.length := by
  by_cases hmem : i.previous ∈ original.outPoints
  · obtain ⟨signed, hsigned, hprevious⟩ := List.mem_map.mp hmem
    by_cases hscript : signed.signatureScript = []
    · rw [TxIn.completed_of_mem h.nodup hsigned hprevious]
      simp only [TxIn.encode, List.length_append, h.blank i hi hmem, hscript, Nat.le_refl]
    · exact (h.length_encode_lt hi hsigned hprevious hscript).le
  · rw [TxIn.completed_of_notMem hmem]

/-- What is hashed for an identifier changes if and only if some signature stands in a
script. -/
theorem encodeBase_completed (h : original.SignsFor tx) :
    (tx.completed original).encodeBase = tx.encodeBase ↔
      ∀ signed ∈ original.inputs, signed.signatureScript = [] := by
  constructor
  · intro hequal signed hsigned
    by_contra hscript
    -- No input gets shorter, so that a single script makes the whole longer.
    obtain ⟨i, hi, hprevious⟩ := List.mem_map.mp (h.spent (List.mem_map_of_mem hsigned))
    have hlt : (tx.inputs.map fun i => i.encode.length).sum <
        (tx.inputs.map fun i => (i.completed original).encode.length).sum :=
      List.sum_lt_sum _ _ (fun i hi => h.length_encode_le hi)
        ⟨i, hi, h.length_encode_lt hi hsigned hprevious.symm hscript⟩
    have hlength := congrArg List.length hequal
    simp only [encodeBase, completed, encodeList, List.length_append, List.length_flatMap,
      List.length_map, List.map_map, Function.comp_def] at hlength
    omega
  · intro hblank
    have hinputs : (tx.inputs.map (TxIn.completed original)).flatMap TxIn.encode =
        tx.inputs.flatMap TxIn.encode := by
      rw [List.flatMap_map]
      exact List.flatMap_congr fun i hi => h.encode_completed hblank hi
    simp only [encodeBase, completed, encodeList, List.length_map, hinputs]

end SignsFor

end Transaction

end Chain

namespace Payjoin

open Chain Invoices Wallet

theorem isFinal_of_check {p : Psbt} {type : ScriptType} (h : Fallback.check p = .ok type) :
    p.isFinal :=
  (Fallback.check_eq_ok_iff.mp h).2.2.2.2.2.2

theorem getD_if_isEmpty {α : Type} (items : List α) :
    (if items.isEmpty then none else some items).getD [] = items := by
  cases items <;> rfl

/-- A transaction is what it is as signing data, if the outputs that it spends are known. -/
theorem extract_psbtOf {tx : Transaction} {previous : List (Option TxOut)}
    (h : (Submission.psbtOf tx previous).isFinal) :
    (Submission.psbtOf tx previous).extract = tx := by
  have hinputs : (Submission.psbtOf tx previous).extract.inputs = tx.inputs := by
    apply List.ext_getElem
    · simp [Psbt.extract, Psbt.inputPairs, Submission.psbtOf, Psbt.ofTransaction]
    · intro i hi hlt
      have hknown := List.all_eq_true.mp h _ (List.getElem_mem (n := i)
        (by simpa [Submission.psbtOf] using hlt))
      simp only [Submission.psbtOf, List.getElem_mapIdx] at hknown
      simp only [Psbt.extract, Psbt.inputPairs, Submission.psbtOf, Psbt.ofTransaction,
        List.getElem_map, List.getElem_zip, List.getElem_mapIdx, TxIn.bare]
      cases hprevious : previous[i]? with
      | none =>
          rw [hprevious] at hknown
          cases hknown
      | some output => simp only [getD_if_isEmpty]
  exact congrArg (fun inputs => { tx with inputs }) hinputs

/-- The transaction of a request as the sender signed it. -/
def Request.signed (request : Request) : Transaction :=
  match request.payload with
  | .psbt p => p.extract
  | .transaction tx => tx

section Results

variable {settings : Settings} {log : Log}

theorem Log.Accepts.fallback_eq_signed {request : Request} {a : Accepted}
    (h : log.Accepts settings request a) : a.fallback = request.signed := by
  rw [h.sound.fallback]
  rcases h.payload with hpayload | ⟨tx, previous, hpayload, -, hpsbt⟩
  · rw [Request.signed, hpayload]
  · have hfinal := isFinal_of_check h.sound.check
    rw [hpsbt] at hfinal
    rw [Request.signed, hpayload, hpsbt]
    exact extract_psbtOf hfinal

theorem Making.outPoints_signed (m : Making settings log) :
    m.request.signed.outPoints = m.request.unsigned.outPoints := by
  rw [← m.accepts.fallback_eq_signed, m.accepts.sound.fallback,
    outPoints_extract (Fallback.length_inputs_of_check m.accepts.sound.check), m.accepts.unsigned]

/-- A proposal has all inputs of the original, but none of the scripts that sign them. -/
theorem Making.signsFor (m : Making settings log) :
    m.request.signed.SignsFor (Submission.blankOpenInputs m.signed.psbt).extract where
  nodup := by
    rw [m.outPoints_signed, ← m.accepts.unsigned]
    exact Fallback.nodup_of_check m.accepts.sound.check
  spent := by
    obtain ⟨sequence, -, hperm⟩ := m.joins.inputs
    have houtPoints : (Submission.blankOpenInputs m.signed.psbt).tx.outPoints.Perm
        (m.request.unsigned.outPoints ++ [m.coin.outPoint]) := by
      simpa [Transaction.outPoints, Function.comp_def] using hperm.map Prod.fst
    rw [m.outPoints_signed, outPoints_extract m.joins.complete]
    exact fun o ho => houtPoints.symm.subset (List.mem_append_left _ ho)
  blank := by
    intro i hi hprevious
    obtain ⟨⟨input, known⟩, hpair, rfl⟩ := List.mem_map.mp hi
    rw [m.outPoints_signed] at hprevious
    rw [m.joins.senders input known hpair hprevious]
    rfl

/-- A proposal is known by the hash of what the sender gets. The sender broadcasts it with its
own signatures put back, and what is hashed is still the same if and only if none of them
stands in a script, as a part of those of nested inputs does. -/
theorem proposed_txid_stands_iff {proposal : Proposal}
    (h : Course settings (.ended (.ok proposal)) log) :
    ∃ (request : Request) (returned : Psbt) (invoice : String) (payment : Payment) (merge : Merge),
      log.BeginsWith settings request ∧ log.accepted? = some request.signed ∧
      proposal.body = request.format.encode returned ∧
      proposal.txid = Hash.doubleSha256 returned.extract.encodeBase ∧
      log.credits = [(invoice, payment)] ∧ payment.merge = some merge ∧
      merge.proposed = proposal.txid ∧
      ((returned.extract.completed request.signed).encodeBase = returned.extract.encodeBase ↔
        ∀ signed ∈ request.signed.inputs, signed.signatureScript = []) := by
  obtain ⟨m, receiverFee, rfl, haccepted, hcredits⟩ := Making.exists_credited h
  refine ⟨m.request, Submission.blankOpenInputs m.signed.psbt, m.target.invoice, _, _,
    m.accepts.begins, ?_, ?_, ?_, hcredits, rfl, rfl, m.signsFor.encodeBase_completed⟩
  · rw [haccepted, m.accepts.fallback_eq_signed]
  · rw [← m.accepts.format]
    rfl
  · rw [Submission.extract_blankOpenInputs]
    rfl

/-- A payment that is taken down ends a submission with the proposal. -/
theorem Course.pay {a : Accepted} {t : Target} {d : Draft} {payment : Payment} {held : Holdings}
    (h : Course settings (.waiting (.paying a t d payment) held) log) (desk : Desk) :
    ∃ move, Course settings (.ended (.ok (Submission.proposalOf a t d))) (log ++ [move]) ∧
      Log.accepted? (log ++ [move]) = some a.fallback := by
  have hmove := Course.move h (.answer 0 desk (.paying a t d payment) held (.ok (some payment)))
  simp only [Turn.answer, Submission.resume_paying] at hmove
  refine ⟨_, hmove, ?_⟩
  cases Log.stands h with
  | waiting sound holds =>
      rw [Log.accepted?_append, holds.accepted]
      rfl

end Results

/-!
The payment of the sample from a nested output, to a wallet of nested outputs.
-/

namespace Nested

open Draft.Sample (source deposit change)
open Traffic.Clash (account)
open Attains.Sample (settings desk)

def original : Transaction :=
  ⟨2, [⟨source, [0x16, 0x00, 0x14] ++ List.replicate 20 5, 0xfffffffd, [[1], [2]]⟩],
    [⟨5000, deposit⟩, ⟨800, change⟩], 0⟩

def spent : TxOut := ⟨6800, [0xa9, 0x14] ++ List.replicate 20 6 ++ [0x87]⟩

def request : Request := ⟨.transaction original, .rawTransaction, ⟨false, some (200, 1), some 0⟩⟩

def accepted : Accepted :=
  ⟨Submission.psbtOf original [some spent], original, .rawTransaction, request.params, .segwitP2sh,
    Draft.feeRateOf 1000 original.weight⟩

def target : Target := ⟨"order", 0, ⟨deposit, true, ⟨"shop", .segwitP2sh⟩, 4900, false⟩⟩

/-- Paid to the program of the key that is the base point itself. -/
def coin : Coin :=
  ⟨⟨List.replicate 32 9, 1⟩, ⟨3000, [0xa9, 0x14, 0xbc, 0xfe, 0xb7, 0x28, 0xb5, 0x84, 0x25, 0x3d, 0x5f,
    0x3f, 0x70, 0xbc, 0xb7, 0x80, 0xe9, 0xef, 0x21, 0x8a, 0x68, 0xf4, 0x87]⟩, []⟩

/-- A draft of the sample with nested inputs. -/
def nest (d : Draft) : Draft :=
  { d with
    psbt := { d.psbt with inputs := [offered coin, .empty] }
    contributed := [(0, coin)]
    inputWeights := [⟨24, 108⟩, ⟨24, 5⟩] }

def settled : Draft := nest Draft.Sample.settled

theorem script_account :
    ScriptType.segwitP2sh.script account.secret.publicKey = coin.output.script := by
  decide +kernel

theorem examine_eq_probing :
    Submission.examine (Submission.psbtOf original [some spent]) .rawTransaction request.params =
      .wait (.probing accepted) := by
  have hcheck : Fallback.check (Submission.psbtOf original [some spent]) = .ok .segwitP2sh := rfl
  have hfee : (Submission.psbtOf original [some spent]).fee? = some 1000 := rfl
  simp only [Submission.examine, hcheck, hfee]
  rfl

theorem drafted_eq_signing : Submission.drafted settings accepted target coin none [] =
    (.wait (.signing accepted target settled 100), []) := by
  have hcontribute : Draft.contribute accepted.psbt target.index [coin]
      target.method.account.scriptType none [] = .ok (nest Draft.Sample.drafted, []) := rfl
  have hpreserve : (nest Draft.Sample.drafted).preserveFeeRate accepted.rate
      (remainingDue target.method.due (Submission.paidValue accepted target)) accepted.params
        settings.relayRate = .ok (settled, ⟨100, 200, 1420⟩) := by
    decide +kernel
  simp only [Submission.drafted, hcontribute, hpreserve]

theorem choosing : Attains settings request
    (.waiting (.choosing accepted target []) ⟨[source], [], some original⟩) := by
  have harrives : Attains settings request (.waiting
      (.fetching original .rawTransaction request.params) .none) :=
    ⟨_, .arrive desk "BTC" (.ok request) false, desk, "BTC", [], rfl⟩
  have hexamined : (Submission.resume settings 0
      (.fetching original .rawTransaction request.params) (.ok [some spent])).run ⟨desk, .none⟩ =
        (.wait (.probing accepted), ⟨desk, .none⟩) := by
    rw [← examine_eq_probing]
    rfl
  have hprobes : Attains settings request (.waiting (.probing accepted) .none) :=
    harrives.answer 0 desk (.ok [some spent]) hexamined
  have hsearches : Attains settings request
      (.waiting (.searching accepted "BTC" 0 deposit) ⟨[], [], some original⟩) :=
    hprobes.answer 0 desk (.ok ⟨true, none⟩) rfl
  have hreads : Attains settings request
      (.waiting (.reading accepted "BTC" 0 "order" []) ⟨[], [], some original⟩) :=
    hsearches.answer 0 desk (.ok ["order"]) rfl
  exact hreads.answer 0 desk (.ok (some target.method)) rfl

theorem signing : Attains settings request (.waiting (.signing accepted target settled 100)
    ⟨[source], [coin.outPoint], some original⟩) := by
  have hpicked : Submission.picked? settings accepted target [] [coin] .empty =
      some (coin, ⟨[coin.outPoint], []⟩) :=
    Submission.picked?_singleton (by decide) List.not_mem_nil rfl
  have hrun : (Submission.resume settings 0 (.choosing accepted target []) (.ok [coin])).run
      ⟨desk, ⟨[source], [], some original⟩⟩ = (.wait (.signing accepted target settled 100),
        ⟨⟨⟨[coin.outPoint], []⟩, [], []⟩, ⟨[source], [coin.outPoint], some original⟩⟩) := by
    change (Submission.choose settings accepted target [] [coin]).run _ = _
    rw [Submission.choose_of_draft hpicked (by decide), Submission.draft_run]
    simp only [Submission.lockedCoin, desk, drafted_eq_signing]
    rfl
  exact choosing.answer 0 desk (.ok [coin]) hrun

theorem proposed : ∃ (proposal : Proposal) (log : Log),
    Course settings (.ended (.ok proposal)) log ∧ log.BeginsWith settings request ∧
      log.accepted? = some original := by
  have hcontrols : ∀ pair ∈ settled.contributed,
      Signing.Controls account .segwitP2sh pair.2 := by
    have hcontributed : settled.contributed = [(0, coin)] := rfl
    rw [hcontributed, List.forall_mem_singleton]
    exact ⟨account, rfl, script_account⟩
  obtain ⟨signed, hsign⟩ :=
    (Signing.exists_sign_iff (Signing.choiceLike accepted.psbt)).mpr hcontrols
  obtain ⟨p, -, rfl⟩ := Signing.sign_eq_foldlM hsign
  have htype : target.method.account.scriptType = .segwitP2sh := rfl
  have hrun : (Submission.resume settings 0 (.signing accepted target settled 100)
      (.ok (some account))).run ⟨desk, ⟨[source], [coin.outPoint], some original⟩⟩ =
        (.wait (.paying accepted target { settled with psbt := p }
          (Submission.paymentOf accepted target { settled with psbt := p } 100)),
            ⟨desk, ⟨[source], [coin.outPoint], some original⟩⟩) := by
    change (pure (Submission.signDraft accepted target settled 100 account) :
      StateM Session Step).run _ = _
    rw [Submission.signDraft, htype, hsign]
    rfl
  obtain ⟨log, hcourse, hbegins⟩ := signing.answer 0 desk (.ok (some account)) hrun
  obtain ⟨move, hends, haccepted⟩ := hcourse.pay desk
  exact ⟨_, _, hends, hbegins.append move, haccepted⟩

/-- The sender of a nested payment broadcasts something else than what the proposal is known
by. -/
theorem proposed_txid_falls : ∃ (proposal : Proposal) (log : Log) (returned : Psbt),
    Course settings (.ended (.ok proposal)) log ∧ log.BeginsWith settings request ∧
    log.accepted? = some original ∧
    proposal.txid = Hash.doubleSha256 returned.extract.encodeBase ∧
    (returned.extract.completed original).encodeBase ≠ returned.extract.encodeBase := by
  obtain ⟨proposal, log, hcourse, hbegins, haccepted⟩ := proposed
  obtain ⟨r, returned, invoice, payment, merge, -, hr, -, htxid, -, -, -, hstands⟩ :=
    proposed_txid_stands_iff hcourse
  have hsigned : r.signed = original := Option.some.inj (hr.symm.trans haccepted)
  rw [hsigned] at hstands
  refine ⟨proposal, log, returned, hcourse, hbegins, haccepted, htxid, ?_⟩
  intro hequal
  have hblank := hstands.mp hequal _ List.mem_cons_self
  cases hblank

end Nested

end Payjoin

end Paydesk

import Mathlib.Data.List.Forall2
import Paydesk.Proofs.Payjoin.Bodies
import Paydesk.Proofs.Payjoin.Identity

/-!
A fallback can be handed in as signing data, written in two ways, or as a transaction. What
comes of it is the same.
-/

namespace Paydesk.Payjoin

open Chain Wallet Invoices

/-- An accepted fallback, as if it had been handed in in some format. -/
def Accepted.inFormat (format : BodyFormat) (a : Accepted) : Accepted := { a with format }

def Phase.inFormat (format : BodyFormat) : Phase → Phase
  | .fetching tx _ params => .fetching tx format params
  | .probing a => .probing (a.inFormat format)
  | .searching a code index script => .searching (a.inFormat format) code index script
  | .reading a code index invoice others =>
      .reading (a.inFormat format) code index invoice others
  | .choosing a t exposed => .choosing (a.inFormat format) t exposed
  | .splitting a t coin => .splitting (a.inFormat format) t coin
  | .signing a t d receiverFee => .signing (a.inFormat format) t d receiverFee
  | .paying a t d payment => .paying (a.inFormat format) t d payment

/-- Two steps that differ in the format only, in which the proposal is written at last. -/
inductive Step.Alike (f g : BodyFormat) : Step → Step → Prop
  | wait (phase : Phase) : Alike f g (.wait (phase.inFormat f)) (.wait (phase.inFormat g))
  | failed (failure : Failure) : Alike f g (.failed failure) (.failed failure)
  | finished (returned : Psbt) (txid : Bytes) (invoice : String) (fallback : Transaction) :
      Alike f g (.finished ⟨f.encode returned, txid, invoice⟩ fallback)
        (.finished ⟨g.encode returned, txid, invoice⟩ fallback)
  | overflow : Alike f g .overflow .overflow

/-- Two ways to go on that do the same to a session, with steps that are alike. -/
def Agree (f g : BodyFormat) (x y : StateM Session Step) : Prop :=
  ∀ s, (y.run s).2 = (x.run s).2 ∧ Step.Alike f g (x.run s).1 (y.run s).1

namespace Agree

variable {f g : BodyFormat}

theorem pure {step step' : Step} (h : Step.Alike f g step step') :
    Agree f g (pure step) (pure step') := fun _ => ⟨rfl, h⟩

theorem failed (failure : Failure) : Agree f g (Pure.pure (.failed failure))
    (Pure.pure (.failed failure)) := .pure (.failed failure)

theorem wait (phase : Phase) : Agree f g (Pure.pure (.wait (phase.inFormat f)))
    (Pure.pure (.wait (phase.inFormat g))) := .pure (.wait phase)

theorem bind {α : Type} {m : StateM Session α} {k k' : α → StateM Session Step}
    (h : ∀ a, Agree f g (k a) (k' a)) : Agree f g (m >>= k) (m >>= k') :=
  fun s => h (m.run s).1 (m.run s).2

theorem ite {c : Prop} [Decidable c] {x x' y y' : StateM Session Step} (h : Agree f g x y)
    (h' : Agree f g x' y') : Agree f g (if c then x else x') (if c then y else y') := by
  split
  · exact h
  · exact h'

end Agree

namespace Submission

variable {f g : BodyFormat}

section Resumed

variable (settings : Settings) (a : Accepted) (t : Target)

theorem alike_search (index : Nat) : Step.Alike f g (search settings (a.inFormat f) index)
    (search settings (a.inFormat g) index) := by
  unfold search
  dsimp only [Accepted.inFormat]
  cases a.fallback.outputs[index]? with
  | none => exact .failed _
  | some output => exact .wait (.searching a settings.code index output.script)

theorem alike_searchAmong (index : Nat) (invoices : List String) :
    Step.Alike f g (searchAmong settings (a.inFormat f) index invoices)
      (searchAmong settings (a.inFormat g) index invoices) := by
  cases invoices with
  | nil => exact alike_search settings a (index + 1)
  | cons invoice others => exact .wait (.reading a settings.code index invoice others)

theorem agree_engage (paid : Nat) :
    Agree f g (engage (a.inFormat f) t paid) (engage (a.inFormat g) t paid) := by
  unfold engage
  refine .ite (.failed _) (.bind fun s => ?_)
  dsimp only [Accepted.inFormat]
  split
  · refine .bind fun _ => ?_
    split
    · exact .failed _
    · exact .wait (.choosing a t _)
  · exact .failed _

theorem agree_consider (index : Nat) (invoice : String) (others : List String)
    (method : PaymentMethod) :
    Agree f g (consider settings (a.inFormat f) index invoice others method)
      (consider settings (a.inFormat g) index invoice others method) := by
  unfold consider
  dsimp only [Accepted.inFormat]
  split
  · exact .pure (alike_searchAmong settings a index others)
  · exact .ite (.pure (alike_searchAmong settings a index others))
      (.ite (.failed _) (.ite (.failed _) (agree_engage a _ _)))

theorem alike_proposalFailure (e : ProposalError) :
    Step.Alike f g (proposalFailure e) (proposalFailure e) := by
  cases e with
  | overflow => exact .overflow
  | _ => exact .failed _

theorem agree_draft (coin : Coin) (change : Option Script) :
    Agree f g (draft settings (a.inFormat f) t coin change)
      (draft settings (a.inFormat g) t coin change) := by
  unfold draft
  refine .bind fun s => ?_
  dsimp only [Accepted.inFormat, paidValue]
  split
  · exact .pure (alike_proposalFailure _)
  · refine .bind fun _ => ?_
    split
    · exact .pure (alike_proposalFailure _)
    · exact .wait (.signing a t _ _)

theorem agree_choose (exposed : List OutPoint) (coins : List Coin) :
    Agree f g (choose settings (a.inFormat f) t exposed coins)
      (choose settings (a.inFormat g) t exposed coins) := by
  unfold choose
  refine .bind fun s => ?_
  dsimp only [Accepted.inFormat, paidValue]
  split
  · exact .failed _
  · exact .bind fun _ => .ite (.wait (.splitting a t _)) (agree_draft settings a t _ none)

theorem alike_signDraft (d : Draft) (receiverFee : Nat) (account : Keys.ExtendedKey) :
    Step.Alike f g (signDraft (a.inFormat f) t d receiverFee account)
      (signDraft (a.inFormat g) t d receiverFee account) := by
  unfold signDraft
  dsimp only [Accepted.inFormat]
  split
  · exact .failed _
  · exact .wait (.paying a t _ _)

theorem agree_conclude (d : Draft) (now : Nat) :
    Agree f g (conclude (a.inFormat f) t d now) (conclude (a.inFormat g) t d now) := by
  unfold conclude
  refine .bind fun s => .bind fun _ => ?_
  exact .pure (.finished (blankOpenInputs d.psbt) _ _ _)

theorem alike_examine (psbt : Psbt) (params : Params) :
    Step.Alike f g (examine psbt f params) (examine psbt g params) := by
  unfold examine
  split
  · exact .failed _
  · exact .failed _
  · exact .wait (.probing ⟨psbt, psbt.extract, f, params, _, _⟩)

/-- Whatever is answered, a submission goes on in the same way. -/
theorem agree_resume (now : Nat) (phase : Phase) (answers : (call : Call) → call.Outcome) :
    Agree f g (resume settings now (phase.inFormat f) (answers (phase.inFormat f).call))
      (resume settings now (phase.inFormat g) (answers (phase.inFormat g).call)) := by
  cases phase with
  | fetching tx format params =>
      dsimp only [Phase.inFormat, Phase.call]
      cases answers (.previousOutputs tx) with
      | error message => exact .failed _
      | ok previous => exact .pure (alike_examine _ params)
  | probing a =>
      dsimp only [Phase.inFormat, Phase.call, Accepted.inFormat]
      cases answers (.broadcast a.fallback true) with
      | error message => exact .failed _
      | ok result =>
          exact .ite (.bind fun _ => .pure (alike_search settings a 0)) (.failed _)
  | searching a code index script =>
      dsimp only [Phase.inFormat, Phase.call, Accepted.inFormat]
      cases answers (.findInvoices (trackingKey script code)) with
      | error message => exact .failed _
      | ok invoices => exact .pure (alike_searchAmong settings a index invoices)
  | reading a code index invoice others =>
      dsimp only [Phase.inFormat, Phase.call, Accepted.inFormat]
      rcases answers (.paymentMethod invoice code) with message | _ | method
      · exact .failed _
      · exact .pure (alike_searchAmong settings a index others)
      · exact agree_consider settings a index invoice others method
  | choosing a t exposed =>
      dsimp only [Phase.inFormat, Phase.call, Accepted.inFormat]
      cases answers (.listUnspent t.method.account) with
      | error message => exact .failed _
      | ok coins => exact agree_choose settings a t exposed coins
  | splitting a t coin =>
      dsimp only [Phase.inFormat, Phase.call, Accepted.inFormat]
      cases answers (.changeScript t.method.account) with
      | error message => exact .failed _
      | ok script => exact agree_draft settings a t coin (some script)
  | signing a t d receiverFee =>
      dsimp only [Phase.inFormat, Phase.call, Accepted.inFormat]
      rcases answers (.signingKey t.method.account) with message | _ | account
      · exact .failed _
      · exact .failed _
      · exact .pure (alike_signDraft a t d receiverFee account)
  | paying a t d payment =>
      dsimp only [Phase.inFormat, Phase.call, Accepted.inFormat]
      rcases answers (.addPayment t.invoice payment) with message | _ | recorded
      · exact .failed _
      · exact .failed _
      · exact agree_conclude a t d now

end Resumed

end Submission

/-- Two stages that differ in the format only. A proposal that was handed out is the same
one, written in either format. -/
inductive Stage.Alike (f g : BodyFormat) : Stage → Stage → Prop
  | waiting (phase : Phase) (holdings : Holdings) :
      Alike f g (.waiting (phase.inFormat f) holdings) (.waiting (phase.inFormat g) holdings)
  | closing (failure : Failure) (fallback : Transaction) :
      Alike f g (.closing failure fallback) (.closing failure fallback)
  | rejected (failure : Failure) : Alike f g (.ended (.error failure)) (.ended (.error failure))
  | proposed (returned : Psbt) (txid : Bytes) (invoice : String) :
      Alike f g (.ended (.ok ⟨f.encode returned, txid, invoice⟩))
        (.ended (.ok ⟨g.encode returned, txid, invoice⟩))
  | cutOff (holdings : Holdings) : Alike f g (.cutOff holdings) (.cutOff holdings)

/-- Two turns that leave the same desk and the same fallback for later. -/
structure Turn.Alike (f g : BodyFormat) (t t' : Turn) : Prop where
  stage : Stage.Alike f g t.stage t'.stage
  desk : t'.desk = t.desk
  later : t'.later = t.later

/-- What a submission finds when it goes on: the time, the desk as others have left it,
whether the sender still waits, and what its calls are answered. -/
structure Occasion where
  now : Nat
  desk : Desk
  gone : Bool
  answers : (call : Call) → call.Outcome

/-- What a submission does at a stage. Where it has ended, it does nothing any more. -/
def Stage.turn (settings : Settings) (o : Occasion) : Stage → Turn
  | .waiting phase holdings =>
      if o.gone then .cancel o.desk holdings
      else .answer settings o.now o.desk phase holdings (o.answers phase.call)
  | .closing failure _ => .close o.desk failure
  | stage => ⟨stage, o.desk, none⟩

/-- What a submission does on one occasion after another. -/
def Stage.turns (settings : Settings) : Stage → List Occasion → List Turn
  | _, [] => []
  | stage, o :: os => stage.turn settings o :: (stage.turn settings o).stage.turns settings os

section Turns

variable {f g : BodyFormat}

theorem Turn.Alike.fail (s : Session) (failure : Failure) :
    Turn.Alike f g (Turn.fail s failure) (Turn.fail s failure) := by
  refine ⟨?_, rfl, rfl⟩
  unfold Turn.fail Submission.release
  dsimp only
  cases s.holdings.fallback with
  | none => exact .rejected failure
  | some fallback => exact .closing failure fallback

theorem Turn.Alike.of {step step' : Step} (h : Step.Alike f g step step') (s : Session) :
    Turn.Alike f g (Turn.of s step) (Turn.of s step') := by
  cases h with
  | wait phase => exact ⟨.waiting phase _, rfl, rfl⟩
  | failed failure => exact .fail s failure
  | finished returned txid invoice fallback => exact ⟨.proposed returned txid invoice, rfl, rfl⟩
  | overflow => exact ⟨.cutOff _, rfl, rfl⟩

theorem Turn.answer_eq (settings : Settings) (now : Nat) (desk : Desk) (phase : Phase)
    (holdings : Holdings) (outcome : phase.call.Outcome) :
    Turn.answer settings now desk phase holdings outcome =
      .of ((Submission.resume settings now phase outcome).run ⟨desk, holdings⟩).2
        ((Submission.resume settings now phase outcome).run ⟨desk, holdings⟩).1 := rfl

theorem Stage.Alike.turn {stage stage' : Stage} (h : Stage.Alike f g stage stage')
    (settings : Settings) (o : Occasion) :
    Turn.Alike f g (stage.turn settings o) (stage'.turn settings o) := by
  cases h with
  | waiting phase holdings =>
      unfold Stage.turn
      dsimp only
      split
      · exact .fail _ _
      · have hagree : Agree f g _ _ := Submission.agree_resume settings o.now phase o.answers
        obtain ⟨hsession, hstep⟩ := hagree ⟨o.desk, holdings⟩
        rw [Turn.answer_eq, Turn.answer_eq, hsession]
        exact .of hstep _
  | closing failure fallback => exact ⟨.rejected failure, rfl, rfl⟩
  | rejected failure => exact ⟨.rejected failure, rfl, rfl⟩
  | proposed returned txid invoice => exact ⟨.proposed returned txid invoice, rfl, rfl⟩
  | cutOff holdings => exact ⟨.cutOff holdings, rfl, rfl⟩

/-- Stages that are alike stay so, for the same answers and the same desks. -/
theorem Stage.Alike.turns {stage stage' : Stage} (h : Stage.Alike f g stage stage')
    (settings : Settings) (os : List Occasion) :
    List.Forall₂ (Turn.Alike f g) (stage.turns settings os) (stage'.turns settings os) := by
  induction os generalizing stage stage' with
  | nil => exact .nil
  | cons o os ih =>
      have hturn := h.turn settings o
      exact .cons hturn (ih hturn.stage)

end Turns

section Openings

theorem if_isEmpty_getD {α : Type} {items : Option (List α)} (h : items ≠ some []) :
    (if (items.getD []).isEmpty then none else some (items.getD [])) = items := by
  rcases items with _ | _ | _
  · rfl
  · exact absurd rfl h
  · rfl

/-- Signing data is found again from what it stands for, if it is known which outputs are
spent. -/
theorem psbtOf_extract {p : Psbt} (h : p.Plain) :
    Submission.psbtOf p.extract (p.inputs.map PsbtInput.previousOutput) = p := by
  have hlength := Psbt.length_extract_inputs h.length_inputs
  have htx : p.extract.inputs.map TxIn.bare = p.tx.inputs := by
    apply List.ext_getElem
    · rw [List.length_map, hlength]
    · intro i _ hlt
      simp only [Psbt.extract, Psbt.inputPairs, List.getElem_map, List.getElem_zip]
      exact h.unsigned _ (List.getElem_mem hlt)
  have hinputs : (Submission.psbtOf p.extract (p.inputs.map PsbtInput.previousOutput)).inputs =
      p.inputs := by
    apply List.ext_getElem
    · simpa [Submission.psbtOf, h.length_inputs] using hlength
    · intro i _ hlt
      have hknown := h.inputs _ (List.getElem_mem hlt)
      simp only [Submission.psbtOf, Psbt.extract, Psbt.inputPairs, List.getElem_mapIdx,
        List.getElem?_map, List.getElem?_eq_getElem hlt, Option.map_some, List.getElem_map,
        List.getElem_zip, if_isEmpty_getD hknown.finalScript, if_isEmpty_getD hknown.finalWitness]
      exact hknown.eq.symm
  have hwhole : p = ⟨p.tx, [], p.inputs, p.tx.outputs.map fun _ => []⟩ := by
    rw [← h.outputs, ← h.globals]
  refine Eq.trans ?_ hwhole.symm
  exact congrArg₂ (fun inputs known => Psbt.mk { p.tx with inputs } [] known _) htx hinputs

/-- How a submission begins in some format, up to its first check. Signing data is examined
when it comes in. A transaction comes in at some desk, and is examined at the one that it
finds once the outputs that it spends were looked up. -/
def BodyFormat.opening (settings : Settings) (desk : Desk) (code : String) (p : Psbt)
    (params : Params) (lookup : Occasion) (format : BodyFormat) : Turn :=
  match format with
  | .rawTransaction =>
      (Turn.arrive settings desk code (.ok (format.request p params)) false).stage.turn
        settings lookup
  | _ => Turn.arrive settings lookup.desk code (.ok (format.request p params)) false

variable {settings : Settings} {desk : Desk} {code : String} {p : Psbt} {params : Params}
  {lookup : Occasion}

/-- Where nothing is held, a failure changes nothing. -/
theorem fail_holding_none (desk : Desk) (failure : Failure) :
    Turn.fail ⟨desk, .none⟩ failure = ⟨.ended (.error failure), desk, none⟩ := by
  simp [Turn.fail, Submission.release, Holdings.none, Locks.unlockInputs, Locks.unlockCoins]

theorem start_psbt (hfinal : p.isFinal) (format : BodyFormat) :
    Submission.start settings code ⟨.psbt p, format, params⟩ =
      if Text.lower code ≠ Text.lower settings.code then
        Submission.reject .invalidNetwork ("This endpoint only serves " ++ settings.code)
      else Submission.examine p format params := by
  rw [Submission.start]
  simp only [hfinal, if_true]

theorem BodyFormat.opening_eq (h : p.Plain) (hgone : lookup.gone = false)
    (hprevious : lookup.answers (.previousOutputs p.extract) =
      .ok (p.inputs.map PsbtInput.previousOutput)) (format : BodyFormat) :
    format.opening settings desk code p params lookup =
      .of ⟨lookup.desk, .none⟩
        (if Text.lower code ≠ Text.lower settings.code then
          Submission.reject .invalidNetwork ("This endpoint only serves " ++ settings.code)
        else Submission.examine p format params) := by
  cases format with
  | base64Psbt => exact congrArg (Turn.of ⟨lookup.desk, .none⟩) (start_psbt h.final .base64Psbt)
  | hexPsbt => exact congrArg (Turn.of ⟨lookup.desk, .none⟩) (start_psbt h.final .hexPsbt)
  | rawTransaction =>
      change Stage.turn settings lookup (Turn.of ⟨desk, .none⟩ (Submission.start settings code
        ⟨.transaction p.extract, .rawTransaction, params⟩)).stage = _
      unfold Submission.start
      by_cases hcode : Text.lower code ≠ Text.lower settings.code
      · rw [if_pos hcode, if_pos hcode]
        change Stage.turn settings lookup (Turn.fail ⟨desk, .none⟩ _).stage = Turn.fail _ _
        rw [fail_holding_none, fail_holding_none]
        rfl
      · rw [if_neg hcode, if_neg hcode]
        change Stage.turn settings lookup
          (.waiting (.fetching p.extract .rawTransaction params) .none) = _
        rw [Stage.turn, hgone, if_neg Bool.false_ne_true]
        change Turn.answer settings lookup.now lookup.desk
          (.fetching p.extract .rawTransaction params) .none
            (lookup.answers (.previousOutputs p.extract)) = _
        rw [hprevious]
        exact congrArg (fun psbt => Turn.of ⟨lookup.desk, .none⟩
          (Submission.examine psbt .rawTransaction params)) (psbtOf_extract h)

theorem Turn.Alike.opening (h : p.Plain) (hgone : lookup.gone = false)
    (hprevious : lookup.answers (.previousOutputs p.extract) =
      .ok (p.inputs.map PsbtInput.previousOutput)) (f g : BodyFormat) :
    Turn.Alike f g (f.opening settings desk code p params lookup)
      (g.opening settings desk code p params lookup) := by
  rw [BodyFormat.opening_eq h hgone hprevious f, BodyFormat.opening_eq h hgone hprevious g]
  refine .of ?_ _
  split
  · exact .failed _
  · exact Submission.alike_examine p params

end Openings

/-- Signing data that holds nothing but what makes it final is found again from the
transaction that it stands for. In whatever format it is handed in, it is read as such, and
what a submission does then, and how it ends, is the same up to the writing of the
proposal. -/
theorem formats_agree {p : Psbt} (h : p.Plain) :
    Submission.psbtOf p.extract (p.inputs.map PsbtInput.previousOutput) = p ∧
    (∀ (settings : Settings) (desk : Desk) (code : String) (params : Params) (lookup : Occasion),
      lookup.gone = false →
      lookup.answers (.previousOutputs p.extract) =
        .ok (p.inputs.map PsbtInput.previousOutput) →
      ∀ (f g : BodyFormat) (os : List Occasion),
        Turn.Alike f g (f.opening settings desk code p params lookup)
          (g.opening settings desk code p params lookup) ∧
        List.Forall₂ (Turn.Alike f g)
          ((f.opening settings desk code p params lookup).stage.turns settings os)
          ((g.opening settings desk code p params lookup).stage.turns settings os)) ∧
    (p.Fits → ∀ (format : BodyFormat) (headers : List (String × String)) (query : String),
      Announces headers (format.body p) →
      Request.read (format.body p) query headers =
        if Request.maxLength < (format.body p).length then .error (.tooLarge (format.body p).length)
        else ((Params.ofPairs (Text.Form.parse query)).mapError .params).map
          (format.request p ·)) := by
  refine ⟨psbtOf_extract h, fun settings desk code params lookup hgone hprevious f g os => ?_,
    fun hfits format headers query hheaders => Request.read_body h hfits format hheaders query⟩
  have hopening : Turn.Alike f g (f.opening settings desk code p params lookup)
      (g.opening settings desk code p params lookup) := .opening h hgone hprevious f g
  exact ⟨hopening, hopening.stage.turns settings os⟩

namespace Nested

open Attains.Sample (settings desk)

/-- The chain tells what is spent, and nothing else is asked. -/
def lookup : Occasion where
  now := 0
  desk := desk
  gone := false
  answers
    | .previousOutputs _ => .ok [some spent]
    | _ => .error "not asked"

/-- The headers of a body. -/
def headers (body : Bytes) : List (String × String) :=
  [("Content-Type", "text/plain"), ("Content-Length", toString body.length)]

theorem plain : accepted.psbt.Plain where
  inputs_ne := List.cons_ne_nil _ _
  unsigned := List.forall_mem_singleton.mpr rfl
  globals := rfl
  length_inputs := rfl
  inputs := List.forall_mem_singleton.mpr
    ⟨rfl, rfl, by simp, by simp, rfl⟩
  outputs := rfl
  final := rfl

theorem fits : accepted.psbt.Fits where
  tx :=
    { version := by decide
      inputCount := by decide
      inputs := List.forall_mem_singleton.mpr
        ⟨by decide, by decide, by decide, ⟨by decide, List.forall_mem_nil _⟩⟩
      outputCount := by decide
      outputs := by decide
      lockTime := by decide }
  length_encodeBase := by decide +kernel
  inputs := List.forall_mem_singleton.mpr
    { previousOutput := by
        rintro _ ⟨⟩
        decide
      finalScript := by
        rintro _ ⟨⟩
        decide
      finalWitness := by
        rintro _ ⟨⟩
        exact ⟨⟨by decide, by decide⟩, by decide⟩ }

/-- Handed in as a transaction or as signing data, the payment passes the same checks. The
body of the transaction is read as such. -/
theorem accepted_in_both_formats :
    Stage.Alike .rawTransaction .base64Psbt
      (BodyFormat.rawTransaction.opening settings desk "btc" accepted.psbt request.params
        lookup).stage
      (BodyFormat.base64Psbt.opening settings desk "btc" accepted.psbt request.params
        lookup).stage ∧
    (BodyFormat.rawTransaction.opening settings desk "btc" accepted.psbt request.params
      lookup).stage = .waiting (.probing accepted) .none ∧
    Request.read (BodyFormat.rawTransaction.body accepted.psbt) ""
        (headers (BodyFormat.rawTransaction.body accepted.psbt)) =
      .ok ⟨.transaction original, .rawTransaction, ⟨false, none, none⟩⟩ := by
  obtain ⟨-, hopenings, hreads⟩ := formats_agree plain
  have hlength := BodyFormat.length_body_rawTransaction accepted.psbt
  have hmax : 2 * accepted.psbt.extract.encode.length < Request.maxLength := by decide +kernel
  have hheaders : Announces (headers (BodyFormat.rawTransaction.body accepted.psbt))
      (BodyFormat.rawTransaction.body accepted.psbt) :=
    ⟨⟨"text/plain", rfl, by decide +kernel⟩, rfl, by
      rw [hlength]
      exact hmax.trans (by decide)⟩
  have hread := hreads fits .rawTransaction _ "" hheaders
  rw [if_neg (hlength ▸ Nat.lt_asymm hmax)] at hread
  refine ⟨(hopenings settings desk "btc" request.params lookup rfl rfl .rawTransaction .base64Psbt
    []).1.stage, ?_, hread⟩
  rw [BodyFormat.opening_eq plain rfl rfl, if_neg (by decide)]
  exact congrArg (fun step => (Turn.of ⟨desk, .none⟩ step).stage) examine_eq_probing

end Nested

end Paydesk.Payjoin

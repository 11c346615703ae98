import Paydesk.Proofs.Payjoin.Traffic

/-!
Payments that are taken down, and the proposals that they stand for.
-/

namespace Paydesk.Payjoin

open Chain Invoices

/-- A payment that is taken down for a proposal. It is of the output that pays the
invoice, and it names the coins that the returned transaction spends beside the
outputs that the original spends. -/
structure Credits (log : Log) (original : Transaction) (proposal : Proposal) (invoice : String)
    (payment : Payment) : Prop where
  credits : log.credits = [(invoice, payment)]
  accepted : log.accepted? = some original
  named : proposal.invoice = invoice
  output : ∃ t : Target, (∃ m ∈ log, m.found? = some t) ∧ t.invoice = invoice ∧
    payment.outPoint = ⟨original.txid, t.index⟩ ∧
    original.outputs[t.index]? = some payment.output ∧
    payment.output.script = t.method.depositScript
  confirmations : payment.confirmations = -1
  merge : ∃ (format : BodyFormat) (returned : Psbt) (value : Nat),
    proposal.body = format.encode returned ∧ returned.extract.txid = proposal.txid ∧
    payment.merge = some ⟨proposal.txid, value,
      returned.extract.outPoints.filter (!original.outPoints.contains ·)⟩

theorem Submission.extract_blankOpenInputs (p : Psbt) :
    (blankOpenInputs p).extract = p.extract := by
  rw [Psbt.extract, Psbt.extract, Transaction.mk.injEq]
  refine ⟨rfl, ?_, rfl, rfl⟩
  simp only [blankOpenInputs, Psbt.inputPairs, List.zip_map_right, List.map_map]
  apply List.map_congr_left
  rintro ⟨i, known⟩ -
  cases hscript : known.finalScript <;> cases hwitness : known.finalWitness <;>
    simp [PsbtInput.empty, hscript, hwitness]

namespace Log

variable {settings : Settings} {log : Log}

theorem credits_of_proposed {proposal : Proposal}
    (h : Course settings (.ended (.ok proposal)) log) :
    ∃ original invoice payment, Credits log original proposal invoice payment := by
  cases stands h with
  | @proposed a t d payment log m sound holds found calm concludes =>
      obtain ⟨⟨ha, ht⟩, ⟨coin, hmerges⟩, receiverFee, rfl⟩ := sound
      obtain ⟨output, houtput, hscript, -⟩ := ht.output
      obtain ⟨m', hm', hfound, -⟩ := found t rfl
      refine ⟨a.fallback, t.invoice, Submission.paymentOf a t d receiverFee, ?_, ?_, rfl,
        ⟨t, ⟨m', List.mem_append_left _ hm', hfound⟩, rfl, rfl, ?_, ?_⟩, rfl,
        a.format, Submission.blankOpenInputs d.psbt, Submission.paidValue a t - receiverFee, rfl,
        ?_, ?_⟩
      · rw [credits_append, holds.credits, concludes.credit?]
        rfl
      · rw [accepted?_append, holds.accepted, concludes.accepted?]
        rfl
      · simp [Submission.paymentOf, houtput]
      · simp [Submission.paymentOf, houtput, hscript]
      · rw [Submission.extract_blankOpenInputs]
        rfl
      · rw [Submission.extract_blankOpenInputs, hmerges.outPoints_extract, ← hmerges.contributed]
        rfl

/-- A submission that hands out no proposal takes no payment down. -/
theorem credits_eq_nil {stage : Stage} (h : Course settings stage log)
    (hstage : ∀ proposal, stage ≠ .ended (.ok proposal)) : log.credits = [] := by
  cases stands h with
  | waiting _ holds _ _ => exact holds.credits
  | closing holds _ _ modest _ =>
      rw [credits_append, holds.credits, modest.credit]
      rfl
  | failed _ credits _ => exact credits
  | proposed => exact absurd rfl (hstage _)
  | cutOff holds _ _ => exact holds.credits

/-- The proposals that were handed out. -/
def replies (log : Log) : List Proposal := log.filterMap (·.turn.stage.reply?)

theorem replies_eq {stage : Stage} (h : Course settings stage log) :
    log.replies = stage.reply?.toList := by
  induction h with
  | arrive desk code request gone =>
      cases hreply : (Turn.arrive settings desk code request gone).stage.reply? <;>
        simp [replies, hreply]
  | @move stage log m hcourse hmakes ih =>
      have hnone : stage.reply? = none := by cases hmakes <;> rfl
      rw [hnone] at ih
      cases hreply : m.turn.stage.reply? <;> simp_all [replies]

end Log

theorem Move.Acts.reply?_eq_none {settings : Settings} {held : Holdings} {m : Move}
    (h : m.Acts settings held) : m.turn.stage.reply? = none := by
  cases h with
  | waits next stage => rw [stage]; rfl
  | fails failure stage =>
      rw [stage]
      cases m.accepted?.or held.fallback <;> rfl
  | stops stage => rw [stage]; rfl

theorem Course.isSome_reply? {settings : Settings} {stage : Stage} {log : Log} {m : Move}
    (h : Course settings stage log) (hm : Makes settings stage m) :
    m.turn.stage.reply?.isSome = m.credit?.isSome := by
  rcases h.makes_cases hm with ⟨phase, -, hacts⟩ | ⟨a, t, d, payment, -, hconcludes⟩ |
    ⟨failure, fallback, -, hcredit, hturn⟩
  · rw [hacts.reply?_eq_none, hacts.modest.credit]
    rfl
  · rw [hconcludes.stage, hconcludes.credit?]
    rfl
  · rw [hturn, hcredit]
    rfl

namespace Traffic

/-- Where payments are kept. A payment is taken down exactly if none is there yet of
the same output, and nothing that is there is lost. Others may add payments, too. -/
structure Repository (outside : Outside) where
  payments : outside.World → List (String × Payment)
  stored : ∀ {w w' invoice payment recorded},
    outside.Answers w (.addPayment invoice payment) (.ok (some recorded)) w' →
      (∀ p ∈ payments w, p.2.outPoint ≠ payment.outPoint) ∧
        (payments w').Perm (payments w ++ [(invoice, payment)])
  refused : ∀ {w w' invoice payment outcome},
    outside.Answers w (.addPayment invoice payment) outcome w' →
      (∀ recorded, outcome ≠ .ok (some recorded)) → (payments w').Perm (payments w)
  kept : ∀ {w w' call outcome}, outside.Answers w call outcome w' →
    (∀ invoice payment, call ≠ .addPayment invoice payment) → (payments w').Perm (payments w)
  grown : ∀ {w w'}, outside.Changes w w' → ∃ new, (payments w').Perm (payments w ++ new)

/-- The payments in a ledger. -/
def Repository.ofLedger : Repository .ofLedger where
  payments l := l.1.allPayments
  stored := by
    rintro l l' invoice payment recorded ⟨rfl, hpay⟩
    exact Ledger.pay?_eq_some l.2 hpay
  refused := by
    rintro l l' invoice payment (message | _ | recorded) h hrefused
    · obtain rfl : l' = l := h
      exact .refl _
    · obtain rfl : l' = l := h.2
      exact .refl _
    · exact absurd rfl (hrefused recorded)
  kept := by
    intro l l' call outcome h hcall
    have hsame : l' = l := by
      cases call with
      | addPayment invoice payment => exact absurd rfl (hcall invoice payment)
      | paymentMethod invoice code =>
          cases outcome with
          | error message => exact h
          | ok method => exact h.2
      | _ => exact h
    rw [hsame]
  grown := by
    rintro l l' ⟨invoice, method, h⟩
    refine ⟨[], ?_⟩
    rw [h, List.append_nil]
    exact .refl _

namespace State

variable {World : Type}

/-- The payments that submissions took down, with the numbers of the submissions. -/
def credits (s : State World) : List (Nat × String × Payment) :=
  s.history.filterMap fun e => e.2.credit?.map (e.1, ·)

/-- The proposals that submissions handed out, with the numbers of the submissions. -/
def replies (s : State World) : List (Nat × Proposal) :=
  s.history.filterMap fun e => e.2.turn.stage.reply?.map (e.1, ·)

theorem mem_credits {s : State World} {number : Nat} {credit : String × Payment} :
    (number, credit) ∈ s.credits ↔ credit ∈ (s.log number).credits := by
  simp [credits, Log.credits, log]

theorem mem_replies {s : State World} {number : Nat} {proposal : Proposal} :
    (number, proposal) ∈ s.replies ↔ proposal ∈ (s.log number).replies := by
  simp [replies, Log.replies, log]

theorem credits_arrive (s : State World) (m : Move) :
    (s.arrive m).credits = s.credits ++ (m.credit?.map (s.stages.length, ·)).toList := by
  cases h : m.credit? <;> simp [credits, arrive, h]

theorem credits_move (s : State World) (number : Nat) (m : Move) (world : World) :
    (s.move number m world).credits = s.credits ++ (m.credit?.map (number, ·)).toList := by
  cases h : m.credit? <;> simp [credits, move, h]

end State

variable {settings : Settings} {outside : Outside} {world : outside.World}
  {s : State outside.World}

theorem Reachable.mem_replies_iff (h : Reachable settings outside world s) {number : Nat}
    {proposal : Proposal} :
    (number, proposal) ∈ s.replies ↔ s.stages[number]? = some (.ended (.ok proposal)) := by
  rw [State.mem_replies]
  cases hstage : s.stages[number]? with
  | none =>
      have hlength := List.getElem?_eq_none_iff.mp hstage
      rw [State.log_eq_nil fun e he => (h.number_lt e he).trans_le hlength]
      simp [Log.replies]
  | some stage =>
      rw [Log.replies_eq (h.course hstage)]
      rcases stage with _ | _ | (_ | _) | _ <;> simp [Stage.reply?, eq_comm]

theorem Reachable.isSome_reply? (h : Reachable settings outside world s) :
    ∀ e ∈ s.history, e.2.turn.stage.reply?.isSome = e.2.credit?.isSome := by
  apply h.forall_history (P := fun m => m.turn.stage.reply?.isSome = m.credit?.isSome)
  · intro desk code request gone
    have hacts := Move.acts_of_arrive settings desk code request gone
    rw [hacts.reply?_eq_none]
    rfl
  · intro stage log m hcourse hmakes
    exact hcourse.isSome_reply? hmakes

theorem Reachable.map_fst_replies (h : Reachable settings outside world s) :
    s.replies.map Prod.fst = s.credits.map Prod.fst := by
  rw [State.replies, State.credits, List.map_filterMap, List.map_filterMap]
  apply List.filterMap_congr
  intro e he
  have hsome := h.isSome_reply? e he
  cases hreply : e.2.turn.stage.reply? <;> cases hcredit : e.2.credit? <;>
    simp_all

theorem Reachable.nodup_credits (h : Reachable settings outside world s) :
    (s.credits.map Prod.fst).Nodup := by
  induction h with
  | start => simp [State.start, State.credits]
  | @next s s' hs hnext ih =>
      cases hnext with
      | arrive code request gone =>
          rw [State.credits_arrive]
          simpa [Move.credit?] using ih
      | @move number stage m world' hstage hmakes hdesk hworld =>
          rw [State.credits_move]
          cases hcredit : m.credit? with
          | none => simpa using ih
          | some credit =>
              have hnew : number ∉ s.credits.map Prod.fst := by
                rw [← hs.map_fst_replies]
                intro hmem
                obtain ⟨⟨number', proposal⟩, hreply, rfl⟩ := List.mem_map.mp hmem
                have hended := hs.mem_replies_iff.mp hreply
                rw [hstage] at hended
                obtain rfl := Option.some.inj hended
                cases hmakes
              simp only [Option.map_some, Option.toList_some, List.map_append, List.map_cons,
                List.map_nil]
              exact List.nodup_append.mpr ⟨ih, List.nodup_singleton _, by
                rintro a ha b hb rfl
                exact hnew (List.mem_singleton.mp hb ▸ ha)⟩
      | _ => exact ih

namespace Repository

theorem passes (repository : Repository outside) {m : Move} {w w' : outside.World}
    (h : Passes outside m.cause w w') :
    (m.credit? = none → (repository.payments w').Perm (repository.payments w)) ∧
      ∀ credit, m.credit? = some credit →
        (∀ p ∈ repository.payments w, p.2.outPoint ≠ credit.2.outPoint) ∧
          (repository.payments w').Perm (repository.payments w ++ [credit]) := by
  obtain ⟨cause, before, turn⟩ := m
  cases cause with
  | answer phase outcome =>
      cases phase with
      | paying a t d payment =>
          rcases outcome with message | _ | recorded
          · exact ⟨fun _ => repository.refused h (by rintro _ ⟨⟩), by simp [Move.credit?]⟩
          · exact ⟨fun _ => repository.refused h (by rintro _ ⟨⟩), by simp [Move.credit?]⟩
          · refine ⟨by simp [Move.credit?], ?_⟩
            rintro credit hcredit
            obtain rfl := Option.some.inj hcredit
            exact repository.stored h
      | _ => exact ⟨fun _ => repository.kept h (by simp [Phase.call]), by simp [Move.credit?]⟩
  | relay fallback outcome => exact ⟨fun _ => repository.kept h (by simp), by simp [Move.credit?]⟩
  | _ =>
      obtain rfl : w' = w := h
      exact ⟨fun _ => .refl _, by simp [Move.credit?]⟩

/-- Every payment that a submission took down is kept, and no output was counted
before. -/
theorem stored_credits (repository : Repository outside) (h : Reachable settings outside world s) :
    (∃ others, (repository.payments s.world).Perm
      (repository.payments world ++ others ++ s.credits.map Prod.snd)) ∧
    (s.credits.map (·.2.2.outPoint)).Nodup ∧
    ∀ c ∈ s.credits, ∀ p ∈ repository.payments world, p.2.outPoint ≠ c.2.2.outPoint := by
  induction h with
  | start => exact ⟨⟨[], by simp [State.start, State.credits]⟩, by simp [State.start, State.credits],
      by simp [State.start, State.credits]⟩
  | @next s s' hs hnext ih =>
      obtain ⟨⟨others, hperm⟩, hnodup, hnew⟩ := ih
      cases hnext with
      | arrive code request gone =>
          have hcredits : (s.arrive ⟨.arrival, s.desk,
              .arrive settings s.desk code request gone⟩).credits = s.credits := by
            rw [State.credits_arrive]
            simp [Move.credit?]
          rw [hcredits]
          exact ⟨⟨others, hperm⟩, hnodup, hnew⟩
      | @move number stage m world' hstage hmakes hdesk hworld =>
          obtain ⟨hkept, hstored⟩ := repository.passes hworld
          rw [State.credits_move]
          cases hcredit : m.credit? with
          | none =>
              simp only [Option.map_none, Option.toList_none, List.append_nil]
              exact ⟨⟨others, (hkept hcredit).trans hperm⟩, hnodup, hnew⟩
          | some credit =>
              obtain ⟨hfree, hadded⟩ := hstored credit hcredit
              have hmem : ∀ p ∈ repository.payments world ++ others ++ s.credits.map Prod.snd,
                  p.2.outPoint ≠ credit.2.outPoint :=
                fun p hp => hfree p (hperm.symm.subset hp)
              simp only [Option.map_some, Option.toList_some, List.map_append, List.map_cons,
                List.map_nil]
              refine ⟨⟨others, ?_⟩, ?_, ?_⟩
              · rw [← List.append_assoc]
                exact hadded.trans (hperm.append_right _)
              · refine List.nodup_append.mpr ⟨hnodup, List.nodup_singleton _, ?_⟩
                rintro o ho o' ho' rfl
                obtain ⟨c, hc, rfl⟩ := List.mem_map.mp ho
                exact hmem c.2 (List.mem_append_right _ (List.mem_map_of_mem hc))
                  (List.mem_singleton.mp ho')
              · intro c hc p hp
                rcases List.mem_append.mp hc with hc | hc
                · exact hnew c hc p hp
                · rw [List.mem_singleton.mp hc]
                  exact hmem p (List.mem_append_left _ (List.mem_append_left _ hp))
      | startSweep => exact ⟨⟨others, hperm⟩, hnodup, hnew⟩
      | @sweep timeout now before after phase outcome world' hsweep hworld =>
          have hkept := repository.kept hworld (by cases phase <;> simp [Sweep.Phase.call])
          exact ⟨⟨others, hkept.trans hperm⟩, hnodup, hnew⟩
      | relay _ hworld =>
          exact ⟨⟨others, (repository.kept hworld (by simp)).trans hperm⟩, hnodup, hnew⟩
      | change hworld =>
          obtain ⟨new, hgrown⟩ := repository.grown hworld
          refine ⟨⟨others ++ new, ?_⟩, hnodup, hnew⟩
          refine hgrown.trans ((hperm.append_right new).trans ?_)
          simp only [List.append_assoc]
          exact (List.perm_append_comm.append_left _).append_left _
      | words => exact ⟨⟨others, hperm⟩, hnodup, hnew⟩

end Repository

theorem Clash.credits_handedOut (signed : Draft) : (handedOut signed).credits =
    [(1, "order", Submission.paymentOf Draft.Sample.accepted Draft.Sample.target signed 100)] := by
  have hnone : endorsed.credits = [] := rfl
  rw [handedOut, State.credits_move, hnone]
  rfl

/-- The submissions that replied with a proposal are those that took a payment
down, each of them once and for what it replied. What they took down is kept, and
no output is counted twice. -/
theorem payments_match_proposals (repository : Repository outside)
    (h : Reachable settings outside world s) :
    ((∀ number proposal, (number, proposal) ∈ s.replies ↔
        s.stages[number]? = some (.ended (.ok proposal))) ∧
      s.replies.map Prod.fst = s.credits.map Prod.fst ∧ (s.credits.map Prod.fst).Nodup) ∧
    (∀ number proposal, s.stages[number]? = some (.ended (.ok proposal)) →
      ∃ original invoice payment, Credits (s.log number) original proposal invoice payment ∧
        (number, invoice, payment) ∈ s.credits) ∧
    (∀ number stage, s.stages[number]? = some stage →
      (∀ proposal, stage ≠ .ended (.ok proposal)) → ∀ credit, (number, credit) ∉ s.credits) ∧
    (∃ others, (repository.payments s.world).Perm
      (repository.payments world ++ others ++ s.credits.map Prod.snd)) ∧
    (s.credits.map (·.2.2.outPoint)).Nodup ∧
    ∀ c ∈ s.credits, ∀ p ∈ repository.payments world, p.2.outPoint ≠ c.2.2.outPoint := by
  refine ⟨⟨fun _ _ => h.mem_replies_iff, h.map_fst_replies, h.nodup_credits⟩, ?_, ?_,
    repository.stored_credits h⟩
  · intro number proposal hstage
    obtain ⟨original, invoice, payment, hcredits⟩ := Log.credits_of_proposed (h.course hstage)
    refine ⟨original, invoice, payment, hcredits, State.mem_credits.mpr ?_⟩
    rw [hcredits.credits]
    exact List.mem_singleton_self _
  · intro number stage hstage hnone credit hmem
    rw [State.mem_credits, Log.credits_eq_nil (h.course hstage) hnone] at hmem
    cases hmem

namespace Clash

open Draft.Sample (accepted coin original target)

/-- One proposal was handed out, and one payment was taken down for it: of the output that
pays the invoice, and with the coin. The submission that waits took none down. -/
theorem handedOut_credits_proposal : ∃ signed proposal payment, Signs signed ∧
    (1, proposal) ∈ (handedOut signed).replies ∧
    (handedOut signed).replies.map Prod.fst = [1] ∧
    Credits ((handedOut signed).log 1) original proposal "order" payment ∧
    payment.outPoint = ⟨original.txid, 0⟩ ∧ payment.confirmations = -1 ∧
    payment.merge = some ⟨proposal.txid, 4900, [coin.outPoint]⟩ ∧
    (∀ credit, (0, credit) ∉ (handedOut signed).credits) ∧
    ∃ others, (Repository.ofLedger.payments (handedOut signed).world).Perm
      (Repository.ofLedger.payments ledger ++ others ++ [("order", payment)]) := by
  obtain ⟨signed, hsigns⟩ := exists_signs
  have hended := handedOut_ends hsigns
  obtain ⟨⟨hreplies, hnumbers, -⟩, hproposed, hnone, hstored, -⟩ :=
    payments_match_proposals Repository.ofLedger (handedOut_reachable hsigns)
  obtain ⟨tx, invoice, payment, hcredits, hmem⟩ := hproposed 1 _ hended
  have haccepted : ((handedOut signed).log 1).accepted? = some original := rfl
  obtain rfl := Option.some.inj (hcredits.accepted.symm.trans haccepted)
  rw [credits_handedOut] at hmem hnumbers hstored
  obtain ⟨rfl, rfl⟩ : invoice = "order" ∧
      payment = Submission.paymentOf accepted target signed 100 := by simpa using hmem
  refine ⟨signed, _, _, hsigns, (hreplies 1 _).mpr hended, hnumbers, hcredits, rfl, rfl, ?_,
    hnone 0 _ (handedOut_waits hsigns) (by simp), hstored⟩
  rw [Submission.paymentOf, hsigns.contributed]
  rfl

end Clash

end Traffic

end Paydesk.Payjoin

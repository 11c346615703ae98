import Paydesk.Proofs.Payjoin.Credits

/-!
Several submissions that pay the same invoice. Whether an invoice has payments is
asked long before a payment of it is taken down.
-/

namespace Paydesk.Payjoin

open Chain Invoices

/-- An invoice is found not to have been paid. -/
def Move.Finds (invoice : String) (m : Move) : Prop :=
  ∃ t, m.found? = some t ∧ t.invoice = invoice ∧ t.method.hasPayments = false

/-- A payment of an invoice is taken down. -/
def Move.Pays (invoice : String) (m : Move) : Prop := ∃ payment, m.credit? = some (invoice, payment)

theorem Move.found?_eq_some {m : Move} {t : Target} (h : m.found? = some t) :
    ∃ a code others, m.cause =
      .answer (.reading a code t.index t.invoice others) (.ok (some t.method)) := by
  obtain ⟨cause, before, turn⟩ := m
  cases cause with
  | answer phase outcome =>
      cases phase with
      | reading a code index invoice others =>
          rcases outcome with message | _ | method
          · cases h
          · cases h
          · obtain rfl := Option.some.inj h
            exact ⟨a, code, others, rfl⟩
      | _ => rcases outcome with _ | _ <;> cases h
  | _ => cases h

theorem sublist_of_mem_of_ne {α : Type} {a b : α} {l : List α} (ha : a ∈ l) (hb : b ∈ l)
    (hne : a ≠ b) : [a, b].Sublist l ∨ [b, a].Sublist l := by
  obtain ⟨before, after, rfl⟩ := List.append_of_mem ha
  rcases List.mem_append.mp hb with hb | hb
  · right
    exact (List.singleton_sublist.mpr hb).append (List.singleton_sublist.mpr List.mem_cons_self)
  · left
    have hafter := (List.mem_cons.mp hb).resolve_left hne.symm
    exact ((List.singleton_sublist.mpr hafter).cons_cons a).trans (List.sublist_append_right _ _)

namespace Traffic

variable {settings : Settings} {outside : Outside} {world : outside.World}
  {s : State outside.World}

/-- A repository tells of an invoice that it has payments, if it has. -/
def Repository.Tells (repository : Repository outside) : Prop :=
  ∀ {w w' invoice code method}, outside.Answers w (.paymentMethod invoice code) (.ok (some method)) w' →
    method.hasPayments = false → ∀ p ∈ repository.payments w, p.1 ≠ invoice

theorem Repository.ofLedger_tells : Repository.ofLedger.Tells := by
  rintro l l' invoice code method ⟨hmethod, -⟩ hunpaid
  exact Ledger.method?_hasPayments l.2 hmethod.symm hunpaid

/-- Somebody finds that an invoice has not been paid, somebody else pays it, and
then the first one does. -/
def State.Races {World : Type} (s : State World) (invoice : String) : Prop :=
  ∃ e₁ e₂ e₃ : Nat × Move, [e₁, e₂, e₃].Sublist s.history ∧ e₁.1 = e₃.1 ∧ e₁.1 ≠ e₂.1 ∧
    e₁.2.Finds invoice ∧ e₂.2.Pays invoice ∧ e₃.2.Pays invoice

/-- The payments of an invoice that submissions took down. -/
def State.creditsOf {World : Type} (s : State World) (invoice : String) :
    List (Nat × String × Payment) :=
  s.credits.filter (·.2.1 == invoice)

theorem State.mem_credits_of_pays {World : Type} {s : State World} {e : Nat × Move}
    {invoice : String} (he : e ∈ s.history) (hpays : e.2.Pays invoice) :
    ∃ payment, (e.1, invoice, payment) ∈ s.credits := by
  obtain ⟨payment, hcredit⟩ := hpays
  exact ⟨payment, List.mem_filterMap.mpr ⟨e, he, by rw [hcredit]; rfl⟩⟩

/-- Nobody finds an invoice unpaid after a payment of it was taken down. -/
theorem Reachable.pairwise_history (repository : Repository outside) (htells : repository.Tells)
    (h : Reachable settings outside world s) (invoice : String) :
    s.history.Pairwise fun e e' => e.2.Pays invoice → ¬e'.2.Finds invoice := by
  induction h with
  | start => exact List.Pairwise.nil
  | @next s s' hs hnext ih =>
      cases hnext with
      | arrive code request gone =>
          refine List.pairwise_append.mpr ⟨ih, List.pairwise_singleton _ _, ?_⟩
          rintro e he e' he' hpays ⟨t, hfound, -⟩
          rw [List.mem_singleton.mp he'] at hfound
          cases hfound
      | @move number stage m world' hstage hmakes hdesk hworld =>
          refine List.pairwise_append.mpr ⟨ih, List.pairwise_singleton _ _, ?_⟩
          rintro e he e' he' hpays ⟨t, hfound, rfl, hunpaid⟩
          rw [List.mem_singleton.mp he'] at hfound
          obtain ⟨a, code, others, hcause⟩ := Move.found?_eq_some hfound
          obtain ⟨payment, hmem⟩ := State.mem_credits_of_pays he hpays
          obtain ⟨⟨others', hperm⟩, -⟩ := repository.stored_credits hs
          have hstored := hperm.symm.subset
            (List.mem_append_right _ (List.mem_map_of_mem (f := Prod.snd) hmem))
          rw [hcause] at hworld
          exact htells hworld hunpaid _ hstored rfl
      | _ => exact ih

section Races

variable {invoice : String}

theorem State.Races.length_creditsOf (h : s.Races invoice) :
    2 ≤ (s.creditsOf invoice).length := by
  obtain ⟨e₁, e₂, e₃, hsublist, -, -, -, ⟨p₂, hpays₂⟩, ⟨p₃, hpays₃⟩⟩ := h
  have hpair : [e₂, e₃].Sublist s.history := (List.sublist_cons_self _ _).trans hsublist
  have hcredits := (hpair.filterMap fun e => e.2.credit?.map (e.1, ·)).filter (·.2.1 == invoice)
  rw [State.creditsOf, State.credits]
  simpa [hpays₂, hpays₃] using hcredits.length_le

theorem State.Races.append {s' : State outside.World} {e : Nat × Move} (h : s.Races invoice)
    (hhistory : s'.history = s.history ++ [e]) : s'.Races invoice := by
  obtain ⟨e₁, e₂, e₃, hsublist, hraces⟩ := h
  refine ⟨e₁, e₂, e₃, ?_, hraces⟩
  rw [hhistory]
  exact hsublist.trans (List.sublist_append_left _ _)

theorem Reachable.not_mem_credits (h : Reachable settings outside world s) {number : Nat}
    {phase : Phase} {held : Holdings} (hstage : s.stages[number]? = some (.waiting phase held))
    (credit : String × Payment) : (number, credit) ∉ s.credits := by
  rw [State.mem_credits, Log.credits_eq_nil (h.course hstage) (by simp)]
  exact List.not_mem_nil

/-- A second payment of an invoice is taken down by somebody who found it unpaid
before the first one was. -/
theorem Reachable.races_of_second (h : Reachable settings outside world s)
    (repository : Repository outside) (htells : repository.Tells) {number : Nat} {a : Accepted}
    {t : Target} {d : Draft} {payment : Payment} {held : Holdings} {m : Move}
    (hstage : s.stages[number]? = some (.waiting (.paying a t d payment) held))
    (hcredit : m.credit? = some (t.invoice, payment)) (hpaid : s.creditsOf t.invoice ≠ [])
    (world' : outside.World) : (s.move number m world').Races t.invoice := by
  obtain ⟨⟨other, invoice, payment'⟩, hother⟩ := List.exists_mem_of_ne_nil _ hpaid
  obtain ⟨hmem, hinvoice⟩ := List.mem_filter.mp hother
  obtain rfl : invoice = t.invoice := by simpa using hinvoice
  obtain ⟨m₂, hm₂, hpays₂⟩ := List.mem_filterMap.mp (State.mem_credits.mp hmem)
  have hother₂ := State.mem_log.mp hm₂
  cases Log.stands (h.course hstage) with
  | waiting sound holds found calm =>
      obtain ⟨m₁, hm₁, hfound, hunpaid⟩ := found t rfl
      have hfinds : m₁.Finds t.invoice := ⟨t, hfound, rfl, hunpaid⟩
      have hpays : m₂.Pays t.invoice := ⟨payment', hpays₂⟩
      have hnumber : number ≠ other := by
        rintro rfl
        exact h.not_mem_credits hstage _ hmem
      have hne : (number, m₁) ≠ (other, m₂) := fun heq => hnumber (congrArg Prod.fst heq)
      refine ⟨(number, m₁), (other, m₂), (number, m), ?_, rfl, hnumber, hfinds, hpays,
        payment, hcredit⟩
      rcases sublist_of_mem_of_ne (State.mem_log.mp hm₁) hother₂ hne with hfirst | hlast
      · exact hfirst.append (List.Sublist.refl [(number, m)])
      · have hpairwise := (h.pairwise_history repository htells t.invoice).sublist hlast
        exact absurd hfinds ((List.pairwise_pair.mp hpairwise) hpays)

theorem State.creditsOf_append {World : Type} {s s' : State World} {new : List _}
    (h : s'.credits = s.credits ++ new) (invoice : String) :
    s'.creditsOf invoice = s.creditsOf invoice ++ new.filter (·.2.1 == invoice) := by
  rw [creditsOf, h, List.filter_append, creditsOf]

theorem Reachable.races_or_length_le (h : Reachable settings outside world s)
    (repository : Repository outside) (htells : repository.Tells) :
    s.Races invoice ∨ (s.creditsOf invoice).length ≤ 1 := by
  induction h with
  | start => exact .inr (by simp [State.start, State.creditsOf, State.credits])
  | @next s s' hs hnext ih =>
      cases hnext with
      | arrive code request gone =>
          refine ih.imp (fun hraces => hraces.append rfl) fun hlength => ?_
          rw [State.creditsOf_append (s.credits_arrive _)]
          simpa [Move.credit?] using hlength
      | @move number stage m world' hstage hmakes hdesk hworld =>
          rcases ih with hraces | hlength
          · exact .inl (hraces.append rfl)
          · have happend := State.creditsOf_append (s.credits_move number m world') invoice
            rcases (hs.course hstage).makes_cases hmakes with ⟨phase, -, hacts⟩ |
              ⟨a, t, d, payment, rfl, hconcludes⟩ | ⟨failure, fallback, -, hcredit, -⟩
            · refine .inr ?_
              rw [happend, hacts.modest.credit]
              simpa using hlength
            · have hcredit := hconcludes.credit?
              by_cases hinvoice : t.invoice = invoice
              · subst hinvoice
                by_cases hpaid : s.creditsOf t.invoice = []
                · refine .inr ?_
                  rw [happend, hpaid, hcredit]
                  simp
                · exact .inl (hs.races_of_second repository htells hstage hcredit hpaid world')
              · refine .inr ?_
                rw [happend, hcredit]
                simpa [hinvoice] using hlength
            · refine .inr ?_
              rw [happend, hcredit]
              simpa using hlength
      | _ => exact ih

end Races

/-- A submission that finds an invoice paid is refused. -/
theorem Reachable.refused_of_paid (h : Reachable settings outside world s) {number : Nat}
    {a : Accepted} {code invoice : String} {index : Nat} {others : List String}
    {held : Holdings} {method : PaymentMethod} {output : TxOut}
    (hstage : s.stages[number]? = some (.waiting (.reading a code index invoice others) held))
    (houtput : a.fallback.outputs[index]? = some output)
    (hscript : output.script = method.depositScript) (hpayjoin : method.payjoin)
    (htype : method.account.scriptType = a.type) (hpaid : method.hasPayments) (now : Nat) :
    (Turn.answer settings now s.desk (.reading a code index invoice others) held
      (.ok (some method))).stage =
        .closing (.reject .alreadyPaid
          "The invoice this PSBT is paying has already been partially or completely paid")
          a.fallback := by
  cases Log.stands (h.course hstage) with
  | waiting sound holds found calm =>
      have hresume : ∀ s' : Session, (Submission.resume settings now
          (.reading a code index invoice others) (.ok (some method))).run s' =
            (Submission.reject .alreadyPaid
              "The invoice this PSBT is paying has already been partially or completely paid",
              s') := by
        intro s'
        simp [Submission.resume, Submission.consider, houtput, hscript, hpayjoin, htype, hpaid]
        rfl
      rw [Turn.answer, hresume]
      rfl

namespace Clash

open Draft.Sample (accepted deposit original spent target)

variable {signed : Draft}

/-- The sender whose proposal is out comes again, and asks for the same invoice. -/
def asked (signed : Draft) : State Outside.ofLedger.World :=
  Sample.ask (handedOut signed) accepted spent deposit "order"

theorem asked_reads (h : Signs signed) :
    Reachable Sample.settings .ofLedger ledger (asked signed) ∧
      (asked signed).stages[2]? =
        some (.waiting (.reading accepted "BTC" 0 "order" []) ⟨[], [], some original⟩) := by
  obtain ⟨hreachable, hstages⟩ :=
    Sample.ask_reachable (handedOut_reachable h) accepted spent rfl rfl "order"
  refine ⟨hreachable, ?_⟩
  rw [asked, hstages, handedOut_stages h]
  rfl

theorem creditsOf_asked (signed : Draft) : (asked signed).creditsOf "order" =
    [(1, "order", Submission.paymentOf accepted target signed 100)] := by
  have hcredits : (asked signed).credits = (handedOut signed).credits := by
    simp only [asked, Sample.ask, State.answered, State.credits_move, State.credits_arrive,
      Move.credit?, Option.map_none, Option.toList_none, List.append_nil]
  rw [State.creditsOf, hcredits, credits_handedOut]
  rfl

theorem method?_paid (signed : Draft) : (paid signed).1.method? "order" "BTC" =
    some { target.method with hasPayments := true } := by
  have hcode : (paid signed).1.code = "BTC" := rfl
  have hmethod : (paid signed).1.methods.find? "order" = some target.method := rfl
  have hpayments : (paid signed).1.paymentsOf "order" =
      [Submission.paymentOf accepted target signed 100] := rfl
  rw [Ledger.method?, hcode, hmethod, hpayments]
  rfl

end Clash

/-- At most one payment of an invoice is taken down, exactly as long as nobody races:
finds the invoice unpaid, and takes a payment of it down after somebody else did.
Once a payment was taken down, whoever asks for the invoice is told that it is
paid, and is refused. -/
theorem at_most_one_payment_iff (repository : Repository outside) (htells : repository.Tells)
    (h : Reachable settings outside world s) (invoice : String) :
    ((s.creditsOf invoice).length ≤ 1 ↔ ¬s.Races invoice) ∧
    (s.creditsOf invoice ≠ [] →
      ∀ (number : Nat) (a : Accepted) (code : String) (index : Nat) (others : List String)
        (held : Holdings) (method : PaymentMethod) (output : TxOut) (world' : outside.World)
        (now : Nat),
        s.stages[number]? = some (.waiting (.reading a code index invoice others) held) →
        outside.Answers s.world (.paymentMethod invoice code) (.ok (some method)) world' →
        a.fallback.outputs[index]? = some output → output.script = method.depositScript →
        method.payjoin → method.account.scriptType = a.type →
          (Turn.answer settings now s.desk (.reading a code index invoice others) held
            (.ok (some method))).stage =
              .closing (.reject .alreadyPaid
                "The invoice this PSBT is paying has already been partially or completely paid")
                a.fallback) := by
  refine ⟨⟨fun hlength hraces => ?_, fun hraces => ?_⟩, ?_⟩
  · exact absurd hraces.length_creditsOf (by omega)
  · exact (h.races_or_length_le repository htells).resolve_left hraces
  · intro hpaid number a code index others held method output world' now hstage hanswer houtput
      hscript hpayjoin htype
    refine h.refused_of_paid hstage houtput hscript hpayjoin htype ?_ now
    by_contra hunpaid
    obtain ⟨⟨other, invoice', payment⟩, hother⟩ := List.exists_mem_of_ne_nil _ hpaid
    obtain ⟨hmem, hinvoice⟩ := List.mem_filter.mp hother
    obtain ⟨⟨others', hperm⟩, -⟩ := repository.stored_credits h
    have hstored := hperm.symm.subset
      (List.mem_append_right _ (List.mem_map_of_mem (f := Prod.snd) hmem))
    exact htells hanswer (Bool.not_eq_true _ ▸ hunpaid) _ hstored (by simpa using hinvoice)

namespace Clash

open Draft.Sample (accepted original target)

/-- One payment of the order was taken down without a race, and the sender that comes again
is refused. -/
theorem asked_is_already_paid : ∃ signed, Signs signed ∧
    ((asked signed).creditsOf "order").length = 1 ∧ ¬(asked signed).Races "order" ∧
    (Turn.answer Sample.settings 0 (asked signed).desk (.reading accepted "BTC" 0 "order" [])
      ⟨[], [], some original⟩ (.ok (some { target.method with hasPayments := true }))).stage =
        .closing (.reject .alreadyPaid
          "The invoice this PSBT is paying has already been partially or completely paid")
          original := by
  obtain ⟨signed, hsigns⟩ := exists_signs
  obtain ⟨hreachable, hreads⟩ := asked_reads hsigns
  have hcredits := creditsOf_asked signed
  have hlength : ((asked signed).creditsOf "order").length = 1 := by
    rw [hcredits, List.length_singleton]
  have hpaid : (asked signed).creditsOf "order" ≠ [] := by
    rw [hcredits]
    exact List.cons_ne_nil _ _
  have hanswers : Outside.ofLedger.Answers (asked signed).world (.paymentMethod "order" "BTC")
      (.ok (some { target.method with hasPayments := true })) (asked signed).world :=
    ⟨(method?_paid signed).symm, rfl⟩
  obtain ⟨hraces, hrefused⟩ := at_most_one_payment_iff Repository.ofLedger
    Repository.ofLedger_tells hreachable "order"
  exact ⟨signed, hsigns, hlength, hraces.mp hlength.le,
    hrefused hpaid 2 _ _ _ _ _ _ _ _ 0 hreads hanswers rfl rfl rfl rfl⟩

end Clash

end Traffic

end Paydesk.Payjoin

import Paydesk.Proofs.Payjoin.Phases

/-!
From the request to the lock of the sender's inputs.
-/

namespace Paydesk.Payjoin.Submission

open Chain Wallet Invoices

variable {settings : Settings} {a : Accepted} {t : Target} {s : Session}

theorem examine_eq_wait (psbt : Psbt) (format : BodyFormat) (params : Params) :
    (∃ a : Accepted, a.Sound ∧ a.psbt = psbt ∧ a.format = format ∧ a.params = params ∧
        examine psbt format params = .wait (.probing a)) ∨
      ∃ failure, examine psbt format params = .failed failure := by
  rw [examine]
  split
  · exact .inr ⟨_, rfl⟩
  · exact .inr ⟨_, rfl⟩
  · rename_i type fee hcheck hfee
    exact .inl ⟨_, ⟨hcheck, ⟨fee, hfee, rfl⟩, rfl⟩, rfl, rfl, rfl, rfl⟩

theorem examine_advances {psbt : Psbt} {format : BodyFormat} {params : Params}
    (hheld : s.holdings = .none) :
    Advances s (examine psbt format params, s) False
      (fun next => ∃ a : Accepted, a.Sound ∧ next = .probing a) := by
  rcases examine_eq_wait psbt format params with ⟨a, ha, -, -, -, h⟩ | ⟨failure, h⟩
  · rw [h]
    exact .waiting_still ⟨a, ha, rfl⟩ hheld.symm
  · rw [h]
    exact .failed_still s failure

theorem start_advances (desk : Desk) (code : String) (request : Request) :
    Advances ⟨desk, .none⟩ (start settings code request, ⟨desk, .none⟩) False
      (fun next => next.Sound ∧ next.target? = none) := by
  rw [start]
  split
  · exact .failed_still _ _
  · split
    · split
      · refine (examine_advances rfl).mono ?_
        rintro next ⟨a, ha, rfl⟩
        exact ⟨ha, rfl⟩
      · exact .failed_still _ _
    · exact .waiting_still ⟨trivial, rfl⟩ rfl

/-- The phase in which an output is looked at. -/
def Searches (settings : Settings) (a : Accepted) (index : Nat) (next : Phase) : Prop :=
  ∃ output, a.fallback.outputs[index]? = some output ∧
    next = .searching a settings.code index output.script

/-- The phase in which the rest of some invoices is looked at, and then the
outputs behind. -/
def Reads (settings : Settings) (a : Accepted) (index : Nat) (invoices : List String)
    (next : Phase) : Prop :=
  (∃ invoice others, invoices = invoice :: others ∧
    next = .reading a settings.code index invoice others) ∨
    Searches settings a (index + 1) next

theorem search_advances (hheld : s.holdings = ⟨[], [], some a.fallback⟩) (index : Nat) :
    Advances s (search settings a index, s) False (Searches settings a index) := by
  rw [search]
  split
  · rename_i output houtput
    exact .waiting_still ⟨output, houtput, rfl⟩ hheld.symm
  · exact .failed_still s _

theorem searchAmong_advances (hheld : s.holdings = ⟨[], [], some a.fallback⟩) (index : Nat)
    (invoices : List String) :
    Advances s (searchAmong settings a index invoices, s) False
      (Reads settings a index invoices) := by
  cases invoices with
  | nil => exact (search_advances hheld (index + 1)).mono fun _ => .inr
  | cons invoice others => exact .waiting_still (.inl ⟨invoice, others, rfl, rfl⟩) hheld.symm

theorem engage_of_due {paid : Nat} (hdue : 0 < remainingDue t.method.due paid) :
    (engage a t paid).run s =
      (reject .invoiceNotFullyPaid "The transaction must pay the whole invoice", s) := by
  simp only [engage, hdue, if_true]
  rfl

theorem engage_of_locked {paid : Nat} (hdue : ¬0 < remainingDue t.method.due paid)
    (hlocks : s.desk.locks.lockInputs? a.fallback.outPoints = none) :
    (engage a t paid).run s = (reject .inputsAlreadyUsed
      "Some of those inputs have already been used to make another payjoin transaction", s) := by
  simp [engage, hdue, hlocks]
  rfl

/-- What is left of a session once the inputs of a fallback are locked. -/
def engaged (a : Accepted) (t : Target) (s : Session) (locks : Locks) : Session :=
  { desk := { s.desk with locks, wallets := s.desk.wallets.touch t.method.account.wallet }
    holdings := { s.holdings with inputs := a.fallback.outPoints } }

theorem engage_of_conflict? {paid : Nat} {locks : Locks}
    (hdue : ¬0 < remainingDue t.method.due paid)
    (hlocks : s.desk.locks.lockInputs? a.fallback.outPoints = some locks) {conflict : Conflict}
    (hconflict : (s.desk.wallets.records t.method.account.wallet).conflict? a.fallback =
      some conflict) :
    (engage a t paid).run s =
      (reject .inputsAlreadyUsed (conflictMessage conflict), engaged a t s locks) := by
  simp [engage, hdue, hlocks, hconflict]
  rfl

theorem engage_of_free {paid : Nat} {locks : Locks}
    (hdue : ¬0 < remainingDue t.method.due paid)
    (hlocks : s.desk.locks.lockInputs? a.fallback.outPoints = some locks)
    (hconflict : (s.desk.wallets.records t.method.account.wallet).conflict? a.fallback = none) :
    (engage a t paid).run s =
      (.wait (.choosing a t (s.desk.wallets.records t.method.account.wallet).exposed),
        engaged a t s locks) := by
  simp [engage, hdue, hlocks, hconflict]
  rfl

theorem engaged_takes (hheld : s.holdings = ⟨[], [], some a.fallback⟩) {locks : Locks}
    (hlocks : s.desk.locks.lockInputs? a.fallback.outPoints = some locks) :
    Takes s (engaged a t s locks) :=
  ⟨⟨_, [], Locks.grants_of_lockInputs? hlocks, by simp [engaged, hheld]⟩,
    .inr ⟨by simp [hheld], _, rfl⟩⟩

theorem engage_advances (hheld : s.holdings = ⟨[], [], some a.fallback⟩) (paid : Nat) :
    Advances s ((engage a t paid).run s) False (fun next =>
      (∃ exposed, next = .choosing a t exposed) ∧ remainingDue t.method.due paid ≤ 0) := by
  by_cases hdue : 0 < remainingDue t.method.due paid
  · rw [engage_of_due hdue]
    exact .failed_still s _
  · cases hlocks : s.desk.locks.lockInputs? a.fallback.outPoints with
    | none =>
        rw [engage_of_locked hdue hlocks]
        exact .failed_still s _
    | some locks =>
        cases hconflict : (s.desk.wallets.records t.method.account.wallet).conflict? a.fallback with
        | some conflict =>
            rw [engage_of_conflict? hdue hlocks hconflict]
            exact .failed (engaged_takes hheld hlocks) _
        | none =>
            rw [engage_of_free hdue hlocks hconflict]
            exact .waiting (engaged_takes hheld hlocks) ⟨⟨_, rfl⟩, Int.not_lt.mp hdue⟩
              (by simp [Phase.holdings, engaged, hheld])

/-- The phase in which coins are looked for. -/
def Engages (a : Accepted) (t : Target) (next : Phase) : Prop :=
  t.Sound a ∧ ∃ exposed, next = .choosing a t exposed

theorem consider_advances (hheld : s.holdings = ⟨[], [], some a.fallback⟩) {index : Nat}
    {invoice : String} {others : List String} {method : PaymentMethod} :
    Advances s ((consider settings a index invoice others method).run s) False (fun next =>
      Reads settings a index others next ∨ Engages a ⟨invoice, index, method⟩ next) := by
  have hskip : Advances s (searchAmong settings a index others, s) False (fun next =>
      Reads settings a index others next ∨ Engages a ⟨invoice, index, method⟩ next) :=
    (searchAmong_advances hheld index others).mono fun _ => .inl
  rw [consider]
  split
  · exact hskip
  · rename_i output houtput
    split
    · exact hskip
    · rename_i hpays
      split
      · exact .failed_still s _
      · rename_i htype
        split
        · exact .failed_still s _
        · rename_i hunpaid
          simp only [Bool.or_eq_true, Bool.not_eq_true', bne_iff_ne, ne_eq, not_or,
            Bool.not_eq_false, not_not] at hpays htype
          refine (engage_advances hheld output.value).mono ?_
          rintro next ⟨⟨exposed, rfl⟩, hdue⟩
          exact .inr ⟨⟨⟨output, houtput, hpays.2.symm, hdue⟩, hpays.1, htype,
            Bool.not_eq_true _ ▸ hunpaid⟩, exposed, rfl⟩

end Paydesk.Payjoin.Submission

import Paydesk.Proofs.Invoices.History
import Paydesk.Proofs.Invoices.Ledger

/-!
A ledger and a database, each against the history of what was added, and so against
each other.
-/

namespace Paydesk.Invoices

open Chain

section Histories

variable {h : History} {invoice : String}

theorem History.not_isEmpty_paymentsOf (h : History) (invoice : String) :
    (!(h.paymentsOf invoice).isEmpty) = h.payments.any (·.invoice == invoice) := by
  rw [paymentsOf, List.isEmpty_map]
  induction h.payments with
  | nil => rfl
  | cons e payments ih =>
      rw [List.filter_cons, List.any_cons]
      cases e.invoice == invoice
      · simpa using ih
      · rfl

theorem History.find?_eq_none (hnew : invoice ∉ h.stored) :
    h.invoices.find? (·.invoice == invoice) = none := by
  rw [List.find?_eq_none]
  intro e he hname
  exact hnew (List.mem_map.mpr ⟨e, he, eq_of_beq hname⟩)

end Histories

section Ledgers

/-- A ledger that answers from a history. -/
structure Ledger.Keeps (l : Ledger) (h : History) : Prop where
  code : l.code = h.code
  sorted : Table.Sorted l.payments
  methods : ∀ invoice, l.methods.find? invoice =
    (h.invoices.find? (·.invoice == invoice)).map (·.content)
  find : ∀ key, l.find key = h.find key
  paymentsOf : ∀ invoice, l.paymentsOf invoice = h.paymentsOf invoice
  allPayments : l.allPayments.Perm (h.payments.map fun e => (e.invoice, e.content))

namespace Ledger

variable {l : Ledger} {h : History} {invoice : String}

theorem keeps_new (code : String) : (new code).Keeps (.new code) where
  code := rfl
  sorted := Table.sorted_nil
  methods _ := rfl
  find _ := rfl
  paymentsOf _ := rfl
  allPayments := List.Perm.refl _

theorem isPaidBy_eq_any (l : Ledger) (o : OutPoint) :
    l.isPaidBy o = l.allPayments.any (·.2.outPoint == o) := by
  simp only [isPaidBy, allPayments, Table.values, List.any_map, List.any_flatMap]
  rfl

theorem Keeps.isPaidBy (hk : l.Keeps h) (o : OutPoint) : l.isPaidBy o = h.isPaidBy o := by
  rw [isPaidBy_eq_any, hk.allPayments.any_eq, List.any_map]
  rfl

theorem Keeps.method? (hk : l.Keeps h) (invoice code : String) :
    l.method? invoice code = h.method? invoice code := by
  rw [Ledger.method?, History.method?, hk.code, hk.methods, hk.paymentsOf,
    h.not_isEmpty_paymentsOf, Option.map_map]
  rfl

theorem Keeps.addInvoice (hk : l.Keeps h) (hnew : invoice ∉ h.stored) (now : Nat)
    (method : PaymentMethod) :
    (l.addInvoice invoice method).Keeps (h.addInvoice now invoice method) where
  code := hk.code
  sorted := hk.sorted
  methods name := by
    rw [Ledger.addInvoice, History.addInvoice, Table.find?_insert, hk.methods, List.find?_append]
    split
    · next hname =>
      rw [hname, History.find?_eq_none hnew]
      simp
    · next hname => simp [Ne.symm hname]
  find key := by
    have hold := hk.find key
    rw [Ledger.find, History.find] at hold ⊢
    rw [Ledger.addInvoice, History.addInvoice, Table.find?_insert, hk.code, List.filter_append,
      List.map_append, ← hold]
    split
    · next hkey => simp [hkey]
    · next hkey => simp [Ne.symm hkey]
  paymentsOf := hk.paymentsOf
  allPayments := hk.allPayments

theorem Keeps.pay?_paid (hk : l.Keeps h) {payment : Payment}
    (hpaid : h.isPaidBy payment.outPoint) : l.pay? invoice payment = none :=
  if_pos ((hk.isPaidBy payment.outPoint).trans hpaid)

theorem Keeps.pay? (hk : l.Keeps h) {payment : Payment} (hfree : ¬h.isPaidBy payment.outPoint)
    (now : Nat) (invoice : String) :
    ∃ l', l.pay? invoice payment = some l' ∧ l'.Keeps (h.addPayment now invoice payment) := by
  have hpay := (if_neg (hk.isPaidBy payment.outPoint ▸ hfree) : l.pay? invoice payment = _)
  refine ⟨_, hpay, hk.code, hk.sorted.insert _ _, hk.methods, hk.find, fun name => ?_, ?_⟩
  · rw [Ledger.paymentsOf, Table.find?_insert, History.paymentsOf, History.addPayment,
      List.filter_append, List.map_append]
    split
    · next hname =>
      rw [hname, hk.paymentsOf]
      simp [History.paymentsOf]
    · next hname =>
      have hold := hk.paymentsOf name
      rw [Ledger.paymentsOf, History.paymentsOf] at hold
      simp [Ne.symm hname, hold]
  · refine (pay?_eq_some hk.sorted hpay).2.trans ?_
    rw [History.addPayment, List.map_append]
    exact hk.allPayments.append_right _

end Ledger

end Ledgers

section Databases

/-- Entries by their time, and none that is later than now. -/
structure InOrder {α : Type} (now : Nat) (entries : List (Entry α)) : Prop where
  ascending : entries.Pairwise fun a b => a.time ≤ b.time
  past : ∀ e ∈ entries, e.time ≤ now

namespace InOrder

variable {α β : Type} {now : Nat} {entries : List (Entry α)}

theorem nil (now : Nat) : InOrder now ([] : List (Entry α)) := ⟨.nil, nofun⟩

theorem mono (h : InOrder now entries) {later : Nat} (hlater : now ≤ later) :
    InOrder later entries :=
  ⟨h.ascending, fun e he => Nat.le_trans (h.past e he) hlater⟩

theorem append (h : InOrder now entries) (invoice : String) (content : α) :
    InOrder now (entries ++ [⟨now, invoice, content⟩]) := by
  refine ⟨List.pairwise_append.mpr ⟨h.ascending, List.pairwise_singleton _ _, ?_⟩, ?_⟩
  · intro e he last hlast
    rw [List.mem_singleton.mp hlast]
    exact h.past e he
  · exact List.forall_mem_append.mpr ⟨h.past, List.forall_mem_singleton.mpr le_rfl⟩

/-- Rows of entries in order are found in the order in which they were added. -/
theorem byCreation_filter (h : InOrder now entries) (created : β → Nat) (row : Entry α → β)
    (hcreated : ∀ e, created (row e) = e.time) (p : β → Bool) :
    Database.byCreation created ((entries.map row).filter p) =
      (entries.filter (p ∘ row)).map row := by
  rw [List.filter_map]
  refine List.mergeSort_of_pairwise (List.pairwise_map.mpr ?_)
  refine (h.ascending.filter (p ∘ row)).imp fun hle => ?_
  rw [hcreated, hcreated]
  exact decide_eq_true hle

end InOrder

def Entry.invoiceRow (code : String) (e : Entry PaymentMethod) : InvoiceRow :=
  Database.InvoiceRow.ofMethod e.time code e.invoice e.content

def Entry.paymentRow (e : Entry Payment) : PaymentRow :=
  Database.PaymentRow.ofPayment e.time e.invoice e.content

/-- A database that holds the rows of a history, with the times that its clock showed. -/
structure Database.Keeps (db : Database) (h : History) : Prop where
  code : db.code = h.code
  invoices : db.invoices = h.invoices.map (Entry.invoiceRow h.code)
  payments : db.payments = h.payments.map Entry.paymentRow
  invoicesInOrder : InOrder db.clock h.invoices
  paymentsInOrder : InOrder db.clock h.payments
  due : ∀ e ∈ h.invoices, e.content.due < limit63
  fits : ∀ e ∈ h.payments, e.content.Fits

namespace Database

variable {db : Database} {h : History} {invoice : String}

theorem keeps_new (code : String) : (new code).Keeps (.new code) where
  code := rfl
  invoices := rfl
  payments := rfl
  invoicesInOrder := .nil 0
  paymentsInOrder := .nil 0
  due := nofun
  fits := nofun

theorem Keeps.setClock (hk : db.Keeps h) {now : Nat} (hnow : db.clock ≤ now) :
    (db.setClock now).Keeps h where
  code := hk.code
  invoices := hk.invoices
  payments := hk.payments
  invoicesInOrder := hk.invoicesInOrder.mono hnow
  paymentsInOrder := hk.paymentsInOrder.mono hnow
  due := hk.due
  fits := hk.fits

theorem Keeps.any_invoice (hk : db.Keeps h) (invoice : String) :
    db.invoices.any (·.invoice == invoice) = true ↔ invoice ∈ h.stored := by
  rw [hk.invoices, List.any_map, List.any_eq_true, History.stored, List.mem_map]
  exact exists_congr fun e => and_congr_right fun _ => beq_iff_eq

theorem Keeps.find (hk : db.Keeps h) (key : String) : db.find key = h.find key := by
  have hrows := hk.invoicesInOrder.byCreation_filter (·.created) (Entry.invoiceRow h.code)
    (fun _ => rfl) (·.key == key)
  rw [Database.find, hk.invoices, hrows, List.map_map]
  rfl

theorem Keeps.hasPayments (hk : db.Keeps h) (invoice : String) :
    db.payments.any (·.invoice == invoice) = h.payments.any (·.invoice == invoice) := by
  rw [hk.payments, List.any_map]
  rfl

theorem Keeps.method? (hk : db.Keeps h) (invoice code : String) :
    db.method? invoice code = .ok (h.method? invoice code) := by
  have hrow : (db.invoices.find? fun row => row.invoice == invoice && row.code == h.code) =
      (h.invoices.find? (·.invoice == invoice)).map (Entry.invoiceRow h.code) := by
    rw [hk.invoices, List.find?_map]
    congr 2
    funext e
    simp [Entry.invoiceRow, InvoiceRow.ofMethod]
  rw [Database.method?, History.method?, hk.code, hrow, hk.hasPayments]
  split
  · rfl
  · cases hfound : h.invoices.find? (·.invoice == invoice) with
    | none => rfl
    | some e =>
        have hmethod := method_ofMethod (hk.due e (List.mem_of_find?_eq_some hfound)) e.time h.code
          e.invoice (h.payments.any (·.invoice == invoice))
        rw [Option.map_some, Option.map_some, Entry.invoiceRow]
        dsimp only
        rw [hmethod]
        rfl

theorem encode_inj {o o' : OutPoint} (h : o.Fits) (h' : o'.Fits) :
    o.encode = o'.encode ↔ o = o' := by
  refine ⟨fun heq => ?_, congrArg _⟩
  have hread := h.restores.whole?
  rw [heq, h'.restores.whole?] at hread
  exact (Option.some.inj hread).symm

theorem Keeps.isPaidBy (hk : db.Keeps h) {o : OutPoint} (ho : o.Fits) :
    db.payments.any (·.outPoint == .blob o.encode) = h.isPaidBy o := by
  rw [hk.payments, List.any_map, History.isPaidBy, Bool.eq_iff_iff, List.any_eq_true,
    List.any_eq_true]
  refine exists_congr fun e => and_congr_right fun he => ?_
  rw [beq_iff_eq, ← encode_inj (hk.fits e he).outPoint ho]
  simp [Entry.paymentRow, PaymentRow.ofPayment]

theorem Keeps.paymentsOf (hk : db.Keeps h) (invoice : String) :
    db.paymentsOf invoice = .ok (h.paymentsOf invoice) := by
  have hrows := hk.paymentsInOrder.byCreation_filter (·.created) Entry.paymentRow
    (fun _ => rfl) (·.invoice == invoice)
  rw [Database.paymentsOf, hk.payments, hrows,
    mapM_map_eq_ok fun e _ => values_ofPayment e.time e.invoice e.content]
  exact mapM_map_eq_ok fun e he => paymentOf_values (hk.fits e (List.mem_of_mem_filter he))

theorem Keeps.addInvoice (hk : db.Keeps h) (hnew : invoice ∉ h.stored) {method : PaymentMethod}
    (hdue : method.due < limit63) :
    ∃ db', db.addInvoice invoice method = .ok db' ∧ db'.clock = db.clock ∧
      db'.Keeps (h.addInvoice db.clock invoice method) := by
  have hadd := (if_neg (mt (hk.any_invoice invoice).mp hnew) : db.addInvoice invoice method = _)
  refine ⟨_, hadd, rfl, ?_⟩
  exact {
    code := hk.code
    invoices := by simp [History.addInvoice, hk.invoices, hk.code, Entry.invoiceRow]
    payments := hk.payments
    invoicesInOrder := hk.invoicesInOrder.append invoice method
    paymentsInOrder := hk.paymentsInOrder
    due := List.forall_mem_append.mpr ⟨hk.due, List.forall_mem_singleton.mpr hdue⟩
    fits := hk.fits }

theorem Keeps.pay?_paid (hk : db.Keeps h) {payment : Payment} (hfits : payment.Fits)
    (hpaid : h.isPaidBy payment.outPoint) : db.pay? invoice payment = .ok none :=
  if_pos ((hk.isPaidBy hfits.outPoint).trans hpaid)

theorem Keeps.pay? (hk : db.Keeps h) (hstored : invoice ∈ h.stored) {payment : Payment}
    (hfits : payment.Fits) (hfree : ¬h.isPaidBy payment.outPoint) :
    ∃ db', db.pay? invoice payment = .ok (some db') ∧ db'.clock = db.clock ∧
      db'.Keeps (h.addPayment db.clock invoice payment) := by
  have hnone : ¬db.payments.any (·.outPoint == .blob payment.outPoint.encode) = true :=
    hk.isPaidBy hfits.outPoint ▸ hfree
  have hpay := ((if_neg hnone).trans (if_pos ((hk.any_invoice invoice).mpr hstored)) :
    db.pay? invoice payment = _)
  refine ⟨_, hpay, rfl, ?_⟩
  exact {
    code := hk.code
    invoices := hk.invoices
    payments := by simp [History.addPayment, hk.payments, Entry.paymentRow]
    invoicesInOrder := hk.invoicesInOrder
    paymentsInOrder := hk.paymentsInOrder.append invoice payment
    due := hk.due
    fits := List.forall_mem_append.mpr ⟨hk.fits, List.forall_mem_singleton.mpr hfits⟩ }

end Database

end Databases

section Stores

variable {h : History} {c : Store.Call}

theorem Ledger.Keeps.call {l : Ledger} (hk : l.Keeps h) (hcall : c.Permitted h.stored)
    (now : Nat) :
    ∃ l', (Store.ledger l).call c = .ok (h.answer c, .ledger l') ∧
      l'.Keeps (h.after now c) := by
  cases c with
  | addInvoice invoice method => exact ⟨_, rfl, hk.addInvoice hcall.1 now method⟩
  | find key =>
      refine ⟨l, ?_, hk⟩
      rw [Store.call, Store.find, hk.find]
      rfl
  | methodOf invoice code =>
      refine ⟨l, ?_, hk⟩
      rw [Store.call, Store.method?, hk.method?]
      rfl
  | pay invoice payment =>
      rw [Store.call, Store.pay?, History.answer, History.after]
      by_cases hpaid : h.isPaidBy payment.outPoint
      · rw [hk.pay?_paid hpaid, if_pos hpaid, if_pos hpaid]
        exact ⟨l, rfl, hk⟩
      · obtain ⟨l', hpay, hk'⟩ := hk.pay? hpaid now invoice
        rw [hpay, if_neg hpaid, if_neg hpaid]
        exact ⟨l', rfl, hk'⟩
  | paymentsOf invoice =>
      refine ⟨l, ?_, hk⟩
      rw [Store.call, Store.paymentsOf, hk.paymentsOf]
      rfl

theorem Database.Keeps.call {db : Database} (hk : db.Keeps h) (hcall : c.Permitted h.stored) :
    ∃ db', (Store.database db).call c = .ok (h.answer c, .database db') ∧
      db'.clock = db.clock ∧ db'.Keeps (h.after db.clock c) := by
  cases c with
  | addInvoice invoice method =>
      obtain ⟨db', hadd, hclock, hk'⟩ := hk.addInvoice hcall.1 hcall.2
      refine ⟨db', ?_, hclock, hk'⟩
      rw [Store.call, Store.addInvoice, hadd]
      rfl
  | find key =>
      refine ⟨db, ?_, rfl, hk⟩
      rw [Store.call, Store.find, hk.find]
      rfl
  | methodOf invoice code =>
      refine ⟨db, ?_, rfl, hk⟩
      rw [Store.call, Store.method?, hk.method?]
      rfl
  | pay invoice payment =>
      rw [Store.call, Store.pay?, History.answer, History.after]
      by_cases hpaid : h.isPaidBy payment.outPoint
      · rw [hk.pay?_paid hcall.2 hpaid, if_pos hpaid, if_pos hpaid]
        exact ⟨db, rfl, rfl, hk⟩
      · obtain ⟨db', hpay, hclock, hk'⟩ := hk.pay? hcall.1 hcall.2 hpaid
        rw [hpay, if_neg hpaid, if_neg hpaid]
        exact ⟨db', rfl, hclock, hk'⟩
  | paymentsOf invoice =>
      refine ⟨db, ?_, rfl, hk⟩
      rw [Store.call, Store.paymentsOf, hk.paymentsOf]
      rfl

/-- A store that answers from a history, and whose clock is not ahead. -/
def Store.Keeps (now : Nat) (h : History) : Store → Prop
  | .ledger l => l.Keeps h
  | .database db => db.clock ≤ now ∧ db.Keeps h

namespace Store.Keeps

variable {store : Store} {before : Nat}

theorem call (hk : store.Keeps before h) {now : Nat} (hnow : before ≤ now)
    (hcall : c.Permitted h.stored) :
    ∃ store', (store.setClock now).call c = .ok (h.answer c, store') ∧
      store'.Keeps now (h.after now c) := by
  cases store with
  | ledger l =>
      obtain ⟨l', hanswer, hk'⟩ := Ledger.Keeps.call hk hcall now
      exact ⟨.ledger l', hanswer, hk'⟩
  | database db =>
      obtain ⟨hclock, hk⟩ := hk
      obtain ⟨db', hanswer, hclock', hk'⟩ :=
        (hk.setClock (Nat.le_trans hclock hnow)).call hcall
      exact ⟨.database db', hanswer, Nat.le_of_eq hclock', hk'⟩

/-- Orderly calls are answered from the history so far and that of the calls. -/
theorem answers (hk : store.Keeps before h) {calls : List (Nat × Store.Call)}
    (hcalls : Orderly before h.stored calls) :
    store.answers calls = (h.answers calls).map .ok := by
  induction calls generalizing store h before with
  | nil => rfl
  | cons timed calls ih =>
      obtain ⟨now, c⟩ := timed
      obtain ⟨hnow, hcall, hrest⟩ := hcalls
      obtain ⟨store', hanswer, hk'⟩ := hk.call hnow hcall
      rw [← h.stored_after now c] at hrest
      rw [Store.answers, hanswer, History.answers, List.map_cons]
      exact congrArg _ (ih hk' hrest)

end Store.Keeps

/-- A ledger and a database of one currency give the same answer to each of a sequence of
orderly calls: the one that the history of what was added gives. -/
theorem Store.answers_eq (code : String) {calls : List (Nat × Store.Call)} (h : Store.Orderly 0 [] calls) :
    (ledger (.new code)).answers calls = (database (.new code)).answers calls ∧
      (database (.new code)).answers calls = ((History.new code).answers calls).map .ok := by
  have hledger : (ledger (.new code)).Keeps 0 (.new code) := Ledger.keeps_new code
  have hdatabase : (database (.new code)).Keeps 0 (.new code) :=
    ⟨Nat.le_refl 0, Database.keeps_new code⟩
  exact ⟨(hledger.answers h).trans (hdatabase.answers h).symm, hdatabase.answers h⟩

def segwitInvoice : PaymentMethod where
  depositScript := []
  payjoin := true
  account := ⟨"store", .segwit⟩
  due := 150000
  hasPayments := false

/-- A payment that was merged with one coin of the receiver. -/
def mergedPayment : Payment where
  outPoint := ⟨List.replicate 32 9, 0⟩
  output := ⟨150000, []⟩
  confirmations := Payment.unconfirmed
  merge := some ⟨List.replicate 32 8, 149000, [⟨List.replicate 32 7, 3⟩]⟩

/-- One payment for each of two invoices. -/
def paidTwice : List (Nat × Store.Call) :=
  [(1, .addInvoice "first" segwitInvoice), (1, .addInvoice "second" segwitInvoice),
    (2, .pay "first" mergedPayment), (2, .pay "second" mergedPayment),
    (3, .paymentsOf "first"), (3, .paymentsOf "second"), (4, .methodOf "first" "btc"),
    (4, .methodOf "second" "btc")]

theorem Store.answers_paidTwice :
    Store.Orderly 0 [] paidTwice ∧
      (ledger (.new "btc")).answers paidTwice = (database (.new "btc")).answers paidTwice ∧
      (database (.new "btc")).answers paidTwice =
        [.ok .added, .ok .added, .ok (.recorded (some mergedPayment)), .ok (.recorded none),
          .ok (.payments [mergedPayment]), .ok (.payments []),
          .ok (.method (some { segwitInvoice with hasPayments := true })),
          .ok (.method (some segwitInvoice))] := by
  have horderly : Store.Orderly 0 [] paidTwice := by decide +kernel
  have hanswers : (History.new "btc").answers paidTwice =
      [.added, .added, .recorded (some mergedPayment), .recorded none,
        .payments [mergedPayment], .payments [],
        .method (some { segwitInvoice with hasPayments := true }),
        .method (some segwitInvoice)] := by decide +kernel
  obtain ⟨hagree, hdatabase⟩ := Store.answers_eq "btc" horderly
  exact ⟨horderly, hagree, hdatabase.trans (congrArg _ hanswers)⟩

end Stores

end Paydesk.Invoices

import Paydesk.Invoices.Ledger
import Paydesk.Proofs.Order.Table

namespace Paydesk

namespace Invoices.Ledger

open Chain

/-- The payments of all invoices. -/
def allPayments (l : Ledger) : List (String × Payment) :=
  l.payments.flatMap fun e => e.2.map (e.1, ·)

variable {l l' : Ledger} {invoice : String} {payment : Payment}

theorem mem_paymentsOf (h : Table.Sorted l.payments) (hmem : (invoice, payment) ∈ l.allPayments) :
    payment ∈ l.paymentsOf invoice := by
  obtain ⟨⟨name, payments⟩, hentry, hpayment⟩ := List.mem_flatMap.mp hmem
  obtain ⟨p, hp, heq⟩ := List.mem_map.mp hpayment
  obtain ⟨rfl, rfl⟩ := Prod.mk.inj heq
  rw [paymentsOf, Table.find?_of_mem h hentry]
  exact hp

theorem method?_hasPayments (h : Table.Sorted l.payments) {code : String} {method : PaymentMethod}
    (hmethod : l.method? invoice code = some method) (hunpaid : method.hasPayments = false) :
    ∀ p ∈ l.allPayments, p.1 ≠ invoice := by
  rintro ⟨name, p⟩ hp rfl
  have hmem := mem_paymentsOf h hp
  rw [method?] at hmethod
  split at hmethod
  · cases hmethod
  · obtain ⟨stored, -, rfl⟩ := Option.map_eq_some_iff.mp hmethod
    have hnil : l.paymentsOf name = [] := by simpa using hunpaid
    rw [hnil] at hmem
    cases hmem

theorem isPaidBy_of_mem {o : OutPoint} {p : String × Payment} (hp : p ∈ l.allPayments)
    (ho : p.2.outPoint = o) : l.isPaidBy o := by
  obtain ⟨entry, hentry, hpayment⟩ := List.mem_flatMap.mp hp
  obtain ⟨q, hq, rfl⟩ := List.mem_map.mp hpayment
  rw [isPaidBy, Table.values, List.any_map, List.any_eq_true]
  exact ⟨entry, hentry, List.any_eq_true.mpr ⟨q, hq, by simpa using ho⟩⟩

/-- A payment is added if its output was not counted before. -/
theorem pay?_eq_some (h : Table.Sorted l.payments) (hpay : l.pay? invoice payment = some l') :
    (∀ p ∈ l.allPayments, p.2.outPoint ≠ payment.outPoint) ∧
      l'.allPayments.Perm (l.allPayments ++ [(invoice, payment)]) := by
  rw [pay?] at hpay
  split at hpay
  · cases hpay
  · rename_i hfree
    obtain rfl := Option.some.inj hpay
    refine ⟨fun p hp ho => hfree (isPaidBy_of_mem hp ho), ?_⟩
    have hperm := Table.flatMap_insert_perm (fun name payments => payments.map (name, ·)) h invoice
      (l.paymentsOf invoice ++ [payment])
    have hold : (l.payments.find? invoice).elim [] (fun payments => payments.map (invoice, ·)) =
        (l.paymentsOf invoice).map (invoice, ·) := by
      rw [paymentsOf]
      cases l.payments.find? invoice <;> rfl
    rw [hold, List.perm_iff_count] at hperm
    rw [List.perm_iff_count]
    intro p
    have hcount := hperm p
    simp only [allPayments, List.count_append, List.map_append, List.map_cons, List.map_nil]
      at hcount ⊢
    omega

end Invoices.Ledger

end Paydesk

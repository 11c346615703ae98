import Mathlib.Data.List.Perm.Basic
import Paydesk.Payjoin.Records
import Paydesk.Proofs.Order.Table

namespace Paydesk.Payjoin

open Chain

namespace Records

theorem takeIf_perm (p : Record → Bool) (records : Records) :
    ((takeIf p records).1 ++ (takeIf p records).2).Perm records :=
  List.filter_append_perm p records

theorem add?_eq_some {records : Records} {r : Record}
    (h : ∀ old ∈ records, old.id ≠ r.id) : records.add? r = some (records ++ [r]) := by
  have hnone : records.find? r.id = none := by
    rw [find?, List.find?_eq_none]
    intro old hold
    simpa using h old hold
  simp [add?, hnone]

theorem add?_cases (records : Records) (r : Record) :
    records.add? r = some (records ++ [r]) ∨ records.add? r = none := by
  rw [add?]
  split
  · exact .inr rfl
  · exact .inl rfl

end Records

namespace Wallets

/-- The records of all wallets. -/
def all (wallets : Wallets) : List Record := wallets.flatMap fun entry => entry.2

theorem find?_getD_elim (wallets : Wallets) (wallet : String) :
    (wallets.find? wallet).elim [] id = wallets.records wallet := by
  rw [records]
  cases wallets.find? wallet <;> rfl

theorem all_set_perm {wallets : Wallets} (h : Table.Sorted wallets) (wallet : String)
    (new : Records) :
    ((wallets.set wallet new).all ++ wallets.records wallet).Perm (new ++ wallets.all) := by
  have hperm := Table.flatMap_insert_perm (fun _ => id) h wallet new
  rw [find?_getD_elim] at hperm
  exact hperm

theorem sorted_set {wallets : Wallets} (h : Table.Sorted wallets) (wallet : String)
    (new : Records) : Table.Sorted (wallets.set wallet new) := h.insert wallet new

theorem mem_all_of_mem_records {wallets : Wallets} {wallet : String} {r : Record}
    (h : Table.Sorted wallets) (hr : r ∈ wallets.records wallet) : r ∈ wallets.all := by
  have hperm := all_set_perm h wallet []
  exact hperm.subset (List.mem_append_right _ hr)

theorem all_touch_perm {wallets : Wallets} (h : Table.Sorted wallets) (wallet : String) :
    (wallets.touch wallet).all.Perm wallets.all := by
  have hperm := all_set_perm h wallet (wallets.records wallet)
  exact (List.perm_append_right_iff _).mp (hperm.trans List.perm_append_comm)

end Wallets

end Paydesk.Payjoin

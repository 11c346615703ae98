import Mathlib.Data.List.Perm.Basic
import Paydesk.Order.Table

namespace Paydesk.Table

variable {κ α β : Type} [Ord κ]

/-- Keys ascend, so that each stands once. -/
def Sorted (t : Table κ α) : Prop := t.Pairwise fun a b => compare a.1 b.1 = .lt

theorem sorted_iff_keys {t : Table κ α} :
    t.Sorted ↔ t.keys.Pairwise fun a b => compare a b = .lt := by
  rw [keys, List.pairwise_map, Sorted]

theorem sorted_nil : Sorted ([] : Table κ α) := List.Pairwise.nil

theorem key_lt_of_mem_insert {low key : κ} {value : α} {t : Table κ α} {entry : κ × α}
    (hkey : compare low key = .lt) (hlow : ∀ e ∈ t, compare low e.1 = .lt)
    (hentry : entry ∈ t.insert key value) : compare low entry.1 = .lt := by
  induction t with
  | nil =>
      obtain rfl : entry = (key, value) := by simpa [insert] using hentry
      exact hkey
  | cons e entries ih =>
      obtain ⟨k, v⟩ := e
      have htail : ∀ e ∈ entries, compare low e.1 = .lt := fun e he => hlow e (by simp [he])
      rw [insert] at hentry
      split at hentry
      · rcases List.mem_cons.mp hentry with rfl | hold
        · exact hkey
        · exact hlow entry hold
      · rcases List.mem_cons.mp hentry with rfl | hold
        · exact hlow (k, v) (by simp)
        · exact htail entry hold
      · rcases List.mem_cons.mp hentry with rfl | hnew
        · exact hlow (k, v) (by simp)
        · exact ih htail hnew

theorem find?_eq_none_of_lt {key : κ} {t : Table κ α}
    (h : ∀ e ∈ t, compare key e.1 = .lt) : t.find? key = none := by
  induction t with
  | nil => rfl
  | cons e entries ih =>
      obtain ⟨k, v⟩ := e
      have hk : compare key k = .lt := h (k, v) (by simp)
      rw [find?, hk]
      exact ih fun e he => h e (by simp [he])

theorem key_of_mem_insert {key : κ} {value : α} {t : Table κ α} {entry : κ × α}
    (h : entry ∈ t.insert key value) : entry.1 = key ∨ entry.1 ∈ t.keys := by
  induction t with
  | nil =>
      obtain rfl : entry = (key, value) := by simpa [insert] using h
      exact .inl rfl
  | cons e entries ih =>
      obtain ⟨k, v⟩ := e
      rw [insert] at h
      split at h
      · rcases List.mem_cons.mp h with rfl | hold
        · exact .inl rfl
        · exact .inr (List.mem_map_of_mem hold)
      · rcases List.mem_cons.mp h with rfl | hold
        · exact .inr List.mem_cons_self
        · exact .inr (List.mem_cons_of_mem _ (List.mem_map_of_mem hold))
      · rcases List.mem_cons.mp h with rfl | hnew
        · exact .inr List.mem_cons_self
        · exact (ih hnew).imp id (List.mem_cons_of_mem _)

theorem find?_insert_of_ne [Std.LawfulEqOrd κ] {key key' : κ} (h : key' ≠ key) (value : α)
    (t : Table κ α) :
    (t.insert key value).find? key' = t.find? key' := by
  have hother : compare key' key ≠ .eq := fun heq => h (Std.LawfulEqCmp.eq_of_compare heq)
  induction t with
  | nil => simp [insert, find?, hother]
  | cons e entries ih =>
      obtain ⟨k, v⟩ := e
      cases hcmp : compare key k with
      | lt => simp [insert, find?, hcmp, hother]
      | eq =>
          obtain rfl : key = k := Std.LawfulEqCmp.eq_of_compare hcmp
          simp [insert, find?, hother]
      | gt => simp [insert, find?, hcmp, ih]

theorem mem_of_find?_eq_some [Std.LawfulEqOrd κ] {key : κ} {value : α} {t : Table κ α}
    (h : t.find? key = some value) : (key, value) ∈ t := by
  induction t with
  | nil => cases h
  | cons e entries ih =>
      obtain ⟨k, v⟩ := e
      rw [find?] at h
      split at h
      · rename_i heq
        obtain rfl := Option.some.inj h
        obtain rfl : key = k := Std.LawfulEqCmp.eq_of_compare (eq_of_beq heq)
        exact List.mem_cons_self
      · exact List.mem_cons_of_mem _ (ih h)

variable [Std.TransOrd κ]

theorem find?_insert_self (key : κ) (value : α) (t : Table κ α) :
    (t.insert key value).find? key = some value := by
  induction t with
  | nil => simp [insert, find?]
  | cons e entries ih =>
      obtain ⟨k, v⟩ := e
      cases hcmp : compare key k with
      | lt => simp [insert, find?, hcmp]
      | eq => simp [insert, find?, hcmp]
      | gt => simp [insert, find?, hcmp, ih]

theorem find?_of_mem {t : Table κ α} (h : Sorted t) {key : κ} {value : α}
    (hmem : (key, value) ∈ t) : t.find? key = some value := by
  induction t with
  | nil => cases hmem
  | cons e entries ih =>
      obtain ⟨k, v⟩ := e
      obtain ⟨hhead, htail⟩ := List.pairwise_cons.mp h
      rw [find?]
      rcases List.mem_cons.mp hmem with heq | hmem
      · obtain ⟨rfl, rfl⟩ := Prod.mk.inj heq
        simp [Std.ReflCmp.compare_self]
      · have hgt : compare key k = .gt := Std.OrientedCmp.gt_of_lt (hhead _ hmem)
        simp [hgt, ih htail hmem]

/-- Another value under a key that is there already. -/
theorem Sorted.insert_append {front back : Table κ α} {key : κ} {old : α}
    (h : Sorted (front ++ (key, old) :: back)) (value : α) :
    (front ++ (key, old) :: back).insert key value = front ++ (key, value) :: back := by
  induction front with
  | nil => simp [Table.insert]
  | cons e front ih =>
      obtain ⟨k, v⟩ := e
      obtain ⟨hhead, htail⟩ := List.pairwise_cons.mp h
      have hgt : compare key k = .gt :=
        Std.OrientedCmp.gt_of_lt (hhead (key, old) (List.mem_append_right _ List.mem_cons_self))
      rw [List.cons_append, Table.insert, hgt]
      exact congrArg _ (ih htail)

theorem Sorted.insert {t : Table κ α} (h : Sorted t) (key : κ) (value : α) :
    Sorted (t.insert key value) := by
  induction t with
  | nil => exact List.pairwise_singleton _ _
  | cons e entries ih =>
      obtain ⟨k, v⟩ := e
      obtain ⟨hhead, htail⟩ := List.pairwise_cons.mp h
      rw [Table.insert]
      split
      · rename_i hlt
        refine List.pairwise_cons.mpr ⟨?_, h⟩
        intro entry hentry
        rcases List.mem_cons.mp hentry with rfl | hold
        · exact hlt
        · exact Std.TransCmp.lt_trans hlt (hhead entry hold)
      · exact List.pairwise_cons.mpr ⟨hhead, htail⟩
      · rename_i hgt
        refine List.pairwise_cons.mpr ⟨fun entry hentry => ?_, ih htail⟩
        exact key_lt_of_mem_insert (Std.OrientedCmp.lt_of_gt hgt) hhead hentry

variable [Std.LawfulEqOrd κ]

theorem find?_insert [DecidableEq κ] (key key' : κ) (value : α) (t : Table κ α) :
    (t.insert key value).find? key' = if key' = key then some value else t.find? key' := by
  split
  · next h => rw [h, find?_insert_self]
  · next h => exact find?_insert_of_ne h value t

/-- Putting a value under a key exchanges what the table lists there, and leaves
the rest. -/
theorem flatMap_insert_perm (f : κ → α → List β) {t : Table κ α} (h : Sorted t) (key : κ)
    (value : α) :
    ((t.insert key value).flatMap (fun e => f e.1 e.2) ++ (t.find? key).elim [] (f key)).Perm
      (f key value ++ t.flatMap fun e => f e.1 e.2) := by
  induction t with
  | nil => simp [insert, find?]
  | cons e entries ih =>
      obtain ⟨k, v⟩ := e
      obtain ⟨hhead, htail⟩ := List.pairwise_cons.mp h
      rw [insert, find?]
      cases hcmp : compare key k with
      | lt =>
          have hnone : find? key entries = none :=
            find?_eq_none_of_lt fun e he => Std.TransCmp.lt_trans hcmp (hhead e he)
          simp [hnone]
      | eq =>
          obtain rfl : key = k := Std.LawfulEqCmp.eq_of_compare hcmp
          simp only [List.flatMap_cons, beq_self_eq_true, if_true, Option.elim_some,
            List.append_assoc]
          exact List.perm_append_comm.append_left (f key value)
      | gt =>
          have hrest := ih htail
          simp only [List.flatMap_cons, List.append_assoc, reduceCtorEq, beq_iff_eq, if_false]
          calc
            (f k v ++ ((insert key value entries).flatMap (fun e => f e.1 e.2) ++
                  (find? key entries).elim [] (f key))).Perm
                (f k v ++ (f key value ++ entries.flatMap fun e => f e.1 e.2)) :=
              hrest.append_left (f k v)
            List.Perm _ (f key value ++ (f k v ++ entries.flatMap fun e => f e.1 e.2)) :=
              List.perm_append_comm_assoc ..

end Paydesk.Table

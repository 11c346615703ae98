import Mathlib.Data.List.Nodup
import Paydesk.Proofs.Payjoin.Records

/-!
What becomes of a record. The records of a wallet have different identifiers, and each one that
was added is kept as it is until a single call gives it back.
-/

namespace Paydesk.Payjoin

open Chain
open scoped List

namespace Records

/-- What can be done with the records of a wallet. -/
inductive Action
  | add (r : Record)
  | check (tx : Transaction)
  | takeStale (now timeout : Nat)
  | prune (settled : Record → Bool)
  | remove (id : Bytes)

inductive Reply
  | added (r : Record)
  | refused
  | checked (conflict : Option Conflict)
  | returned (records : List Record)

def Reply.accepted : Reply → List Record
  | .added r => [r]
  | .refused | .checked _ | .returned _ => []

def Reply.given : Reply → List Record
  | .returned records => records
  | .added _ | .refused | .checked _ => []

/-- Does one thing, and tells what came of it. -/
def act (records : Records) : Action → Reply × Records
  | .add r =>
      match records.add? r with
      | some records => (.added r, records)
      | none => (.refused, records)
  | .check tx => (.checked (records.conflict? tx), records)
  | .takeStale now timeout =>
      let (stale, rest) := records.takeStale now timeout
      (.returned stale, rest)
  | .prune settled =>
      let (settled, rest) := takeIf settled records
      (.returned settled, rest)
  | .remove id =>
      let (removed, rest) := records.remove id
      (.returned removed.toList, rest)

def after (records : Records) : List Action → Records
  | [] => records
  | a :: actions => (records.act a).2.after actions

def replies (records : Records) : List Action → List Reply
  | [] => []
  | a :: actions => (records.act a).1 :: (records.act a).2.replies actions

theorem after_append (records : Records) (earlier later : List Action) :
    records.after (earlier ++ later) = (records.after earlier).after later := by
  induction earlier generalizing records with
  | nil => rfl
  | cons a earlier ih => exact ih (records.act a).2

/-- The records have different identifiers. -/
def Keyed (records : Records) : Prop := (records.map Record.id).Nodup

section Keyed

variable {records : Records}

theorem Keyed.find?_eq_some_iff (h : records.Keyed) {id : Bytes} {r : Record} :
    records.find? id = some r ↔ r ∈ records ∧ r.id = id := by
  constructor
  · intro hfind
    exact ⟨List.mem_of_find?_eq_some hfind, by simpa using List.find?_some hfind⟩
  · rintro ⟨hmem, rfl⟩
    cases hfind : records.find? r.id with
    | none => simpa using List.find?_eq_none.mp hfind r hmem
    | some other =>
        have hsame : other.id = r.id := by simpa using List.find?_some hfind
        exact congrArg some
          (List.inj_on_of_nodup_map h (List.mem_of_find?_eq_some hfind) hmem hsame)

theorem Keyed.filter_id (h : records.Keyed) (id : Bytes) :
    records.filter (·.id == id) = (records.find? id).toList := by
  induction records with
  | nil => rfl
  | cons r records ih =>
      obtain ⟨hnew, hrest⟩ := List.nodup_cons.mp h
      rw [find?, List.find?_cons, List.filter_cons]
      cases hid : r.id == id with
      | true =>
          have hnone : records.filter (·.id == id) = [] := by
            rw [List.filter_eq_nil_iff]
            intro other hother hsame
            have heq : other.id = r.id := (beq_iff_eq.mp hsame).trans (beq_iff_eq.mp hid).symm
            exact hnew (heq ▸ List.mem_map_of_mem hother)
          rw [if_pos rfl, hnone]
          rfl
      | false =>
          rw [if_neg Bool.false_ne_true]
          exact ih hrest

end Keyed

theorem isSome_find?_iff (records : Records) (id : Bytes) :
    (records.find? id).isSome ↔ ∃ r ∈ records, r.id = id := by
  rw [find?, List.find?_isSome]
  simp only [beq_iff_eq]

theorem add?_eq_none_iff (records : Records) (r : Record) :
    records.add? r = none ↔ ∃ old ∈ records, old.id = r.id := by
  rw [add?, ← isSome_find?_iff]
  cases records.find? r.id <;> simp

theorem mem_of_added {records : Records} {r : Record}
    (h : (records.act (.add r)).1 = .added r) : r ∈ (records.act (.add r)).2 := by
  obtain hadd | hadd := add?_cases records r
  · simp [act, hadd]
  · simp [act, hadd] at h

/-- What a step takes in and what it gives back make up the difference. -/
theorem Keyed.act_perm {records : Records} (h : records.Keyed) (a : Action) :
    ((records.act a).2 ++ (records.act a).1.given).Perm
      ((records.act a).1.accepted ++ records) := by
  cases a with
  | add r =>
      rw [act]
      obtain hadd | hadd := add?_cases records r
      · rw [hadd]
        simp [Reply.given, Reply.accepted]
      · rw [hadd]
        simp [Reply.given, Reply.accepted]
  | check tx => simp [act, Reply.given, Reply.accepted]
  | takeStale now timeout => exact List.perm_append_comm.trans (takeIf_perm _ records)
  | prune settled => exact List.perm_append_comm.trans (takeIf_perm settled records)
  | remove id =>
      have hperm := takeIf_perm (·.id == id) records
      rw [takeIf, h.filter_id] at hperm
      exact List.perm_append_comm.trans hperm

theorem Keyed.accepted {records : Records} (h : records.Keyed) (a : Action) :
    Keyed ((records.act a).1.accepted ++ records) := by
  cases a with
  | add r =>
      rw [act]
      cases hadd : records.add? r with
      | none => exact h
      | some added =>
          have hnew : ¬ ∃ old ∈ records, old.id = r.id := by
            rw [← add?_eq_none_iff, hadd]
            simp
          refine List.nodup_cons.mpr ⟨fun hmem => hnew ?_, h⟩
          exact List.mem_map.mp hmem
  | check _ | takeStale _ _ | prune _ | remove _ => exact h

/-- After a step, what is left and what was given back have different identifiers. -/
theorem Keyed.act {records : Records} (h : records.Keyed) (a : Action) :
    Keyed ((records.act a).2 ++ (records.act a).1.given) :=
  ((h.act_perm a).map Record.id).nodup_iff.mpr (h.accepted a)

theorem Keyed.append {kept given : Records} (h : Keyed (kept ++ given)) :
    kept.Keyed ∧ given.Keyed ∧ ∀ r ∈ kept, ∀ other ∈ given, other.id ≠ r.id := by
  rw [Keyed, List.map_append] at h
  obtain ⟨hkept, hgiven, hdisjoint⟩ := List.nodup_append.mp h
  refine ⟨hkept, hgiven, fun r hr other hother hsame => ?_⟩
  exact hdisjoint _ (List.mem_map_of_mem hr) _ (List.mem_map_of_mem hother) hsame.symm

/-- A step keeps a record as it is, or gives it back once. -/
theorem Keyed.kept_or_given {records : Records} (h : records.Keyed) {r : Record}
    (hr : r ∈ records) (a : Action) :
    (r ∈ (records.act a).2 ∧ ∀ other ∈ (records.act a).1.given, other.id ≠ r.id) ∨
      ((records.act a).1.given.filter (·.id == r.id) = [r] ∧
        ∀ other ∈ (records.act a).2, other.id ≠ r.id) := by
  obtain ⟨-, hgiven, hdisjoint⟩ := (h.act a).append
  have hmem := (h.act_perm a).mem_iff.mpr (List.mem_append_right _ hr)
  obtain hkept | hback := List.mem_append.mp hmem
  · exact .inl ⟨hkept, hdisjoint r hkept⟩
  · refine .inr ⟨?_, fun other hother hsame => hdisjoint other hother r hback hsame.symm⟩
    rw [hgiven.filter_id, hgiven.find?_eq_some_iff.mpr ⟨hback, rfl⟩]
    rfl

section Runs

variable {records : Records}

theorem Keyed.after (h : records.Keyed) (actions : List Action) :
    (records.after actions).Keyed := by
  induction actions generalizing records with
  | nil => exact h
  | cons a actions ih => exact ih (h.act a).append.1

theorem Keyed.after_perm (h : records.Keyed) (actions : List Action) :
    (records.after actions ++ (records.replies actions).flatMap Reply.given).Perm
      ((records.replies actions).flatMap Reply.accepted ++ records) := by
  induction actions generalizing records with
  | nil => simp [Records.after, replies]
  | cons a actions ih =>
      have hrest := ih (h.act a).append.1
      have hstep := h.act_perm a
      simp only [Records.after, replies, List.flatMap_cons]
      generalize (records.act a).2.after actions = final at hrest ⊢
      generalize ((records.act a).2.replies actions).flatMap Reply.given = given at hrest ⊢
      generalize ((records.act a).2.replies actions).flatMap Reply.accepted = accepted
        at hrest ⊢
      calc final ++ ((records.act a).1.given ++ given)
        _ ~ final ++ given ++ (records.act a).1.given := by
            rw [List.append_assoc]
            exact List.perm_append_comm.append_left final
        _ ~ accepted ++ (records.act a).2 ++ (records.act a).1.given := hrest.append_right _
        _ ~ accepted ++ ((records.act a).1.accepted ++ records) := by
            rw [List.append_assoc]
            exact hstep.append_left accepted
        _ ~ (records.act a).1.accepted ++ accepted ++ records := by
            rw [← List.append_assoc]
            exact List.perm_append_comm.append_right records

/-- A record stays as it is until one step gives it back. -/
theorem Keyed.kept_until (h : records.Keyed) {r : Record} (hr : r ∈ records)
    (actions : List Action) :
    (r ∈ records.after actions ∧
        ∀ other ∈ (records.replies actions).flatMap Reply.given, other.id ≠ r.id) ∨
      ∃ earlier a later, actions = earlier ++ a :: later ∧
        r ∈ records.after earlier ∧
        (∀ other ∈ (records.replies earlier).flatMap Reply.given, other.id ≠ r.id) ∧
        ((records.after earlier).act a).1.given.filter (·.id == r.id) = [r] ∧
        ∀ other ∈ ((records.after earlier).act a).2, other.id ≠ r.id := by
  -- Behind the step that gives the record back nothing more is to be shown.
  induction actions generalizing records with
  | nil => exact .inl ⟨hr, by simp [replies]⟩
  | cons a actions ih =>
      obtain ⟨hkept, hothers⟩ | ⟨hback, hgone⟩ := h.kept_or_given hr a
      · obtain ⟨hstays, hnone⟩ | ⟨earlier, b, later, rfl, hstays, hnone, hback⟩ :=
          ih (h.act a).append.1 hkept
        · refine .inl ⟨hstays, ?_⟩
          rw [replies, List.flatMap_cons, List.forall_mem_append]
          exact ⟨hothers, hnone⟩
        · refine .inr ⟨a :: earlier, b, later, rfl, hstays, ?_, hback⟩
          rw [replies, List.flatMap_cons, List.forall_mem_append]
          exact ⟨hothers, hnone⟩
      · exact .inr ⟨[], a, actions, rfl, hr, by simp [replies], hback, hgone⟩

end Runs

section Conflicts

variable {records : Records} {tx : Transaction}

theorem conflict?_eq_replay_iff :
    records.conflict? tx = some .replay ↔ ∃ old ∈ records, old.id = tx.txid := by
  rw [conflict?, ← isSome_find?_iff]
  split
  · simp [*]
  · simp [*]

theorem conflict?_of_unknown (h : ∀ old ∈ records, old.id ≠ tx.txid) :
    records.conflict? tx =
      (tx.outPoints.find? fun o => records.any (·.spends o)).map .spent := by
  refine if_neg ?_
  rw [isSome_find?_iff]
  simpa using h

theorem any_spends_iff (o : OutPoint) :
    records.any (·.spends o) ↔ ∃ old ∈ records, o ∈ old.fallback.outPoints := by
  rw [List.any_eq_true]
  simp only [Record.spends, List.contains_iff_mem]

theorem conflict?_eq_spent_iff (h : ∀ old ∈ records, old.id ≠ tx.txid) (o : OutPoint) :
    records.conflict? tx = some (.spent o) ↔ (∃ old ∈ records, o ∈ old.fallback.outPoints) ∧
      ∃ earlier later, tx.outPoints = earlier ++ o :: later ∧
        ∀ input ∈ earlier, ∀ old ∈ records, input ∉ old.fallback.outPoints := by
  rw [conflict?_of_unknown h, Option.map_eq_some_iff]
  simp only [Conflict.spent.injEq, exists_eq_right, List.find?_eq_some_iff_append, any_spends_iff,
    Bool.not_eq_true', ← Bool.not_eq_true, not_exists, not_and]

theorem conflict?_eq_none_iff (h : ∀ old ∈ records, old.id ≠ tx.txid) :
    records.conflict? tx = none ↔
      ∀ input ∈ tx.outPoints, ∀ old ∈ records, input ∉ old.fallback.outPoints := by
  rw [conflict?_of_unknown h, Option.map_eq_none_iff, List.find?_eq_none]
  simp only [any_spends_iff, not_exists, not_and]

theorem mem_exposed_iff (o : OutPoint) : o ∈ records.exposed ↔ ∃ r ∈ records, o ∈ r.coins := by
  rw [exposed, List.mem_eraseDups, List.mem_flatMap]

end Conflicts

/-- What is true of the records of a wallet after anything that was done with them, the fate of
each record that was added, and what a check and the exposed coins tell. -/
theorem after_accounts (history : List Action) :
    let records := Records.after [] history
    (∀ id r, records.find? id = some r ↔ r ∈ records ∧ r.id = id) ∧
      ((replies [] history).flatMap Reply.accepted).Perm
        (records ++ (replies [] history).flatMap Reply.given) ∧
      (∀ earlier r later, history = earlier ++ .add r :: later →
        (act (Records.after [] earlier) (.add r)).1 = .added r →
          let stored : Records := (act (Records.after [] earlier) (.add r)).2
          (r ∈ records ∧ ∀ other ∈ (stored.replies later).flatMap Reply.given, other.id ≠ r.id) ∨
            ∃ kept a rest, later = kept ++ a :: rest ∧ r ∈ stored.after kept ∧
              (∀ other ∈ (stored.replies kept).flatMap Reply.given, other.id ≠ r.id) ∧
              ((stored.after kept).act a).1.given.filter (·.id == r.id) = [r] ∧
              ∀ other ∈ ((stored.after kept).act a).2, other.id ≠ r.id) ∧
      (∀ r, (∃ old ∈ records, old.id = r.id) → records.act (.add r) = (.refused, records)) ∧
      (∀ r, (∀ old ∈ records, old.id ≠ r.id) →
        records.act (.add r) = (.added r, records ++ [r])) ∧
      (∀ tx, records.conflict? tx = some .replay ↔ ∃ old ∈ records, old.id = tx.txid) ∧
      (∀ tx, (∀ old ∈ records, old.id ≠ tx.txid) →
        (∀ o, records.conflict? tx = some (.spent o) ↔
          (∃ old ∈ records, o ∈ old.fallback.outPoints) ∧
            ∃ earlier later, tx.outPoints = earlier ++ o :: later ∧
              ∀ input ∈ earlier, ∀ old ∈ records, input ∉ old.fallback.outPoints) ∧
        (records.conflict? tx = none ↔
          ∀ input ∈ tx.outPoints, ∀ old ∈ records, input ∉ old.fallback.outPoints)) ∧
      ∀ o, o ∈ records.exposed ↔ ∃ r ∈ records, o ∈ r.coins := by
  intro records
  have hempty : Keyed [] := List.nodup_nil
  have hkeyed : records.Keyed := hempty.after history
  refine ⟨fun id r => hkeyed.find?_eq_some_iff, ?_, ?_, fun r hold => ?_, fun r hnew => ?_,
    fun tx => conflict?_eq_replay_iff,
    fun tx hnew => ⟨conflict?_eq_spent_iff hnew, conflict?_eq_none_iff hnew⟩, mem_exposed_iff⟩
  · have hperm := hempty.after_perm history
    rw [List.append_nil] at hperm
    exact hperm.symm
  · rintro earlier r later rfl hadded
    have hbefore : Keyed (Records.after [] earlier) := hempty.after earlier
    have hfinal : records = (act (Records.after [] earlier) (.add r)).2.after later :=
      after_append [] earlier (.add r :: later)
    rw [hfinal]
    exact (hbefore.act (.add r)).append.1.kept_until (mem_of_added hadded) later
  · rw [act, (add?_eq_none_iff records r).mpr hold]
  · rw [act, add?_eq_some hnew]

end Records

end Paydesk.Payjoin

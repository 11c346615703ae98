import Mathlib.Data.List.Perm.Basic
import Mathlib.Data.List.Nodup
import Paydesk.Payjoin.Selection

/-!
Locks and what they stand for: a list of locks covers what several parties hold
if it is made of just that, and no two of them hold the same.
-/

namespace Paydesk.Payjoin

open Chain Wallet

def Covers (locks held : List OutPoint) : Prop := locks.Perm held ∧ held.Nodup

namespace Covers

variable {locks held others mine new : List OutPoint}

theorem nil : Covers [] [] := ⟨.nil, List.nodup_nil⟩

theorem perm (h : Covers locks held) (hperm : held.Perm others) : Covers locks others :=
  ⟨h.1.trans hperm, hperm.nodup_iff.mp h.2⟩

theorem mem_iff (h : Covers locks held) (o : OutPoint) : o ∈ locks ↔ o ∈ held := h.1.mem_iff

theorem add (h : Covers locks held) (hnew : new.Nodup) (hfree : ∀ o ∈ new, o ∉ locks) :
    Covers (new ++ locks) (new ++ held) := by
  refine ⟨h.1.append_left new, List.nodup_append.mpr ⟨hnew, h.2, ?_⟩⟩
  rintro o hmine _ hheld rfl
  exact hfree o hmine ((h.mem_iff o).mpr hheld)

/-- Giving back what one party holds leaves the locks of the others, and no lock
of its own. -/
theorem release (h : Covers locks (mine ++ others)) :
    Covers (locks.filter (!mine.contains ·)) others := by
  obtain ⟨hmine, hothers, hdisjoint⟩ := List.nodup_append.mp h.2
  have hnone : mine.filter (!mine.contains ·) = [] := by
    rw [List.filter_eq_nil_iff]
    intro o ho
    simpa using ho
  have hall : others.filter (!mine.contains ·) = others := by
    rw [List.filter_eq_self]
    intro o ho
    have hfree : o ∉ mine := fun hm => hdisjoint o hm o ho rfl
    simpa using hfree
  refine ⟨?_, hothers⟩
  have hperm := h.1.filter (!mine.contains ·)
  rwa [List.filter_append, hnone, hall, List.nil_append] at hperm

end Covers

theorem filter_append_of_disjoint {new old : List OutPoint} (h : ∀ o ∈ new, o ∉ old) :
    (new ++ old).filter (!old.contains ·) = new := by
  have hnew : new.filter (!old.contains ·) = new := by
    rw [List.filter_eq_self]
    intro o ho
    simpa using h o ho
  have hold : old.filter (!old.contains ·) = [] := by
    rw [List.filter_eq_nil_iff]
    intro o ho
    simpa using ho
  rw [List.filter_append, hnew, hold, List.append_nil]

theorem filter_not_contains_append {new old held : List OutPoint} (h : ∀ o ∈ new, o ∉ old) :
    (new ++ old).filter (!(held ++ new).contains ·) = old.filter (!held.contains ·) := by
  have hnew : new.filter (!(held ++ new).contains ·) = [] := by
    rw [List.filter_eq_nil_iff]
    intro o ho
    simp [ho]
  rw [List.filter_append, hnew, List.nil_append]
  apply List.filter_congr
  intro o ho
  have hfree : o ∉ new := fun hn => h o hn ho
  simp [hfree]

namespace Locks

/-- Some inputs and coins that were free are locked, and nothing else changes. -/
structure Grants (before after : Locks) (inputs coins : List OutPoint) : Prop where
  inputs_eq : after.inputs = inputs ++ before.inputs
  coins_eq : after.coins = coins ++ before.coins
  inputs_nodup : inputs.Nodup
  coins_nodup : coins.Nodup
  inputs_free : ∀ o ∈ inputs, o ∉ before.inputs
  coins_free : ∀ o ∈ coins, o ∉ before.coins

theorem Grants.refl (locks : Locks) : Grants locks locks [] [] :=
  ⟨rfl, rfl, List.nodup_nil, List.nodup_nil, by simp, by simp⟩

theorem grants_of_lockInputs? {before after : Locks} {inputs : List OutPoint}
    (h : before.lockInputs? inputs = some after) : Grants before after inputs [] := by
  rw [lockInputs?] at h
  split at h
  · rename_i hfree
    obtain rfl := Option.some.inj h
    exact ⟨rfl, rfl, hfree.1, List.nodup_nil, hfree.2, by simp⟩
  · cases h

theorem grants_of_lockCoin? {before after : Locks} {coin : OutPoint}
    (h : before.lockCoin? coin = some after) : Grants before after [] [coin] := by
  rw [lockCoin?] at h
  split at h
  · cases h
  · rename_i hfree
    obtain rfl := Option.some.inj h
    refine ⟨rfl, rfl, List.nodup_nil, List.nodup_singleton coin, by simp, ?_⟩
    intro o ho
    obtain rfl := List.mem_singleton.mp ho
    simpa [isLocked] using hfree

theorem Grants.eq {before after : Locks} (h : Grants before after [] []) : after = before := by
  cases before
  cases after
  obtain ⟨rfl, rfl⟩ := And.intro h.inputs_eq h.coins_eq
  rfl

theorem Grants.filter_inputs {before after : Locks} {inputs coins : List OutPoint}
    (h : Grants before after inputs coins) :
    after.inputs.filter (!before.inputs.contains ·) = inputs := by
  rw [h.inputs_eq]
  exact filter_append_of_disjoint h.inputs_free

theorem Grants.filter_coins {before after : Locks} {inputs coins : List OutPoint}
    (h : Grants before after inputs coins) :
    after.coins.filter (!before.coins.contains ·) = coins := by
  rw [h.coins_eq]
  exact filter_append_of_disjoint h.coins_free

/-- What is given back right after it was taken makes no difference. -/
theorem Grants.unlock {before after : Locks} {inputs coins heldInputs heldCoins : List OutPoint}
    (h : Grants before after inputs coins) :
    (after.unlockInputs (heldInputs ++ inputs)).unlockCoins (heldCoins ++ coins) =
      (before.unlockInputs heldInputs).unlockCoins heldCoins := by
  simp only [unlockInputs, unlockCoins, h.inputs_eq, h.coins_eq]
  rw [filter_not_contains_append h.inputs_free, filter_not_contains_append h.coins_free]

/-- Gives back what somebody holds. -/
def unlock (locks mine : Locks) : Locks := (locks.unlockInputs mine.inputs).unlockCoins mine.coins

theorem unlock_empty (locks : Locks) : locks.unlock .empty = locks := by
  simp [unlock, unlockInputs, unlockCoins, empty]

/-- Several parties hold some locks each, and these are all the locks there are. -/
def Balances (locks : Locks) (holders : List Locks) : Prop :=
  Covers locks.coins (holders.flatMap coins) ∧ Covers locks.inputs (holders.flatMap inputs)

namespace Balances

variable {locks after mine : Locks} {holders holders' others : List Locks}

theorem nil : Balances .empty [] := ⟨.nil, .nil⟩

theorem perm (h : Balances locks holders) (hperm : holders.Perm holders') :
    Balances locks holders' :=
  ⟨h.1.perm (hperm.flatMap_right _), h.2.perm (hperm.flatMap_right _)⟩

theorem cons_empty : Balances locks (.empty :: others) ↔ Balances locks others := Iff.rfl

theorem unlock (h : Balances locks (mine :: others)) : Balances (locks.unlock mine) others :=
  ⟨h.1.release, h.2.release⟩

theorem grants {inputs coins : List OutPoint} (h : Balances locks (mine :: others))
    (hgrants : Grants locks after inputs coins) :
    Balances after (⟨mine.coins ++ coins, mine.inputs ++ inputs⟩ :: others) := by
  refine ⟨?_, ?_⟩
  · rw [hgrants.coins_eq]
    refine (h.1.add hgrants.coins_nodup hgrants.coins_free).perm ?_
    rw [List.flatMap_cons, List.flatMap_cons, ← List.append_assoc]
    exact List.perm_append_comm.append_right _
  · rw [hgrants.inputs_eq]
    refine (h.2.add hgrants.inputs_nodup hgrants.inputs_free).perm ?_
    rw [List.flatMap_cons, List.flatMap_cons, ← List.append_assoc]
    exact List.perm_append_comm.append_right _

theorem subset (h : Balances locks holders) (hmine : mine ∈ holders) :
    mine.coins ⊆ locks.coins ∧ mine.inputs ⊆ locks.inputs :=
  ⟨fun o ho => (h.1.mem_iff o).mpr (List.mem_flatMap_of_mem hmine ho),
    fun o ho => (h.2.mem_iff o).mpr (List.mem_flatMap_of_mem hmine ho)⟩

theorem pairwise (h : Balances locks holders) :
    holders.Pairwise fun a b => a.coins.Disjoint b.coins ∧ a.inputs.Disjoint b.inputs := by
  have hcoins := (List.nodup_flatMap.mp h.1.2).2
  have hinputs := (List.nodup_flatMap.mp h.2.2).2
  exact hcoins.and hinputs

end Balances

end Locks

namespace Selection

theorem search_eq_found {attempts : Nat} {before after : Locks} {coins : List Coin} {coin : Coin}
    (h : search attempts before coins = .found coin after) :
    coin ∈ coins ∧ before.lockCoin? coin.outPoint = some after := by
  induction coins generalizing attempts with
  | nil => cases attempts <;> cases h
  | cons c coins ih =>
      cases attempts with
      | zero => cases h
      | succ attempts =>
          rw [search] at h
          split at h
          · rename_i locks hlock
            obtain ⟨rfl, rfl⟩ := Search.found.inj h
            exact ⟨List.mem_cons_self, hlock⟩
          · obtain ⟨hmem, hlock⟩ := ih h
            exact ⟨List.mem_cons_of_mem _ hmem, hlock⟩

theorem select?_eq_some {candidates : List Coin} {before after : Locks} {payment : Nat}
    {others : List Nat} {coin : Coin}
    (h : select? candidates before payment others = some (coin, after)) :
    coin ∈ candidates ∧ before.lockCoin? coin.outPoint = some after := by
  rw [select?] at h
  split at h
  · rename_i found locks hsearch
    obtain ⟨rfl, rfl⟩ := Prod.mk.inj (Option.some.inj h)
    obtain ⟨hmem, hlock⟩ := search_eq_found hsearch
    exact ⟨List.mem_of_mem_filter hmem, hlock⟩
  · cases h
  · dsimp only at h
    split at h
    · rename_i found locks hsearch
      obtain ⟨rfl, rfl⟩ := Prod.mk.inj (Option.some.inj h)
      obtain ⟨hmem, hlock⟩ := search_eq_found hsearch
      exact ⟨List.mem_of_mem_filter hmem, hlock⟩
    · cases h

end Selection

end Paydesk.Payjoin

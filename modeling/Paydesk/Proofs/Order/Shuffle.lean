import Mathlib.Data.List.Perm.Basic
import Paydesk.Order.Shuffle

namespace Paydesk.Words

variable {α : Type}

theorem index_lt {n : Nat} (hn : 0 < n) (ws : Words) : (index n ws).1 < n := by
  induction ws with
  | nil => exact hn
  | cons w ws ih =>
      rw [index]
      split
      · have hlow : w % limit32 < limit32 := Nat.mod_lt _ (by decide)
        exact Nat.div_lt_of_lt_mul (Nat.mul_lt_mul_of_pos_right hlow hn)
      · exact ih

theorem choose?_isSome {items : List α} (h : items ≠ []) (ws : Words) :
    ((choose? items ws).1).isSome := by
  have hpos : 0 < items.length := List.length_pos_iff.mpr h
  have hlt := index_lt hpos ws
  simp [choose?, h, hlt]

theorem swapIfInBounds_perm (items : Array α) (i j : Nat) :
    (items.swapIfInBounds i j).Perm items := by
  rw [Array.swapIfInBounds]
  split
  · split
    · exact Array.swap_perm ..
    · exact .refl _
  · exact .refl _

theorem shuffleUpTo_perm (n : Nat) (items : Array α) (ws : Words) :
    (shuffleUpTo n items ws).1.Perm items := by
  induction n generalizing items ws with
  | zero => exact .refl _
  | succ n ih =>
      rw [shuffleUpTo]
      exact (ih _ _).trans (swapIfInBounds_perm ..)

theorem shuffle_perm (items : List α) (ws : Words) : (shuffle items ws).1.Perm items := by
  have h := shuffleUpTo_perm (items.length - 1) items.toArray ws
  simpa [shuffle] using Array.perm_iff_toList_perm.mp h

end Paydesk.Words

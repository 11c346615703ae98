import Paydesk.Proofs.Payjoin.Coins
import Paydesk.Proofs.Payjoin.Fees

/-!
The order in which coins are tried. No two identifiers of the length of a blind look the same
behind it, so that coins with different outpoints have one order only, however the wallet
lists them.
-/

namespace Paydesk.Payjoin

open Chain Wallet

namespace Blind

instance (blind : Blind) : Std.TransCmp blind.compare :=
  inferInstanceAs (Std.TransCmp (compareLex
    (fun a b : OutPoint => compareOn (fun o : OutPoint => blind.apply o.txid) b a)
    (compareOn OutPoint.vout)))

theorem apply_injective {blind : Blind} {a b : Bytes} (ha : a.length = blind.length)
    (hb : b.length = blind.length) (h : blind.apply a = blind.apply b) : a = b := by
  refine List.ext_getElem (ha.trans hb.symm) fun i hia hib => ?_
  have hi : i < blind.length := ha ▸ hia
  have hbyte : (blind.apply a)[i]? = (blind.apply b)[i]? := by rw [h]
  simpa [apply, List.getElem?_zipWith, hia, hib, hi] using hbyte

section Compare

variable {blind : Blind} {a b c : OutPoint}

theorem eq_of_compare_eq (ha : a.txid.length = blind.length) (hb : b.txid.length = blind.length)
    (h : blind.compare a b = .eq) : a = b := by
  obtain ⟨hblinded, hvout⟩ := Ordering.then_eq_eq.mp h
  have htxid : b.txid = a.txid := apply_injective hb ha (Std.LawfulEqCmp.eq_of_compare hblinded)
  cases a
  cases b
  simp_all

theorem eq_of_isLE (ha : a.txid.length = blind.length) (hb : b.txid.length = blind.length)
    (hab : (blind.compare a b).isLE) (hba : (blind.compare b a).isLE) : a = b :=
  eq_of_compare_eq ha hb (Std.OrientedCmp.isLE_antisymm hab hba)

theorem isLE_total (blind : Blind) (a b : OutPoint) :
    (blind.compare a b).isLE ∨ (blind.compare b a).isLE := by
  have hswap : blind.compare b a = (blind.compare a b).swap := Std.OrientedCmp.eq_swap
  rw [hswap]
  cases blind.compare a b <;> decide

theorem isLE_trans (hab : (blind.compare a b).isLE) (hbc : (blind.compare b c).isLE) :
    (blind.compare a c).isLE := Std.TransCmp.isLE_trans hab hbc

end Compare

section Sorted

variable {blind : Blind} {coins coins' : List Coin}

theorem sort_perm (blind : Blind) (coins : List Coin) : (blind.sort coins).Perm coins :=
  List.mergeSort_perm coins _

theorem sort_ascends (blind : Blind) (coins : List Coin) :
    (blind.sort coins).Pairwise fun a b => (blind.compare a.outPoint b.outPoint).isLE := by
  have hle : ∀ a b : Coin, (blind.compare a.outPoint b.outPoint != .gt) =
      (blind.compare a.outPoint b.outPoint).isLE := by
    intro a b
    cases blind.compare a.outPoint b.outPoint <;> rfl
  simp only [sort, hle]
  refine List.pairwise_mergeSort (fun a b c hab hbc => ?_) (fun a b => ?_) coins
  · exact isLE_trans hab hbc
  · rw [Bool.or_eq_true]
    exact blind.isLE_total a.outPoint b.outPoint

variable (hblind : ∀ coin ∈ coins, coin.outPoint.txid.length = blind.length)
  (hdistinct : (coins.map Coin.outPoint).Nodup)
include hblind hdistinct

theorem sort_eq_of_perm (hperm : coins.Perm coins') : blind.sort coins' = blind.sort coins := by
  have hsorted : (blind.sort coins').Perm coins := (blind.sort_perm coins').trans hperm.symm
  refine List.Perm.eq_of_pairwise (fun a b ha hb hab hba => ?_) (blind.sort_ascends coins')
    (blind.sort_ascends coins) (hsorted.trans (blind.sort_perm coins).symm)
  have ha := hsorted.subset ha
  have hb := (blind.sort_perm coins).subset hb
  exact List.inj_on_of_nodup_map hdistinct ha hb (eq_of_isLE (hblind a ha) (hblind b hb) hab hba)

theorem sort_ascends_strictly :
    (blind.sort coins).Pairwise fun a b => blind.compare a.outPoint b.outPoint = .lt := by
  have hdistinct' : (blind.sort coins).Pairwise fun a b => a.outPoint ≠ b.outPoint :=
    List.pairwise_map.mp (((blind.sort_perm coins).map Coin.outPoint).nodup_iff.mpr hdistinct)
  refine ((blind.sort_ascends coins).and hdistinct').imp_of_mem fun {a b} ha hb h => ?_
  have ha := hblind a ((blind.sort_perm coins).subset ha)
  have hb := hblind b ((blind.sort_perm coins).subset hb)
  cases hcmp : blind.compare a.outPoint b.outPoint with
  | lt => rfl
  | eq => exact absurd (eq_of_compare_eq ha hb hcmp) h.2
  | gt => simp [hcmp] at h

end Sorted

end Blind

namespace Submission

variable {settings : Settings} {coins coins' : List Coin}

/-- A coin is picked from what the wallet lists, in whatever order it lists it. -/
theorem picked?_eq_of_perm
    (hblind : ∀ coin ∈ coins, coin.outPoint.txid.length = settings.blind.length)
    (hdistinct : (coins.map Coin.outPoint).Nodup) (hperm : coins.Perm coins') (a : Accepted)
    (t : Target) (exposed : List OutPoint) (locks : Locks) :
    picked? settings a t exposed coins' locks = picked? settings a t exposed coins locks := by
  have hsub := (List.filter_sublist (l := coins) (p := fun coin =>
    !a.fallback.outPoints.contains coin.outPoint && !exposed.contains coin.outPoint))
  rw [picked?, Blind.sort_eq_of_perm (fun coin hcoin => hblind coin (hsub.subset hcoin))
    (hdistinct.sublist (hsub.map _)) (hperm.filter _), picked?]

theorem choose_eq_of_picked? {a : Accepted} {t : Target} {exposed : List OutPoint}
    (h : ∀ locks, picked? settings a t exposed coins' locks =
      picked? settings a t exposed coins locks) :
    choose settings a t exposed coins' = choose settings a t exposed coins := by
  funext s
  have h := h s.desk.locks
  cases hpicked : picked? settings a t exposed coins s.desk.locks with
  | none => exact (choose_of_none (h.trans hpicked)).trans (choose_of_none hpicked).symm
  | some r =>
      by_cases hlone : a.fallback.outputs.length = 1
      · exact (choose_of_split (h.trans hpicked) hlone).trans (choose_of_split hpicked hlone).symm
      · exact (choose_of_draft (h.trans hpicked) hlone).trans (choose_of_draft hpicked hlone).symm

/-- A blind orders outpoints totally, and coins with different outpoints have one order. So the
order in which a wallet lists its coins decides nothing: not which coin is picked, and not what
becomes of the submission. -/
theorem choice_ignores_listing (settings : Settings) (hblind : settings.blind.length = 32) :
    let compare := settings.blind.compare
    (∀ a b, (compare a b).isLE ∨ (compare b a).isLE) ∧
      (∀ a b, compare b a = (compare a b).swap) ∧
      (∀ a b c, (compare a b).isLE → (compare b c).isLE → (compare a c).isLE) ∧
      (∀ a b : OutPoint, a.txid.length = 32 → b.txid.length = 32 →
        (compare a b = .eq ↔ a = b)) ∧
      ∀ coins coins' : List Coin, coins.Perm coins' → (coins.map Coin.outPoint).Nodup →
        (∀ coin ∈ coins, coin.outPoint.txid.length = 32) →
        settings.blind.sort coins' = settings.blind.sort coins ∧
        (settings.blind.sort coins).Perm coins ∧
        (settings.blind.sort coins).Pairwise (fun a b => compare a.outPoint b.outPoint = .lt) ∧
        ∀ a t exposed,
          (∀ locks, picked? settings a t exposed coins' locks =
            picked? settings a t exposed coins locks) ∧
          ∀ now, resume settings now (.choosing a t exposed) (.ok coins') =
            resume settings now (.choosing a t exposed) (.ok coins) := by
  intro compare
  rw [← hblind]
  refine ⟨settings.blind.isLE_total, fun a b => Std.OrientedCmp.eq_swap,
    fun a b c => Blind.isLE_trans, fun a b ha hb => ⟨Blind.eq_of_compare_eq ha hb, ?_⟩,
    fun coins coins' hperm hdistinct hids => ⟨Blind.sort_eq_of_perm hids hdistinct hperm,
      settings.blind.sort_perm coins, Blind.sort_ascends_strictly hids hdistinct,
      fun a t exposed => ?_⟩⟩
  · rintro rfl
    exact Std.ReflCmp.compare_self
  · have hpicked := picked?_eq_of_perm hids hdistinct hperm a t exposed
    exact ⟨hpicked, fun now => choose_eq_of_picked? hpicked⟩

end Submission

namespace Blind.Sample

/-- A blind that turns the order of the identifiers around. -/
def settings : Settings := ⟨"BTC", 60000, 250, List.replicate 32 0xff⟩

def first : Coin := ⟨⟨List.replicate 32 1, 0⟩, ⟨3000, []⟩, []⟩

def second : Coin := ⟨⟨List.replicate 32 1, 1⟩, ⟨9000, []⟩, []⟩

def third : Coin := ⟨⟨List.replicate 32 2, 0⟩, ⟨800, []⟩, []⟩

theorem picks_from_reversed_listing :
    settings.blind.length = 32 ∧ [first, second, third].Perm [third, second, first] ∧
      ([first, second, third].map Coin.outPoint).Nodup ∧
      (∀ coin ∈ [first, second, third], coin.outPoint.txid.length = 32) ∧
      settings.blind.compare second.outPoint third.outPoint = .lt ∧
      settings.blind.sort [third, second, first] = [first, second, third] ∧
      Submission.picked? settings Draft.Sample.accepted Draft.Sample.target []
          [third, second, first] .empty =
        Submission.picked? settings Draft.Sample.accepted Draft.Sample.target []
          [first, second, third] .empty := by
  have hperm : [first, second, third].Perm [third, second, first] :=
    (List.reverse_perm [third, second, first])
  have hdistinct : ([first, second, third].map Coin.outPoint).Nodup := by decide
  have hids : ∀ coin ∈ [first, second, third], coin.outPoint.txid.length = 32 := by decide
  have hsorted : settings.blind.sort [first, second, third] = [first, second, third] :=
    List.mergeSort_of_pairwise (by decide)
  obtain ⟨-, -, -, -, hlists⟩ := Submission.choice_ignores_listing settings rfl
  obtain ⟨hsame, -, hascends, hpicks⟩ := hlists _ _ hperm hdistinct hids
  rw [hsorted] at hsame hascends
  obtain ⟨-, htail⟩ := List.pairwise_cons.mp hascends
  exact ⟨rfl, hperm, hdistinct, hids, (List.pairwise_cons.mp htail).1 third List.mem_cons_self,
    hsame, (hpicks _ _ _).1 _⟩

end Blind.Sample

end Paydesk.Payjoin

import Paydesk.Proofs.Payjoin.Locks

/-!
Which coin is chosen. The coins that tell nothing of the payment stand before those that do,
and of the first thirty the first one that is free is taken.
-/

namespace Paydesk.Payjoin

open Chain Wallet

theorem Locks.lockCoin?_eq (locks : Locks) (coin : OutPoint) :
    locks.lockCoin? coin = if locks.isLocked coin then none
      else some { locks with coins := coin :: locks.coins } := rfl

namespace Selection

/-- Coins in the order in which they are tried. -/
def ranked (payment : Nat) (others : List Nat) (candidates : List Coin) : List Coin :=
  (candidates.filter fun coin => !revealsPayment payment others coin) ++
    candidates.filter (revealsPayment payment others)

def firstFree (locks : Locks) (coins : List Coin) : Option Coin :=
  coins.find? fun coin => !locks.isLocked coin.outPoint

/-- The coins up to the first one that is free. -/
def upToFree (locks : Locks) : List Coin → List Coin
  | [] => []
  | coin :: coins => coin :: if locks.isLocked coin.outPoint then upToFree locks coins else []

/-- A search that also tells which coins it tried to lock. -/
def searchTold : Nat → Locks → List Coin → Search × List Coin
  | attempts, _, [] => (.exhausted attempts, [])
  | 0, _, _ :: _ => (.stopped, [])
  | attempts + 1, locks, coin :: coins =>
      match locks.lockCoin? coin.outPoint with
      | some locks => (.found coin locks, [coin])
      | none => ((searchTold attempts locks coins).1, coin :: (searchTold attempts locks coins).2)

/-- A choice that also tells which coins it tried to lock. -/
def selectTold (candidates : List Coin) (locks : Locks) (payment : Nat) (others : List Nat) :
    Option (Coin × Locks) × List Coin :=
  let discreet := candidates.filter fun coin => !revealsPayment payment others coin
  match searchTold maxAttempts locks discreet with
  | (.found coin locks, tried) => (some (coin, locks), tried)
  | (.stopped, tried) => (none, tried)
  | (.exhausted attempts, tried) =>
      let refused := discreet.map Coin.outPoint
      match searchTold attempts locks
          (candidates.filter fun coin => !refused.contains coin.outPoint) with
      | (.found coin locks, more) => (some (coin, locks), tried ++ more)
      | (_, more) => (none, tried ++ more)

theorem searchTold_fst (attempts : Nat) (locks : Locks) (coins : List Coin) :
    (searchTold attempts locks coins).1 = search attempts locks coins := by
  induction coins generalizing attempts with
  | nil => cases attempts <;> rfl
  | cons coin coins ih =>
      cases attempts with
      | zero => rfl
      | succ attempts =>
          rw [searchTold, search]
          cases locks.lockCoin? coin.outPoint with
          | some locked => rfl
          | none => exact ih attempts

theorem selectTold_fst (candidates : List Coin) (locks : Locks) (payment : Nat)
    (others : List Nat) :
    (selectTold candidates locks payment others).1 = select? candidates locks payment others := by
  unfold selectTold select?
  simp only [← searchTold_fst]
  rcases searchTold maxAttempts locks _ with ⟨found | attempts | _, tried⟩
  · rfl
  · dsimp only
    rcases searchTold attempts locks _ with ⟨found | _ | _, more⟩ <;> rfl
  · rfl

section Search

variable {attempts : Nat} {locks : Locks} {coins : List Coin}

theorem searchTold_cons_locked {coin : Coin} (h : locks.isLocked coin.outPoint) :
    searchTold (attempts + 1) locks (coin :: coins) =
      ((searchTold attempts locks coins).1, coin :: (searchTold attempts locks coins).2) := by
  rw [searchTold, Locks.lockCoin?_eq, if_pos h]

theorem searchTold_cons_free {coin : Coin} (h : locks.isLocked coin.outPoint = false) :
    searchTold (attempts + 1) locks (coin :: coins) =
      (.found coin { locks with coins := coin.outPoint :: locks.coins }, [coin]) := by
  rw [searchTold, Locks.lockCoin?_eq, h]
  rfl

/-- What a search finds is the first free coin among those for which there are attempts. -/
theorem searchTold_of_firstFree {coin : Coin}
    (h : firstFree locks (coins.take attempts) = some coin) : searchTold attempts locks coins =
      (.found coin { locks with coins := coin.outPoint :: locks.coins },
        upToFree locks (coins.take attempts)) := by
  induction coins generalizing attempts with
  | nil => simp [firstFree] at h
  | cons c coins ih =>
      cases attempts with
      | zero => simp [firstFree] at h
      | succ attempts =>
          rw [List.take_succ_cons, firstFree, List.find?_cons] at h
          rw [List.take_succ_cons, upToFree]
          cases hlocked : locks.isLocked c.outPoint with
          | true =>
              rw [hlocked] at h
              rw [searchTold_cons_locked hlocked, ih h, if_pos rfl]
          | false =>
              rw [hlocked] at h
              obtain rfl := Option.some.inj h
              rw [searchTold_cons_free hlocked, if_neg Bool.false_ne_true]

/-- Where none of these coins is free, all of them are tried, and either there are attempts
left for others or some coin was not tried. -/
theorem searchTold_of_firstFree_eq_none (h : firstFree locks (coins.take attempts) = none) :
    searchTold attempts locks coins =
      (if coins.length ≤ attempts then .exhausted (attempts - coins.length) else .stopped,
        coins.take attempts) := by
  induction coins generalizing attempts with
  | nil => cases attempts <;> rfl
  | cons c coins ih =>
      cases attempts with
      | zero => rfl
      | succ attempts =>
          rw [List.take_succ_cons, firstFree, List.find?_cons] at h
          cases hlocked : locks.isLocked c.outPoint with
          | true =>
              rw [hlocked] at h
              simp [searchTold_cons_locked hlocked, ih h]
          | false =>
              rw [hlocked] at h
              cases h

end Search

section Ranks

variable {locks : Locks} {coins : List Coin}

theorem firstFree_append (locks : Locks) (coins more : List Coin) :
    firstFree locks (coins ++ more) = (firstFree locks coins).or (firstFree locks more) :=
  List.find?_append

theorem upToFree_prefix (locks : Locks) (coins : List Coin) : upToFree locks coins <+: coins := by
  induction coins with
  | nil => exact List.nil_prefix
  | cons coin coins ih =>
      rw [upToFree]
      split
      · exact List.cons_prefix_cons.mpr ⟨rfl, ih⟩
      · exact List.cons_prefix_cons.mpr ⟨rfl, List.nil_prefix⟩

theorem upToFree_append_of_some {coin : Coin} (h : firstFree locks coins = some coin)
    (more : List Coin) : upToFree locks (coins ++ more) = upToFree locks coins := by
  induction coins with
  | nil => cases h
  | cons c coins ih =>
      rw [firstFree, List.find?_cons] at h
      rw [List.cons_append, upToFree, upToFree]
      cases hlocked : locks.isLocked c.outPoint with
      | true =>
          rw [hlocked] at h
          rw [if_pos rfl, if_pos rfl, ih h]
      | false => rfl

theorem upToFree_append_of_none (h : firstFree locks coins = none) (more : List Coin) :
    upToFree locks (coins ++ more) = coins ++ upToFree locks more := by
  induction coins with
  | nil => rfl
  | cons c coins ih =>
      rw [firstFree, List.find?_cons] at h
      rw [List.cons_append, upToFree]
      cases hlocked : locks.isLocked c.outPoint with
      | true =>
          rw [hlocked] at h
          rw [if_pos rfl, ih h, List.cons_append]
      | false =>
          rw [hlocked] at h
          cases h

end Ranks

section Select

variable {candidates : List Coin} (hdistinct : (candidates.map Coin.outPoint).Nodup)
include hdistinct

/-- Of coins with different outpoints, those that are left after the discreet ones are the
others. -/
theorem filter_not_refused (p : Coin → Bool) :
    (candidates.filter fun coin =>
      !((candidates.filter fun coin => !p coin).map Coin.outPoint).contains coin.outPoint) =
      candidates.filter p := by
  refine List.filter_congr fun coin hcoin => ?_
  have hrefused : coin.outPoint ∈ (candidates.filter fun coin => !p coin).map Coin.outPoint ↔
      p coin = false := by
    constructor
    · intro h
      obtain ⟨other, hother, hsame⟩ := List.mem_map.mp h
      obtain ⟨hmem, hdiscreet⟩ := List.mem_filter.mp hother
      obtain rfl := List.inj_on_of_nodup_map hdistinct hmem hcoin hsame
      simpa using hdiscreet
    · intro h
      exact List.mem_map_of_mem (List.mem_filter.mpr ⟨hcoin, by rw [h]; rfl⟩)
  rw [Bool.eq_iff_iff, Bool.not_eq_true', ← Bool.not_eq_true, List.contains_iff_mem, hrefused,
    Bool.not_eq_false]

theorem selectTold_eq (locks : Locks) (payment : Nat) (others : List Nat) :
    selectTold candidates locks payment others =
      ((firstFree locks ((ranked payment others candidates).take maxAttempts)).map fun coin =>
          (coin, { locks with coins := coin.outPoint :: locks.coins }),
        upToFree locks ((ranked payment others candidates).take maxAttempts)) := by
  rw [ranked, List.take_append, firstFree_append]
  dsimp only [selectTold]
  rw [filter_not_refused hdistinct (revealsPayment payment others)]
  generalize (candidates.filter fun coin => !revealsPayment payment others coin) = discreet
  generalize candidates.filter (revealsPayment payment others) = revealing
  cases hfree : firstFree locks (discreet.take maxAttempts) with
  | some coin =>
      rw [searchTold_of_firstFree hfree, upToFree_append_of_some hfree]
      rfl
  | none =>
      rw [searchTold_of_firstFree_eq_none hfree, upToFree_append_of_none hfree, Option.none_or]
      -- The second search begins only if attempts are left after all discreet coins.
      by_cases hall : discreet.length ≤ maxAttempts
      · rw [if_pos hall]
        dsimp only
        cases hmore : firstFree locks (revealing.take (maxAttempts - discreet.length)) with
        | some coin =>
            rw [searchTold_of_firstFree hmore]
            rfl
        | none =>
            have htried : upToFree locks (revealing.take (maxAttempts - discreet.length)) =
                revealing.take (maxAttempts - discreet.length) := by
              simpa [upToFree] using upToFree_append_of_none hmore []
            rw [searchTold_of_firstFree_eq_none hmore, htried]
            by_cases hrest : revealing.length ≤ maxAttempts - discreet.length
            · rw [if_pos hrest]
              rfl
            · rw [if_neg hrest]
              rfl
      · rw [if_neg hall, Nat.sub_eq_zero_of_le (Nat.le_of_not_le hall)]
        simp [firstFree, upToFree]

end Select

theorem revealsPayment_iff (payment : Nat) (others : List Nat) (coin : Coin) :
    revealsPayment payment others coin ↔
      (∃ other ∈ others, other < coin.output.value) ∨
        payment + total others < coin.output.value := by
  rw [revealsPayment, Bool.or_eq_true, List.any_eq_true, decide_eq_true_iff]
  simp only [decide_eq_true_iff]

/-- A coin that reveals the payment comes after all those that do not. -/
theorem locked_of_revealsPayment {payment attempts : Nat} {others : List Nat}
    {candidates : List Coin} {locks : Locks} {coin : Coin}
    (h : firstFree locks ((ranked payment others candidates).take attempts) = some coin)
    (hreveals : revealsPayment payment others coin) {other : Coin} (hother : other ∈ candidates)
    (hdiscreet : ¬ revealsPayment payment others other) : locks.isLocked other.outPoint := by
  have hmem : other ∈ candidates.filter fun coin => !revealsPayment payment others coin :=
    List.mem_filter.mpr ⟨hother, by simpa using hdiscreet⟩
  rw [ranked, List.take_append, firstFree_append] at h
  revert hmem h
  generalize hd : (candidates.filter fun coin => !revealsPayment payment others coin) = discreet
  intro h hmem
  cases hfree : firstFree locks (discreet.take attempts) with
  | some first =>
      rw [hfree, Option.some_or] at h
      obtain rfl := Option.some.inj h
      have hfirst := List.mem_of_mem_take (List.mem_of_find?_eq_some hfree)
      rw [← hd, List.mem_filter, hreveals] at hfirst
      cases hfirst.2
  | none =>
      rw [hfree, Option.none_or] at h
      -- There is an attempt left for a coin that reveals the payment.
      have hleft : attempts - discreet.length ≠ 0 := by
        intro hnone
        rw [hnone] at h
        cases h
      rw [List.take_of_length_le (by omega)] at hfree
      simpa using List.find?_eq_none.mp hfree other hmem

/-- The coin that is chosen is the first free one of the first thirty, where those that do not
reveal the payment come first. Nothing but this coin is locked then. -/
theorem select?_eq_firstFree (locks : Locks) (payment : Nat) (others : List Nat)
    (candidates : List Coin) (hdistinct : (candidates.map Coin.outPoint).Nodup) :
    let reveals := revealsPayment payment others
    let order := candidates.filter (!reveals ·) ++ candidates.filter reveals
    let pick := (order.take 30).find? fun coin => coin.outPoint ∉ locks.coins
    let chosen := select? candidates locks payment others
    let tried := (selectTold candidates locks payment others).2
    (∀ coin, reveals coin ↔ (∃ other ∈ others, other < coin.output.value) ∨
        payment + total others < coin.output.value) ∧
      chosen.map Prod.fst = pick ∧
      (chosen.map Prod.snd).getD locks =
        { locks with coins := (pick.map Coin.outPoint).toList ++ locks.coins } ∧
      (∀ coin ∈ pick, reveals coin → ∀ other ∈ candidates, ¬ reveals other →
        other.outPoint ∈ locks.coins) ∧
      (selectTold candidates locks payment others).1 = chosen ∧
      tried <+: order ∧ tried.length ≤ 30 := by
  intro reveals order pick chosen tried
  have hpick : firstFree locks ((ranked payment others candidates).take maxAttempts) = pick := by
    refine congrArg (List.find? · _) (funext fun coin => ?_)
    simp [Locks.isLocked]
  obtain ⟨hresult, hupTo⟩ := Prod.ext_iff.mp (selectTold_eq hdistinct locks payment others)
  have hchosen : chosen = pick.map fun coin =>
      (coin, { locks with coins := coin.outPoint :: locks.coins }) := by
    rw [← hpick]
    exact (selectTold_fst candidates locks payment others).symm.trans hresult
  have htried : tried <+: order.take maxAttempts := by
    rw [show tried = upToFree locks (order.take maxAttempts) from hupTo]
    exact upToFree_prefix locks _
  refine ⟨revealsPayment_iff payment others, ?_, ?_, ?_, selectTold_fst _ _ _ _,
    htried.trans (List.take_prefix _ _), ?_⟩
  · rw [hchosen]
    cases pick <;> rfl
  · rw [hchosen]
    cases pick <;> rfl
  · intro coin hcoin hreveals other hother hdiscreet
    have hlocked := locked_of_revealsPayment (hpick.trans hcoin) hreveals hother hdiscreet
    simpa [Locks.isLocked] using hlocked
  · exact Nat.le_trans htried.length_le (List.length_take_le _ _)

namespace Sample

def own : Coin := ⟨⟨List.replicate 32 1, 0⟩, ⟨3000, []⟩, []⟩

def small : Coin := ⟨⟨List.replicate 32 2, 0⟩, ⟨800, []⟩, []⟩

/-- The only coin that does not reveal the payment is in use. -/
def locks : Locks := ⟨[small.outPoint], []⟩

theorem selects_own :
    ([own, small].map Coin.outPoint).Nodup ∧
      (select? [own, small] locks 4000 [1000]).map Prod.fst = some own ∧
      ((select? [own, small] locks 4000 [1000]).map Prod.snd).getD locks =
        ⟨[own.outPoint, small.outPoint], []⟩ ∧
      small.outPoint ∈ locks.coins := by
  have hdistinct : ([own, small].map Coin.outPoint).Nodup := by decide
  obtain ⟨-, hfirst, hlocks, hothers, -⟩ :=
    select?_eq_firstFree locks 4000 [1000] [own, small] hdistinct
  exact ⟨hdistinct, hfirst.trans (by decide), hlocks.trans (by decide),
    hothers own (by decide) (by decide) small (by decide) (by decide)⟩

end Sample

end Selection

end Paydesk.Payjoin

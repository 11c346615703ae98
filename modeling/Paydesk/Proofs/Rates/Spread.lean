import Paydesk.Proofs.Decimal.Quotient
import Paydesk.Rates.Documents
import Paydesk.Rates.Expr

/-!
Spreads whose sides are in order, and that there are no others: whatever is
done with spreads, the bid of the result is not above its ask, although each
side is rounded at places of its own.
-/

namespace Paydesk.Rates

open Text

namespace Spread

/-- The bid is not above the ask. -/
def Ordered (s : Spread) : Prop := s.bid.le s.ask

variable {s t v : Spread}

theorem ordered_iff : s.Ordered ↔ s.bid.value ≤ s.ask.value := Decimal.le_iff_value

theorem isPoint_iff : s.isPoint ↔ s.bid.value = s.ask.value := Decimal.sameValue_iff_value

theorem ordered_point (d : Decimal) : (point d).Ordered := ordered_iff.mpr le_rfl

theorem make_eq_ok {bid ask : Decimal} :
    make bid ask = .ok s ↔ ¬ask.lt bid ∧ s = ⟨bid, ask⟩ := by
  unfold make
  split_ifs with h <;> simp [h, eq_comm]

theorem ordered_of_make {bid ask : Decimal} (h : make bid ask = .ok s) : s.Ordered := by
  obtain ⟨hlt, rfl⟩ := make_eq_ok.mp h
  exact ordered_iff.mpr (not_lt.mp (mt Decimal.lt_iff_value.mpr hlt))

theorem ordered_of_ofJson? {document : Json} (h : ofJson? document = some s) : s.Ordered := by
  have hsides {bid ask : Json} (h : ofJson?.sides? bid ask = some s) : s.Ordered := by
    simp only [ofJson?.sides?, Option.bind_eq_bind, Option.bind_eq_some_iff] at h
    obtain ⟨b, -, a, -, h⟩ := h
    cases hmake : make b a with
    | error e => simp [hmake, Except.toOption] at h
    | ok made =>
        rw [hmake] at h
        cases h
        exact ordered_of_make hmake
  unfold ofJson? at h
  split at h
  · split at h
    · exact hsides h
    · cases h
  · exact hsides h
  · cases h

section Inverse

theorem ordered_ordered (a b : Decimal) : (ordered a b).Ordered := by
  unfold ordered
  split_ifs with h
  · exact h
  · exact ordered_iff.mpr (le_of_not_ge (mt Decimal.le_iff_value.mpr h))

theorem inverse?_eq_some : s.inverse? = some v ↔
    ∃ a b, Decimal.one.div? s.ask = some a ∧ Decimal.one.div? s.bid = some b ∧ v = ordered a b := by
  simp only [inverse?, Option.bind_eq_bind, Option.bind_eq_some_iff, Option.some.injEq]
  constructor
  · rintro ⟨a, ha, b, hb, rfl⟩
    exact ⟨a, b, ha, hb, rfl⟩
  · rintro ⟨a, b, ha, hb, rfl⟩
    exact ⟨a, ha, b, hb, rfl⟩

theorem ordered_of_inverse? (h : s.inverse? = some v) : v.Ordered := by
  obtain ⟨a, b, -, -, rfl⟩ := inverse?_eq_some.mp h
  exact ordered_ordered a b

end Inverse

section Sums

theorem add?_eq_some : s.add? t = some v ↔
    s.bid.add? t.bid = some v.bid ∧ s.ask.add? t.ask = some v.ask := by
  simp only [add?, Option.bind_eq_bind, Option.bind_eq_some_iff, Option.some.injEq]
  constructor
  · rintro ⟨bid, hbid, ask, hask, rfl⟩
    exact ⟨hbid, hask⟩
  · rintro ⟨hbid, hask⟩
    exact ⟨v.bid, hbid, v.ask, hask, rfl⟩

theorem sub?_eq_some : s.sub? t = some v ↔
    s.bid.sub? t.ask = some v.bid ∧ s.ask.sub? t.bid = some v.ask := by
  simp only [sub?, Option.bind_eq_bind, Option.bind_eq_some_iff, Option.some.injEq]
  constructor
  · rintro ⟨bid, hbid, ask, hask, rfl⟩
    exact ⟨hbid, hask⟩
  · rintro ⟨hbid, hask⟩
    exact ⟨v.bid, hbid, v.ask, hask, rfl⟩

/-- The two sums are rounded each at its own places, but in their order. -/
theorem ordered_of_add? (hs : s.Ordered) (ht : t.Ordered) (h : s.add? t = some v) : v.Ordered := by
  obtain ⟨hbid, hask⟩ := add?_eq_some.mp h
  rw [ordered_iff] at hs ht ⊢
  exact (Decimal.rounds_add? hbid).mono (Decimal.rounds_add? hask) (add_le_add hs ht)

theorem ordered_of_sub? (hs : s.Ordered) (ht : t.Ordered) (h : s.sub? t = some v) : v.Ordered := by
  obtain ⟨hbid, hask⟩ := sub?_eq_some.mp h
  rw [ordered_iff] at hs ht ⊢
  exact (Decimal.rounds_sub? hbid).mono (Decimal.rounds_sub? hask) (sub_le_sub hs ht)

end Sums

section Products

variable {d : Decimal} {ds : List Decimal}

/-- A choice between two, made along a list, keeps one of its members. -/
theorem foldl_pick_mem {pick : Decimal → Decimal → Decimal}
    (hpick : ∀ a b, pick a b = a ∨ pick a b = b) (d : Decimal) (ds : List Decimal) :
    ds.foldl pick d ∈ d :: ds := by
  induction ds generalizing d with
  | nil => exact List.mem_cons_self
  | cons e ds ih =>
      rw [List.foldl_cons]
      rcases List.mem_cons.mp (ih (pick d e)) with h | h
      · rw [h]
        rcases hpick d e with h | h <;> simp [h]
      · exact List.mem_cons_of_mem _ (List.mem_cons_of_mem _ h)

/-- What is at least as good as either of two is as good as all of the list. -/
theorem foldl_pick_rel {pick : Decimal → Decimal → Decimal} {r : ℚ → ℚ → Prop}
    (hrefl : ∀ x, r x x) (htrans : ∀ {x y z}, r x y → r y z → r x z)
    (hpick : ∀ a b, r (pick a b).value a.value ∧ r (pick a b).value b.value)
    {e : Decimal} (he : e ∈ d :: ds) : r (ds.foldl pick d).value e.value := by
  induction ds generalizing d e with
  | nil => exact List.mem_singleton.mp he ▸ hrefl _
  | cons f ds ih =>
      rw [List.foldl_cons]
      have hbest : r (ds.foldl pick (pick d f)).value (pick d f).value := ih List.mem_cons_self
      rcases List.mem_cons.mp he with rfl | he
      · exact htrans hbest (hpick e f).1
      rcases List.mem_cons.mp he with rfl | he
      · exact htrans hbest (hpick d e).2
      · exact ih (List.mem_cons_of_mem _ he)

theorem least_mem (d : Decimal) (ds : List Decimal) : least d ds ∈ d :: ds :=
  foldl_pick_mem (fun _ _ => by split_ifs <;> simp) d ds

theorem greatest_mem (d : Decimal) (ds : List Decimal) : greatest d ds ∈ d :: ds :=
  foldl_pick_mem (fun _ _ => by split_ifs <;> simp) d ds

theorem least_le {e : Decimal} (he : e ∈ d :: ds) : (least d ds).value ≤ e.value := by
  refine foldl_pick_rel (r := (· ≤ ·)) le_refl le_trans (fun a b => ?_) he
  split_ifs with h
  · exact ⟨(Decimal.lt_iff_value.mp h).le, le_rfl⟩
  · exact ⟨le_rfl, not_lt.mp (mt Decimal.lt_iff_value.mpr h)⟩

theorem le_greatest {e : Decimal} (he : e ∈ d :: ds) : e.value ≤ (greatest d ds).value := by
  refine foldl_pick_rel (r := (· ≥ ·)) le_refl ge_trans (fun a b => ?_) he
  split_ifs with h
  · exact ⟨le_rfl, (Decimal.lt_iff_value.mp h).le⟩
  · exact ⟨not_lt.mp (mt Decimal.lt_iff_value.mpr h), le_rfl⟩

theorem mul?_eq_some : s.mul? t = some v ↔ ∃ p q r u,
    s.bid.mul? t.bid = some p ∧ s.bid.mul? t.ask = some q ∧
      s.ask.mul? t.bid = some r ∧ s.ask.mul? t.ask = some u ∧
      v = ⟨least p [q, r, u], greatest p [q, r, u]⟩ := by
  simp only [mul?, Option.bind_eq_bind, Option.bind_eq_some_iff, Option.some.injEq]
  constructor
  · rintro ⟨p, hp, q, hq, r, hr, u, hu, rfl⟩
    exact ⟨p, q, r, u, hp, hq, hr, hu, rfl⟩
  · rintro ⟨p, q, r, u, hp, hq, hr, hu, rfl⟩
    exact ⟨p, hp, q, hq, r, hr, u, hu, rfl⟩

theorem ordered_of_mul? (h : s.mul? t = some v) : v.Ordered := by
  obtain ⟨p, q, r, u, -, -, -, -, rfl⟩ := mul?_eq_some.mp h
  exact ordered_iff.mpr ((least_le List.mem_cons_self).trans (le_greatest List.mem_cons_self))

theorem div?_eq_some : s.div? t = some v ↔
    t.touchesZero = false ∧ ∃ u, t.inverse? = some u ∧ s.mul? u = some v := by
  unfold div?
  split_ifs with h
  · simp [h]
  · simp [h, Option.bind_eq_some_iff]

theorem ordered_of_div? (h : s.div? t = some v) : v.Ordered := by
  obtain ⟨-, u, -, hmul⟩ := div?_eq_some.mp h
  exact ordered_of_mul? hmul

end Products

/-- The result of an operation on two spreads, if there is one. -/
def combine? (op : BinaryOp) (s t : Spread) : Option Spread :=
  match op with
  | .add => s.add? t
  | .sub => s.sub? t
  | .mul => s.mul? t
  | .div => s.div? t

theorem ordered_of_combine? {op : BinaryOp} (hs : s.Ordered) (ht : t.Ordered)
    (h : combine? op s t = some v) : v.Ordered := by
  cases op with
  | add => exact ordered_of_add? hs ht h
  | sub => exact ordered_of_sub? hs ht h
  | mul => exact ordered_of_mul? h
  | div => exact ordered_of_div? h

/-- What makes a spread: two sides, a value, a document, or spreads that were
made before, each given by its place among them. An operator makes what the
checked operation makes, and stops where that makes nothing. -/
inductive Operation
  | make (bid ask : Decimal)
  | point (value : Decimal)
  | read (document : Json)
  | inverse (i : Nat)
  | combine (op : BinaryOp) (i j : Nat)

/-- The spread that an operation makes, after others were made. -/
def Operation.result? (made : List Spread) : Operation → Option Spread
  | .make bid ask => (Spread.make bid ask).toOption
  | .point value => some (Spread.point value)
  | .read document => ofJson? document
  | .inverse i => made[i]?.bind inverse?
  | .combine op i j => made[i]?.bind fun s => made[j]?.bind fun t => combine? op s t

/-- All spreads that are made when operations are done one after the other. -/
def makeAll (operations : List Operation) : List Spread :=
  operations.foldl (fun made operation => made ++ (operation.result? made).toList) []

theorem Operation.ordered_of_result? {made : List Spread} {operation : Operation}
    (hmade : ∀ s ∈ made, s.Ordered) (h : operation.result? made = some v) : v.Ordered := by
  cases operation with
  | make bid ask =>
      cases hmake : Spread.make bid ask with
      | error e => simp [result?, hmake, Except.toOption] at h
      | ok s =>
          rw [result?, hmake] at h
          cases h
          exact ordered_of_make hmake
  | point value =>
      cases h
      exact ordered_point value
  | read document => exact ordered_of_ofJson? h
  | inverse i =>
      obtain ⟨s, -, hinverse⟩ := Option.bind_eq_some_iff.mp h
      exact ordered_of_inverse? hinverse
  | combine op i j =>
      obtain ⟨s, hs, h⟩ := Option.bind_eq_some_iff.mp h
      obtain ⟨t, ht, hcombine⟩ := Option.bind_eq_some_iff.mp h
      exact ordered_of_combine? (hmade s (List.mem_of_getElem? hs))
        (hmade t (List.mem_of_getElem? ht)) hcombine

/-- However spreads are made from decimals and from each other, all of them are
in order. -/
theorem ordered_of_makeAll (operations : List Operation) :
    ∀ s ∈ makeAll operations, s.Ordered := by
  refine List.foldlRecOn operations _ (List.forall_mem_nil _) ?_
    (motive := fun made => ∀ s ∈ made, Ordered s)
  intro made hmade operation _ s hs
  rcases List.mem_append.mp hs with hs | hs
  · exact hmade s hs
  · exact Operation.ordered_of_result? hmade (Option.mem_toList.mp hs)

/-- The ask of this sum has no room for its last place, the bid has. -/
theorem ordered_of_roundedSum :
    let operations : List Operation :=
      [.make ⟨false, 39614081257132168796771975167, 28, by decide, by decide⟩
          ⟨false, 39614081257132168796771975168, 28, by decide, by decide⟩,
        .combine .add 0 0]
    let sum : Spread :=
      ⟨⟨false, 79228162514264337593543950334, 28, by decide, by decide⟩,
        ⟨false, 7922816251426433759354395034, 27, by decide, by decide⟩⟩
    sum ∈ makeAll operations ∧ sum.Ordered := by
  intro operations sum
  have hmem : sum ∈ makeAll operations := by decide +kernel
  exact ⟨hmem, ordered_of_makeAll operations sum hmem⟩

end Spread

end Paydesk.Rates

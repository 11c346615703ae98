import Paydesk.Proofs.Payjoin.Fees
import Paydesk.Proofs.Text.Digits

/-!
What is split off a lone payment. A part of the contribution is drawn, and each further word
tells whether it is rounded to a power of ten now or to a smaller one.
-/

namespace Paydesk.Payjoin

open Chain Wallet

namespace Draft

/-- The part of a contribution that is drawn with the first word. -/
def drawn (contributed : Nat) (ws : Words) : Nat :=
  if contributed = 0 then 0 else ws.next.1 % contributed

/-- The words after the one that a part of the contribution is drawn with. -/
def undrawn (contributed : Nat) (ws : Words) : Words := if contributed = 0 then ws else ws.tail

/-- How many words ask for a smaller power of ten before one does not. -/
def coarseAt? (ws : Words) : Option Nat := ws.findIdx? (limit63 ≤ ·)

section Round

variable {e i : Nat} {ws : Words}

theorem thousand_lt_tenTo (e : Nat) : 1000 < tenTo (e + 1) ↔ 3 ≤ e :=
  (Nat.pow_lt_pow_iff_right (a := 10) (n := 3) (by decide)).trans Nat.lt_succ_iff

theorem drop_flip (ws : Words) (n : Nat) : ws.flip.2.drop n = ws.drop (n + 1) := by
  cases ws with
  | nil => rw [show (Words.flip []).2 = [] from rfl, List.drop_nil, List.drop_nil]
  | cons w ws => rfl

/-- A source that is used up never asks to round. -/
theorem coarseAt?_flip (ws : Words) :
    coarseAt? ws = if ws.flip.1 then (coarseAt? ws.flip.2).map (· + 1) else some 0 := by
  cases ws with
  | nil => rfl
  | cons w ws =>
      rw [coarseAt?, List.findIdx?_cons]
      by_cases hw : limit63 ≤ w
      · simp [Words.flip, Words.next, hw, Nat.not_lt.mpr hw]
      · simp [Words.flip, Words.next, hw, Nat.lt_of_not_le hw, coarseAt?]

theorem roundDecoy_of_coarse (value : Nat) (h : coarseAt? ws = some i) (hi : i + 4 ≤ e) :
    roundDecoy e value ws =
      (value / tenTo (e - i) * tenTo (e - i), ws.drop (i + 1)) := by
  induction e generalizing ws i with
  | zero => omega
  | succ e ih =>
      rw [coarseAt?_flip] at h
      rw [roundDecoy, if_pos ((thousand_lt_tenTo e).mpr (by omega)), ← drop_flip]
      dsimp only
      cases hflip : ws.flip.1 with
      | true =>
          rw [hflip, if_pos rfl, Option.map_eq_some_iff] at h
          obtain ⟨j, hj, rfl⟩ := h
          rw [if_pos rfl, ih hj (by omega), Nat.add_sub_add_right]
      | false =>
          rw [hflip, if_neg Bool.false_ne_true, Option.some.injEq] at h
          subst h
          rw [if_neg Bool.false_ne_true]
          rfl

/-- The value is kept if no word asks to round it before the power of ten is a thousand. -/
theorem roundDecoy_of_fine (value : Nat) (h : ∀ i, coarseAt? ws = some i → e < i + 4) :
    roundDecoy e value ws = (value, ws.drop (e - 3)) := by
  induction e generalizing ws with
  | zero => rfl
  | succ e ih =>
      rw [roundDecoy]
      split
      · rename_i hlarge
        have he := (thousand_lt_tenTo e).mp hlarge
        rw [coarseAt?_flip] at h
        cases hflip : ws.flip.1 with
        | true =>
            have hrest : ∀ i, coarseAt? ws.flip.2 = some i → e < i + 4 := fun i hi => by
              have := h (i + 1) (by rw [hflip, if_pos rfl, hi, Option.map_some])
              omega
            dsimp only
            rw [hflip, if_pos rfl, ih hrest, drop_flip, show e - 3 + 1 = e + 1 - 3 by omega]
        | false =>
            have := h 0 (by rw [hflip, if_neg Bool.false_ne_true])
            omega
      · rename_i hsmall
        rw [thousand_lt_tenTo] at hsmall
        rw [Nat.sub_eq_zero_of_le (by omega), List.drop_zero]

end Round

section Value

variable (contributed : Nat) (script : Script) (ws : Words)

theorem drawn_lt {contributed : Nat} (h : 0 < contributed) : drawn contributed ws < contributed := by
  rw [drawn, if_neg h.ne']
  exact Nat.mod_lt _ h

theorem tail_eq_next (ws : Words) : ws.tail = ws.next.2 := by
  cases ws <;> rfl

theorem decoyValue_eq_roundDecoy :
    decoyValue contributed script ws =
      let v := drawn contributed ws
      let rounded := roundDecoy (Nat.log 10 v) v (undrawn contributed ws)
      (max rounded.1 (dustLimit script), rounded.2) := by
  have hround : ∀ v ws, (if v = 0 then (v, ws)
      else roundDecoy ((Nat.toDigits 10 v).length - 1) v ws) = roundDecoy (Nat.log 10 v) v ws := by
    intro v ws
    rw [Text.length_toDigits, Nat.add_sub_cancel]
    split
    · rename_i hv
      rw [hv, Nat.log_zero_right]
      rfl
    · rfl
  unfold decoyValue
  by_cases hnone : contributed = 0
  · simp [drawn, undrawn, hnone, roundDecoy]
  · simp [hround, drawn, undrawn, hnone, tail_eq_next]

theorem roundsDown_div_mul (k v : Nat) : tenTo k ∣ v / tenTo k * tenTo k ∧
    v / tenTo k * tenTo k ≤ v ∧ v < v / tenTo k * tenTo k + tenTo k :=
  ⟨Nat.dvd_mul_left _ _, Nat.div_mul_le_self _ _, Nat.lt_div_mul_add (tenTo_pos k)⟩

/-- A value is kept, or rounded down to a power of ten that is more than a thousand and has no
more digits than the value; and it takes no more words than there are such powers. -/
theorem roundDecoy_log (v : Nat) (flips : Words) :
    let rounded := roundDecoy (Nat.log 10 v) v flips
    (rounded.1 = v ∧ (∀ i, coarseAt? flips = some i → Nat.log 10 v < i + 4) ∨
      ∃ k, 4 ≤ k ∧ k ≤ Nat.log 10 v ∧ coarseAt? flips = some (Nat.log 10 v - k) ∧
        tenTo k ∣ rounded.1 ∧ rounded.1 ≤ v ∧ v < rounded.1 + tenTo k) ∧
      ∃ n ≤ Nat.log 10 v - 3, rounded.2 = flips.drop n := by
  by_cases hcoarse : ∃ i, coarseAt? flips = some i ∧ i + 4 ≤ Nat.log 10 v
  · obtain ⟨i, hi, hle⟩ := hcoarse
    rw [roundDecoy_of_coarse v hi hle]
    refine ⟨.inr ⟨Nat.log 10 v - i, by omega, Nat.sub_le _ _, ?_, roundsDown_div_mul _ _⟩,
      i + 1, by omega, rfl⟩
    rw [hi, Nat.sub_sub_self (by omega)]
  · have hfine : ∀ i, coarseAt? flips = some i → Nat.log 10 v < i + 4 :=
      fun i hi => Nat.lt_of_not_le fun hle => hcoarse ⟨i, hi, hle⟩
    rw [roundDecoy_of_fine v hfine]
    exact ⟨.inl ⟨rfl, hfine⟩, _, le_rfl, rfl⟩

end Value

section Contribute

variable {outputs : List TxOut} {payment contributed : Nat} {paid : TxOut}
  {change : Option Script} {ws ws' : Words}

/-- A lone payment that is split, or outputs of which only the payment has grown. -/
theorem addDecoy_growPayment (hpaid : outputs[payment]? = some paid) (contributed : Nat)
    (change : Option Script) (ws : Words) :
    let decoy := fun script => (decoyValue contributed script ws).1
    (∃ script, change = some script ∧ outputs = [paid] ∧ decoy script < contributed ∧
      (addDecoy contributed change (growPayment outputs payment contributed) ws).1 =
        [(.payment, ⟨paid.value + contributed - decoy script, paid.script⟩),
          (.decoyChange, ⟨decoy script, script⟩)]) ∨
    ((∀ script, change = some script → outputs.length = 1 → contributed ≤ decoy script) ∧
      (addDecoy contributed change (growPayment outputs payment contributed) ws).1 =
        growPayment outputs payment contributed) := by
  intro decoy
  by_cases hsplits : ∃ script, change = some script ∧ outputs.length = 1 ∧
      decoy script < contributed
  · obtain ⟨script, rfl, hlone, hlt⟩ := hsplits
    obtain ⟨only, rfl⟩ := List.length_eq_one_iff.mp hlone
    obtain ⟨rfl, rfl⟩ : payment = 0 ∧ only = paid := by
      obtain ⟨hindex, honly⟩ := List.getElem?_eq_some_iff.mp hpaid
      obtain rfl := Nat.lt_one_iff.mp hindex
      exact ⟨rfl, honly⟩
    refine .inl ⟨script, rfl, rfl, hlt, ?_⟩
    simp only [growPayment, List.mapIdx_cons, List.mapIdx_nil, if_true, addDecoy]
    rw [if_pos hlt]
  · refine .inr ⟨fun script hscript hlone => Nat.le_of_not_lt fun hlt =>
      hsplits ⟨script, hscript, hlone, hlt⟩, ?_⟩
    unfold addDecoy
    split
    · rename_i role grown script hgrown
      have hlone : outputs.length = 1 := by
        rw [← List.length_mapIdx (l := outputs)]
        exact congrArg List.length hgrown
      exact congrArg Prod.fst (if_neg fun hlt => hsplits ⟨script, rfl, hlone, hlt⟩)
    · rfl

theorem contribute_outputs_perm {fallback : Psbt} {coins : List Coin} {type : ScriptType}
    {d : Draft} (h : contribute fallback payment coins type change ws = .ok (d, ws')) :
    d.outputs.Perm (addDecoy (total (coins.map (·.output.value))) change
      (growPayment fallback.tx.outputs payment (total (coins.map (·.output.value))))
      (ws.choose? (fallback.tx.inputs.map TxIn.sequence)).2).1 := by
  obtain ⟨fee, sequence, paid, -, -, -, -, hd⟩ := contribute_eq_ok h
  rw [(Prod.mk.inj hd).1, outputs_ofInputs]
  exact Words.shuffle_perm ..

theorem decoyChange_notMem_growPayment (outputs : List TxOut) (payment contributed : Nat) :
    .decoyChange ∉ (growPayment outputs payment contributed).map Prod.fst := by
  rw [map_fst_growPayment, List.mem_map]
  rintro ⟨i, -, hi⟩
  unfold roleAt at hi
  split at hi <;> cases hi

/-- A decoy is a random part of what is contributed, rounded to some power of ten or not at all,
and never dust. It is split off a lone payment, which grows all the same; else the payment grows
by all that is contributed. -/
theorem decoy_splits_payment :
    (∀ contributed script ws,
      let v := drawn contributed ws
      let flips := undrawn contributed ws
      let decoy := decoyValue contributed script ws
      (v < contributed ∨ contributed = 0 ∧ v = 0) ∧
      (∃ value, decoy.1 = max value (dustLimit script) ∧
        (value = v ∧ (∀ i, coarseAt? flips = some i → Nat.log 10 v < i + 4) ∨
          ∃ k, 4 ≤ k ∧ k ≤ Nat.log 10 v ∧ coarseAt? flips = some (Nat.log 10 v - k) ∧
            tenTo k ∣ value ∧ value ≤ v ∧ v < value + tenTo k)) ∧
      ∃ n ≤ Nat.log 10 v - 3, decoy.2 = flips.drop n) ∧
    ∀ fallback payment coins type change ws d ws',
      contribute fallback payment coins type change ws = .ok (d, ws') →
      let contributed := total (coins.map (·.output.value))
      let decoy := fun script =>
        (decoyValue contributed script (ws.choose? (fallback.tx.inputs.map TxIn.sequence)).2).1
      ∃ paid, fallback.tx.outputs[payment]? = some paid ∧
        ((∃ script, change = some script ∧ fallback.tx.outputs = [paid] ∧
            dustLimit script ≤ decoy script ∧ decoy script < contributed ∧
            d.outputs.Perm [(.payment, ⟨paid.value + contributed - decoy script, paid.script⟩),
              (.decoyChange, ⟨decoy script, script⟩)] ∧
            paid.value < paid.value + contributed - decoy script) ∨
          (∀ script, change = some script → fallback.tx.outputs.length = 1 →
              contributed ≤ decoy script) ∧
            d.psbt.tx.outputs.length = fallback.tx.outputs.length ∧ .decoyChange ∉ d.roles ∧
            (.payment, ⟨paid.value + contributed, paid.script⟩) ∈ d.outputs) := by
  refine ⟨fun contributed script ws => ?_, fun fallback payment coins type change ws d ws' h => ?_⟩
  · intro v flips decoy
    obtain ⟨hrounded, hwords⟩ := roundDecoy_log v flips
    rw [show decoy = _ from decoyValue_eq_roundDecoy contributed script ws]
    refine ⟨?_, ⟨_, rfl, hrounded⟩, hwords⟩
    rcases Nat.eq_zero_or_pos contributed with hnone | hpos
    · exact .inr ⟨hnone, if_pos hnone⟩
    · exact .inl (drawn_lt ws hpos)
  · intro contributed decoy
    obtain ⟨-, hlabelled, paid, hpaid, -⟩ := contribute_shares h
    have hperm := contribute_outputs_perm h
    refine ⟨paid, hpaid, ?_⟩
    rcases addDecoy_growPayment hpaid contributed change _ with
      ⟨script, hchange, hlone, hlt, hsplit⟩ | ⟨hwhole, hgrown⟩
    · rw [hsplit] at hperm
      have hkeeps : paid.value < paid.value + contributed - decoy script := by
        have hlt : decoy script < contributed := hlt
        omega
      exact .inl ⟨script, hchange, hlone, Nat.le_max_right _ _, hlt, hperm, hkeeps⟩
    · rw [hgrown] at hperm
      refine .inr ⟨hwhole, ?_, ?_, hperm.symm.subset (mem_growPayment_payment hpaid)⟩
      · have hlengths := hperm.length_eq
        rwa [outputs, List.length_zip, hlabelled.length, min_self, growPayment,
          List.length_mapIdx] at hlengths
      · rw [← hlabelled.map_fst_outputs, (hperm.map Prod.fst).mem_iff]
        exact decoyChange_notMem_growPayment _ _ _

end Contribute

namespace Sample

def lone : Psbt := Submission.psbtOf { original with outputs := [⟨5000, deposit⟩] } [some spent]

def large : Coin := { coin with output := ⟨100000, coinScript⟩ }

/-- One word for the sequence number, one for the part, and one that asks to round it at once. -/
def words : Words := [0, 54321, limit63]

theorem lone_payment_split :
    ∃ d ws', contribute lone 0 [large] .segwit (some change) words = .ok (d, ws') ∧
      dustLimit change ≤ 50000 ∧ 5000 < 5000 + 100000 - 50000 ∧
      d.outputs.Perm [(.payment, ⟨55000, deposit⟩), (.decoyChange, ⟨50000, change⟩)] := by
  have hmade : contribute lone 0 [large] .segwit (some change) words =
      .ok ((assemble lone 1800 0 [large] .segwit 0xfffffffd (some change) (words.drop 1))) := rfl
  have hdecoy : (decoyValue 100000 change (words.drop 1)).1 = 50000 := by decide +kernel
  obtain ⟨paid, hpaid, hsplit | ⟨hwhole, -⟩⟩ := decoy_splits_payment.2 _ _ _ _ _ _ _ _ hmade
  · obtain ⟨script, hscript, -, hdust, -, houtputs, hkeeps⟩ := hsplit
    obtain rfl := Option.some.inj hscript
    obtain rfl := Option.some.inj hpaid
    exact ⟨_, _, hmade, hdecoy ▸ hdust, hdecoy ▸ hkeeps, hdecoy ▸ houtputs⟩
  · have hle : 100000 ≤ (decoyValue 100000 change (words.drop 1)).1 := hwhole change rfl rfl
    omega

end Sample

end Draft

end Paydesk.Payjoin

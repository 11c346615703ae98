import Paydesk.Proofs.Payjoin.Phases

/-!
Where the money of a proposal goes. A coin goes to the receiver, fees are taken
from one output after another, and every output is accounted for by its role.
-/

namespace Paydesk.Payjoin

open Chain Wallet Invoices

namespace OutputRole

theorem isSender_iff {role : OutputRole} : role.isSender ↔ role.isReceiver = false := by
  simp [isSender]

end OutputRole

namespace Draft

/-- The outputs of a draft with their roles. -/
def outputs (d : Draft) : List (OutputRole × TxOut) := d.roles.zip d.psbt.tx.outputs

/-- What the outputs of some roles come to. -/
def worth (p : OutputRole → Bool) (outputs : List (OutputRole × TxOut)) : Nat :=
  total ((outputs.filter (p ·.1)).map (·.2.value))

/-- Every output has one role, and no two have the same. -/
structure Labelled (d : Draft) : Prop where
  length : d.roles.length = d.psbt.tx.outputs.length
  nodup : d.roles.Nodup

/-- An output that gave up some amount at most, and did not become dust by it. -/
structure Lowered (amount : Nat) (before after : TxOut) : Prop where
  script : after.script = before.script
  le : after.value ≤ before.value
  floor : min before.value (dustLimit before.script) ≤ after.value
  most : before.value ≤ after.value + amount

theorem Lowered.mono {amount amount' : Nat} {before after : TxOut} (h : Lowered amount before after)
    (hle : amount ≤ amount') : Lowered amount' before after :=
  { h with most := h.most.trans (Nat.add_le_add_left hle _) }

section Worth

variable {p : OutputRole → Bool} {role : OutputRole} {output : TxOut}
  {before after : List (OutputRole × TxOut)}

theorem worth_nil : worth p [] = 0 := rfl

theorem worth_cons_of_pos (h : p role) :
    worth p ((role, output) :: before) = output.value + worth p before := by
  simp [worth, h]

theorem worth_cons_of_neg (h : p role = false) :
    worth p ((role, output) :: before) = worth p before := by
  simp [worth, h]

theorem worth_append : worth p (before ++ after) = worth p before + worth p after := by
  simp [worth]

theorem worth_perm (h : before.Perm after) : worth p before = worth p after :=
  total_eq_of_perm ((h.filter _).map _)

theorem worth_mapIdx_of_pos {outputs : List TxOut} {role : Nat → OutputRole}
    (h : ∀ i, p (role i)) :
    worth p (outputs.mapIdx fun i output => (role i, output)) =
      total (outputs.map TxOut.value) := by
  induction outputs generalizing role with
  | nil => rfl
  | cons output outputs ih =>
      rw [List.mapIdx_cons, worth_cons_of_pos (h 0), ih fun i => h (i + 1)]
      rfl

theorem worth_mapIdx_of_neg {outputs : List TxOut} {role : Nat → OutputRole}
    (h : ∀ i, p (role i) = false) :
    worth p (outputs.mapIdx fun i output => (role i, output)) = 0 := by
  induction outputs generalizing role with
  | nil => rfl
  | cons output outputs ih =>
      rw [List.mapIdx_cons, worth_cons_of_neg (h 0), ih fun i => h (i + 1)]

end Worth

section Grow

variable {outputs : List TxOut} {payment contributed : Nat} {paid : TxOut}

/-- The role of the output at an index of a fallback. -/
def roleAt (payment i : Nat) : OutputRole := if i = payment then .payment else .sender i

theorem roleAt_injective (payment : Nat) : Function.Injective (roleAt payment) := by
  intro i j h
  unfold roleAt at h
  split at h <;> split at h
  · omega
  · cases h
  · cases h
  · exact OutputRole.sender.inj h

theorem map_fst_growPayment (outputs : List TxOut) (payment contributed : Nat) :
    (growPayment outputs payment contributed).map Prod.fst =
      (List.range outputs.length).map (roleAt payment) := by
  apply List.ext_getElem
  · simp [growPayment]
  · intro i _ _
    simp only [growPayment, List.getElem_map, List.getElem_mapIdx, List.getElem_range, roleAt]
    split <;> rfl

theorem mem_growPayment_payment (h : outputs[payment]? = some paid) :
    (OutputRole.payment, { paid with value := paid.value + contributed }) ∈
      growPayment outputs payment contributed := by
  obtain ⟨hlt, hpaid⟩ := List.getElem?_eq_some_iff.mp h
  refine List.mem_mapIdx.mpr ⟨payment, hlt, ?_⟩
  rw [if_pos rfl, hpaid]

theorem mem_growPayment_sender {i : Nat} {output : TxOut} :
    (OutputRole.sender i, output) ∈ growPayment outputs payment contributed ↔
      i ≠ payment ∧ outputs[i]? = some output := by
  rw [growPayment, List.mem_mapIdx]
  constructor
  · rintro ⟨j, hlt, h⟩
    split at h
    · cases h
    · rename_i hne
      obtain ⟨hij, rfl⟩ := Prod.mk.inj h
      obtain rfl := OutputRole.sender.inj hij
      exact ⟨hne, List.getElem?_eq_getElem hlt⟩
  · rintro ⟨hne, h⟩
    obtain ⟨hlt, houtput⟩ := List.getElem?_eq_some_iff.mp h
    exact ⟨i, hlt, by rw [if_neg hne, houtput]⟩

/-- The outputs before the payment, the payment and those after it. -/
theorem growPayment_append (before after : List TxOut) (paid : TxOut) (contributed : Nat) :
    growPayment (before ++ paid :: after) before.length contributed =
      (before.mapIdx fun i output => (OutputRole.sender i, output)) ++
        (OutputRole.payment, { paid with value := paid.value + contributed }) ::
          after.mapIdx fun i output => (OutputRole.sender (i + 1 + before.length), output) := by
  rw [growPayment, List.mapIdx_append, List.mapIdx_cons]
  congr 1
  · apply List.ext_getElem
    · simp
    · intro i hi _
      rw [List.length_mapIdx] at hi
      rw [List.getElem_mapIdx, List.getElem_mapIdx, if_neg (by omega)]
  · rw [if_pos (by omega)]
    congr 1
    apply List.ext_getElem
    · simp
    · intro i _ _
      rw [List.getElem_mapIdx, List.getElem_mapIdx, if_neg (by omega)]

theorem worth_growPayment (h : outputs[payment]? = some paid) :
    worth OutputRole.isReceiver (growPayment outputs payment contributed) =
        paid.value + contributed ∧
      worth OutputRole.isSender (growPayment outputs payment contributed) =
        total ((outputs.eraseIdx payment).map TxOut.value) := by
  obtain ⟨hlt, hpaid⟩ := List.getElem?_eq_some_iff.mp h
  have hlength : (outputs.take payment).length = payment := List.length_take_of_le hlt.le
  have hsplit : outputs = outputs.take payment ++ paid :: outputs.drop (payment + 1) := by
    rw [← hpaid, List.getElem_cons_drop, List.take_append_drop]
  have hgrown := growPayment_append (outputs.take payment) (outputs.drop (payment + 1)) paid
    contributed
  rw [← hsplit, hlength] at hgrown
  rw [hgrown]
  constructor
  · rw [worth_append, worth_mapIdx_of_neg fun _ => rfl, worth_cons_of_pos rfl,
      worth_mapIdx_of_neg fun _ => rfl, Nat.zero_add, Nat.add_zero]
  · rw [worth_append, worth_mapIdx_of_pos fun _ => rfl, worth_cons_of_neg rfl,
      worth_mapIdx_of_pos fun _ => rfl, List.eraseIdx_eq_take_drop_succ, List.map_append,
      total_append]

end Grow

/-- How the outputs of a draft share what a fallback pays and what was
contributed: the receiver gets both, and the sender's outputs stay. -/
structure Shares (fallback : List TxOut) (payment contributed : Nat) (paid : TxOut)
    (outputs : List (OutputRole × TxOut)) : Prop where
  nodup : (outputs.map Prod.fst).Nodup
  covered : ∃ output, (.payment, output) ∈ outputs ∧ paid.value ≤ output.value
  senders : ∀ i output, (.sender i, output) ∈ outputs ↔
    i ≠ payment ∧ fallback[i]? = some output
  receiverWorth : worth OutputRole.isReceiver outputs = paid.value + contributed
  senderWorth : worth OutputRole.isSender outputs =
    total ((fallback.eraseIdx payment).map TxOut.value)

namespace Shares

variable {fallback : List TxOut} {payment contributed : Nat} {paid : TxOut}
  {outputs outputs' : List (OutputRole × TxOut)}

theorem growPayment (h : fallback[payment]? = some paid) (contributed : Nat) :
    Shares fallback payment contributed paid (growPayment fallback payment contributed) where
  nodup := by
    rw [map_fst_growPayment]
    exact List.nodup_range.map (roleAt_injective payment)
  covered := ⟨_, mem_growPayment_payment h, Nat.le_add_right _ _⟩
  senders := fun _ _ => mem_growPayment_sender
  receiverWorth := (worth_growPayment h).1
  senderWorth := (worth_growPayment h).2

theorem perm (h : Shares fallback payment contributed paid outputs)
    (hperm : outputs.Perm outputs') : Shares fallback payment contributed paid outputs' where
  nodup := ((hperm.map _).nodup_iff).mp h.nodup
  covered := by
    obtain ⟨output, hmem, hle⟩ := h.covered
    exact ⟨output, hperm.subset hmem, hle⟩
  senders := fun i output => hperm.mem_iff.symm.trans (h.senders i output)
  receiverWorth := (worth_perm hperm).symm.trans h.receiverWorth
  senderWorth := (worth_perm hperm).symm.trans h.senderWorth

/-- What is split off a lone payment is less than what was contributed, so the
payment stays above what the fallback pays. -/
theorem split {role : OutputRole} {output : TxOut} {decoy : Nat} (script : Script)
    (h : Shares fallback payment contributed paid [(role, output)]) (hlt : decoy < contributed) :
    Shares fallback payment contributed paid
      [(role, { output with value := output.value - decoy }), (.decoyChange, ⟨decoy, script⟩)] := by
  obtain ⟨output', hmem, -⟩ := h.covered
  obtain ⟨rfl, rfl⟩ := Prod.mk.inj (List.mem_singleton.mp hmem)
  have hvalue : output'.value = paid.value + contributed := by
    rw [← h.receiverWorth, worth_cons_of_pos rfl, worth_nil, Nat.add_zero]
  constructor
  · simp
  · refine ⟨_, List.mem_cons_self, ?_⟩
    dsimp only
    omega
  · intro i output
    rw [← h.senders i output]
    simp
  · rw [worth_cons_of_pos rfl, worth_cons_of_pos rfl, worth_nil]
    dsimp only
    omega
  · rw [← h.senderWorth]
    rfl

theorem addDecoy (h : Shares fallback payment contributed paid outputs) (script : Option Script)
    (ws : Words) :
    Shares fallback payment contributed paid (addDecoy contributed script outputs ws).1 := by
  unfold Draft.addDecoy
  split
  · dsimp only
    split
    · rename_i hlt
      exact h.split _ hlt
    · exact h
  · exact h

end Shares

section Drain

variable {eligible p : OutputRole → Bool}

/-- The outputs that a drain leaves, with their roles. -/
def drained (eligible : OutputRole → Bool) (budget : Nat) (outputs : List (OutputRole × TxOut)) :
    List (OutputRole × TxOut) :=
  (outputs.map Prod.fst).zip (drain eligible budget outputs).1

/-- What one output gives. -/
def take (eligible : OutputRole → Bool) (budget : Nat) (role : OutputRole) (output : TxOut) : Nat :=
  if eligible role then min budget (output.value - dustLimit output.script) else 0

theorem drain_cons (eligible : OutputRole → Bool) (budget : Nat) (role : OutputRole)
    (output : TxOut) (rest : List (OutputRole × TxOut)) :
    drain eligible budget ((role, output) :: rest) =
      ({ output with value := output.value - take eligible budget role output } ::
          (drain eligible (budget - take eligible budget role output) rest).1,
        take eligible budget role output +
          (drain eligible (budget - take eligible budget role output) rest).2) := rfl

theorem drained_cons (eligible : OutputRole → Bool) (budget : Nat) (role : OutputRole)
    (output : TxOut) (rest : List (OutputRole × TxOut)) :
    drained eligible budget ((role, output) :: rest) =
      (role, { output with value := output.value - take eligible budget role output }) ::
        drained eligible (budget - take eligible budget role output) rest := rfl

theorem take_of_not {role : OutputRole} (h : eligible role = false) (budget : Nat)
    (output : TxOut) : take eligible budget role output = 0 := by
  simp [take, h]

theorem take_le_budget (eligible : OutputRole → Bool) (budget : Nat) (role : OutputRole)
    (output : TxOut) : take eligible budget role output ≤ budget := by
  rw [take]
  split
  · exact min_le_left _ _
  · exact Nat.zero_le _

theorem take_le_value (eligible : OutputRole → Bool) (budget : Nat) (role : OutputRole)
    (output : TxOut) :
    take eligible budget role output ≤ output.value - dustLimit output.script := by
  rw [take]
  split
  · exact min_le_right _ _
  · exact Nat.zero_le _

theorem lowered_take (eligible : OutputRole → Bool) (budget : Nat) (role : OutputRole)
    (output : TxOut) :
    Lowered (take eligible budget role output) output
      { output with value := output.value - take eligible budget role output } := by
  have hvalue := take_le_value eligible budget role output
  constructor
  · rfl
  · exact Nat.sub_le _ _
  · dsimp only
    omega
  · dsimp only
    omega

theorem length_drain (eligible : OutputRole → Bool) (budget : Nat)
    (outputs : List (OutputRole × TxOut)) :
    (drain eligible budget outputs).1.length = outputs.length := by
  induction outputs generalizing budget with
  | nil => rfl
  | cons output rest ih => rw [drain_cons, List.length_cons, List.length_cons, ih]

theorem map_fst_drained (eligible : OutputRole → Bool) (budget : Nat)
    (outputs : List (OutputRole × TxOut)) :
    (drained eligible budget outputs).map Prod.fst = outputs.map Prod.fst :=
  List.map_fst_zip (by rw [List.length_map, length_drain])

theorem drain_le (eligible : OutputRole → Bool) (budget : Nat)
    (outputs : List (OutputRole × TxOut)) : (drain eligible budget outputs).2 ≤ budget := by
  induction outputs generalizing budget with
  | nil => exact Nat.zero_le _
  | cons output rest ih =>
      obtain ⟨role, output⟩ := output
      have htake := take_le_budget eligible budget role output
      have hrest := ih (budget - take eligible budget role output)
      rw [drain_cons]
      omega

theorem drain_of_not {outputs : List (OutputRole × TxOut)} (budget : Nat)
    (h : ∀ role ∈ outputs.map Prod.fst, eligible role = false) :
    drain eligible budget outputs = (outputs.map Prod.snd, 0) := by
  induction outputs generalizing budget with
  | nil => rfl
  | cons output rest ih =>
      obtain ⟨role, output⟩ := output
      have hrest := fun role hrole => h role (List.mem_cons_of_mem _ hrole)
      rw [drain_cons, take_of_not (h role List.mem_cons_self), ih _ hrest]
      rfl

/-- What is left of an output that gives as much of a budget as it can. -/
def lower (budget : Nat) (output : TxOut) : TxOut :=
  { output with value := output.value - min budget (output.value - dustLimit output.script) }

/-- Where no two outputs have the same role, the first one of a role gives, and no other. -/
theorem drain_eq_modify_idxOf {outputs : List (OutputRole × TxOut)}
    (hnodup : (outputs.map Prod.fst).Nodup) (role : OutputRole) (budget : Nat) :
    (drain (fun other => other = role) budget outputs).1 =
      (outputs.map Prod.snd).modify ((outputs.map Prod.fst).idxOf role) (lower budget) := by
  induction outputs with
  | nil => rfl
  | cons first rest ih =>
      obtain ⟨other, output⟩ := first
      obtain ⟨hfirst, hrest⟩ := List.nodup_cons.mp hnodup
      rw [drain_cons, List.map_cons, List.map_cons]
      by_cases hother : other = role
      · subst hother
        have hnone : ∀ role ∈ rest.map Prod.fst, decide (role = other) = false :=
          fun role hrole => decide_eq_false fun h => hfirst (h ▸ hrole)
        have hgives : take (fun role => role = other) budget other output =
            min budget (output.value - dustLimit output.script) := if_pos (decide_eq_true rfl)
        rw [List.idxOf_cons_self, List.modify_zero_cons, drain_of_not _ hnone, hgives, lower]
      · rw [List.idxOf_cons_ne _ hother, List.modify_succ_cons, ← ih hrest,
          take_of_not (decide_eq_false hother), Nat.sub_zero, Nat.sub_zero]

/-- An output stays as it is, or it gives a part of what is taken. -/
theorem mem_drained {outputs : List (OutputRole × TxOut)} (eligible : OutputRole → Bool)
    (budget : Nat) {role : OutputRole} {output : TxOut} (h : (role, output) ∈ outputs) :
    ∃ output', (role, output') ∈ drained eligible budget outputs ∧
      Lowered (drain eligible budget outputs).2 output output' ∧
      (eligible role = false → output' = output) := by
  induction outputs generalizing budget with
  | nil => cases h
  | cons first rest ih =>
      rw [drained_cons, drain_cons]
      rcases List.mem_cons.mp h with rfl | hrest
      · have hfirst := lowered_take eligible budget role output
        refine ⟨_, List.mem_cons_self, hfirst.mono (Nat.le_add_right _ _), fun hrole => ?_⟩
        rw [take_of_not hrole]
        rfl
      · obtain ⟨output', hmem, hlowered, hkept⟩ :=
          ih (budget - take eligible budget first.1 first.2) hrest
        exact ⟨output', List.mem_cons_of_mem _ hmem, hlowered.mono (Nat.le_add_left _ _), hkept⟩

/-- What is taken is missing from any roles that contain those eligible. -/
theorem worth_drained (h : ∀ role, eligible role → p role) (budget : Nat)
    (outputs : List (OutputRole × TxOut)) :
    worth p (drained eligible budget outputs) + (drain eligible budget outputs).2 =
      worth p outputs := by
  induction outputs generalizing budget with
  | nil => rfl
  | cons output rest ih =>
      obtain ⟨role, output⟩ := output
      have hrest := ih (budget - take eligible budget role output)
      have hvalue := take_le_value eligible budget role output
      rw [drained_cons, drain_cons]
      cases hrole : p role with
      | true =>
          rw [worth_cons_of_pos hrole, worth_cons_of_pos hrole]
          dsimp only
          omega
      | false =>
          have hnone : eligible role = false :=
            Bool.eq_false_iff.mpr fun heligible => by simp [h role heligible] at hrole
          rw [take_of_not hnone] at hrest ⊢
          rw [worth_cons_of_neg hrole, worth_cons_of_neg hrole, Nat.zero_add]
          exact hrest

/-- A drain passes by the roles that are not eligible. -/
theorem filter_drained_of_not (h : ∀ role, p role → eligible role = false) (budget : Nat)
    (outputs : List (OutputRole × TxOut)) :
    (drained eligible budget outputs).filter (p ·.1) = outputs.filter (p ·.1) := by
  induction outputs generalizing budget with
  | nil => rfl
  | cons output rest ih =>
      obtain ⟨role, output⟩ := output
      rw [drained_cons]
      cases hrole : p role with
      | true => simp [hrole, ih, take_of_not (h role hrole)]
      | false => simp [hrole, ih]

theorem worth_drained_of_not (h : ∀ role, p role → eligible role = false) (budget : Nat)
    (outputs : List (OutputRole × TxOut)) :
    worth p (drained eligible budget outputs) = worth p outputs := by
  rw [worth, filter_drained_of_not h, worth]

end Drain

end Draft

end Paydesk.Payjoin

import Paydesk.Proofs.Payjoin.Sweep

/-!
A whole sweep with nothing else going on in between: which records are gone in the end,
which fallbacks were relayed, and what is still locked.
-/

namespace Paydesk.Payjoin

open Chain

namespace Sweep

/-- What a sweep is answered about the inputs and the relay of each record. -/
structure Explorer where
  spent : String → Record → OutPoint → Except String Bool
  relay : String → Record → Except String BroadcastResult

namespace Explorer

def answer (x : Explorer) : (phase : Phase) → phase.call.Outcome
  | .checking p _ r input _ _ => x.spent p.wallet r input
  | .relaying p r _ => x.relay p.wallet r

/-- Whether some input of a record of a wallet was spent. -/
def settles (x : Explorer) (wallet : String) (r : Record) : Bool :=
  r.fallback.outPoints.any fun input => isSpent (x.spent wallet r input)

/-- Whether a record goes. -/
def removes (x : Explorer) (timeout now : Nat) (wallet : String) (r : Record) : Bool :=
  x.settles wallet r || r.isStale now timeout

/-- Whether the fallback of a record is relayed. -/
def relays (x : Explorer) (timeout now : Nat) (wallet : String) (r : Record) : Bool :=
  !x.settles wallet r && r.isStale now timeout

/-- The questions about a record, up to the first input that was spent. -/
def inquiries (x : Explorer) (wallet : String) (r : Record) : List OutPoint → List Call
  | [] => []
  | input :: inputs =>
      .isSpent input ::
        if isSpent (x.spent wallet r input) then [] else x.inquiries wallet r inputs

variable (x : Explorer) (timeout now : Nat) (wallets : Wallets)

/-- The records that go, wallet by wallet. -/
def removed : List Record := wallets.flatMap fun e => e.2.filter (x.removes timeout now e.1)

def relayed : List Record := wallets.flatMap fun e => e.2.filter (x.relays timeout now e.1)

/-- What the wallets are left with. -/
def kept : Wallets := wallets.map fun e => (e.1, e.2.filter (!x.removes timeout now e.1 ·))

/-- All that is asked: in each wallet first about every record, then for the relays. -/
def calls : List Call := wallets.flatMap fun e =>
  e.2.flatMap (fun r => x.inquiries e.1 r r.fallback.outPoints) ++
    (e.2.filter (x.relays timeout now e.1)).map fun r => .broadcast r.fallback false

end Explorer

/-- A sweep that goes on from a step to its end, with nothing but its own answers in
between: what it asks, what it returns, and how it leaves the desk. -/
inductive Completes (x : Explorer) (timeout now : Nat) :
    Step × Desk → List Call → List Bytes → Desk → Prop
  | finished (relayed : List Bytes) (desk : Desk) :
      Completes x timeout now (.finished relayed, desk) [] relayed desk
  | answered {phase : Phase} {desk after : Desk} {calls : List Call} {relayed : List Bytes}
      (h : Completes x timeout now ((resume timeout now phase (x.answer phase)).run desk)
        calls relayed after) :
      Completes x timeout now (.wait phase, desk) (phase.call :: calls) relayed after

variable {x : Explorer} {timeout now : Nat} {desk after : Desk} {calls : List Call}
  {relayed : List Bytes} {p : Progress} {spent : List Bytes}

/-- A sweep takes one course only. -/
theorem Completes.unique {s : Step × Desk} (h : Completes x timeout now s calls relayed after)
    {calls' : List Call} {relayed' : List Bytes} {after' : Desk}
    (h' : Completes x timeout now s calls' relayed' after') :
    calls' = calls ∧ relayed' = relayed ∧ after' = after := by
  induction h generalizing calls' relayed' after' with
  | finished =>
      cases h'
      exact ⟨rfl, rfl, rfl⟩
  | answered _ ih =>
      cases h' with
      | answered h' =>
          obtain ⟨rfl, rfl, rfl⟩ := ih h'
          exact ⟨rfl, rfl, rfl⟩

section Checking

/-- The identities of the records that turned out settled, the last one first. -/
def settledIds (x : Explorer) (wallet : String) (records : List Record) (spent : List Bytes) :
    List Bytes :=
  ((records.filter (x.settles wallet)).map Record.id).reverse ++ spent

theorem next_of_check? {records : List Record} {phase : Phase}
    (h : check? p spent records = some phase) :
    (next timeout now p spent records).run desk = (.wait phase, desk) := by
  simp [next, h]
  rfl

theorem completes_checking {r : Record} {records : List Record} (inputs : List OutPoint)
    (input : OutPoint)
    (h : Completes x timeout now ((next timeout now p
      (if (input :: inputs).any fun o => isSpent (x.spent p.wallet r o) then r.id :: spent
        else spent) records).run desk) calls relayed after) :
    Completes x timeout now (.wait (.checking p spent r input inputs records), desk)
      (x.inquiries p.wallet r (input :: inputs) ++ calls) relayed after := by
  induction inputs generalizing input with
  | nil =>
      refine .answered ?_
      cases hspent : isSpent (x.spent p.wallet r input) with
      | true => simpa [resume, Explorer.answer, Explorer.inquiries, hspent] using h
      | false => simpa [resume, Explorer.answer, Explorer.inquiries, hspent] using h
  | cons second inputs ih =>
      refine .answered ?_
      cases hspent : isSpent (x.spent p.wallet r input) with
      | true => simpa [resume, Explorer.answer, hspent] using h
      | false =>
          rw [List.any_cons, hspent, Bool.false_or] at h
          have hrun : (resume timeout now (.checking p spent r input (second :: inputs) records)
              (x.spent p.wallet r input)).run desk =
                (.wait (.checking p spent r second inputs records), desk) := by
            simp [resume, hspent]
            rfl
          rw [Explorer.answer, hrun]
          simpa [hspent] using ih second h

theorem completes_next (records : List Record)
    (h : Completes x timeout now ((next timeout now p (settledIds x p.wallet records spent) []).run
      desk) calls relayed after) :
    Completes x timeout now ((next timeout now p spent records).run desk)
      (records.flatMap (fun r => x.inquiries p.wallet r r.fallback.outPoints) ++ calls)
      relayed after := by
  induction records generalizing spent with
  | nil => exact h
  | cons r records ih =>
      have hids : settledIds x p.wallet (r :: records) spent =
          settledIds x p.wallet records (if x.settles p.wallet r then r.id :: spent else spent) := by
        cases hsettles : x.settles p.wallet r <;> simp [settledIds, hsettles]
      rw [hids] at h
      have hrest := ih h
      rw [List.flatMap_cons, List.append_assoc]
      cases hinputs : r.fallback.outPoints with
      | nil =>
          have hsettles : x.settles p.wallet r = false := by simp [Explorer.settles, hinputs]
          have hskip : check? p spent (r :: records) = check? p spent records := by
            rw [check?, hinputs]
          rw [hsettles] at hrest
          simpa [next, hskip, Explorer.inquiries] using hrest
      | cons input inputs =>
          have hcheck : check? p spent (r :: records) =
              some (.checking p spent r input inputs records) := by
            rw [check?, hinputs]
          rw [next_of_check? hcheck]
          rw [Explorer.settles, hinputs] at hrest
          exact completes_checking inputs input hrest

end Checking

section Relaying

def freedDesk (desk : Desk) (records : List Record) : Desk :=
  { desk with locks := freed desk.locks records }

theorem completes_relaying (stale : List Record) (r : Record)
    (h : Completes x timeout now
      ((walk timeout now (p.relayed ++ (r :: stale).map Record.id) p.wallets).run
        (freedDesk desk (r :: stale))) calls relayed after) :
    Completes x timeout now (.wait (.relaying p r stale), desk)
      ((r :: stale).map (fun r => .broadcast r.fallback false) ++ calls) relayed after := by
  induction stale generalizing p r desk with
  | nil => exact .answered h
  | cons second stale ih =>
      refine .answered (ih second ?_)
      simpa [freedDesk, freed, release, Locks.unlock, Record.locks] using h

/-- Once it is known which inputs were spent, the overdue fallbacks are relayed. -/
theorem completes_next_nil {settled stale : List Record} {kept : Records}
    (hparts : parts timeout now spent (desk.wallets.records p.wallet) = (settled, stale, kept))
    (h : Completes x timeout now
      ((walk timeout now (p.relayed ++ stale.map Record.id) p.wallets).run
        { desk with
          wallets := desk.wallets.set p.wallet kept
          locks := freed desk.locks (settled ++ stale) }) calls relayed after) :
    Completes x timeout now ((next timeout now p spent []).run desk)
      (stale.map (fun r => .broadcast r.fallback false) ++ calls) relayed after := by
  have hsettle := @settle_run timeout now p spent desk
  rw [settledDesk, hparts] at hsettle
  have hfreed : freed (freed desk.locks settled) stale = freed desk.locks (settled ++ stale) := by
    rw [freed, freed, freed, List.foldl_append]
  cases stale with
  | nil =>
      have hrun : (next timeout now p spent []).run desk = (walk timeout now p.relayed p.wallets).run
          { desk with
            wallets := desk.wallets.set p.wallet kept
            locks := freed desk.locks settled } := by
        simp [next, check?, hsettle, relay?]
        rfl
      rw [hrun]
      simpa using h
  | cons r stale =>
      have hrun : (next timeout now p spent []).run desk = (.wait (.relaying p r stale),
          { desk with
            wallets := desk.wallets.set p.wallet kept
            locks := freed desk.locks settled }) := by
        simp [next, check?, hsettle, relay?]
        rfl
      rw [hrun]
      refine completes_relaying stale r ?_
      rw [freedDesk, hfreed]
      exact h

end Relaying

section Wallets

/-- Of the records of a wallet those go that are settled and those that are overdue. -/
theorem parts_settledIds {wallet : String} {records : Records}
    (hids : (records.map Record.id).Nodup) :
    parts timeout now (settledIds x wallet records []) records =
      (records.filter (x.settles wallet), records.filter (x.relays timeout now wallet),
        records.filter (!x.removes timeout now wallet ·)) := by
  have hsettled : ∀ r ∈ records,
      (settledIds x wallet records []).contains r.id = x.settles wallet r := by
    intro r hr
    rw [Bool.eq_iff_iff, List.contains_iff_mem, settledIds, List.append_nil, List.mem_reverse,
      List.mem_map]
    constructor
    · rintro ⟨r', hr', hid⟩
      obtain ⟨hr', hsettles⟩ := List.mem_filter.mp hr'
      obtain rfl := List.inj_on_of_nodup_map hids hr' hr hid
      exact hsettles
    · intro hsettles
      exact ⟨r, List.mem_filter.mpr ⟨hr, hsettles⟩, rfl⟩
  have hrest : records.filter (!(settledIds x wallet records []).contains ·.id) =
      records.filter (!x.settles wallet ·) :=
    List.filter_congr fun r hr => congrArg _ (hsettled r hr)
  have hrelays : x.relays timeout now wallet =
      fun r => r.isStale now timeout && !x.settles wallet r :=
    funext fun r => Bool.and_comm _ _
  simp only [parts, Records.takeIf, Records.takeStale, hrest, List.filter_filter,
    List.filter_congr hsettled, hrelays, Explorer.removes, Bool.not_or, Bool.and_comm]

/-- The records of some wallets that are freed, in the order in which that is done. -/
def taken (x : Explorer) (timeout now : Nat) (wallets : Wallets) : List Record :=
  wallets.flatMap fun e => e.2.filter (x.settles e.1) ++ e.2.filter (x.relays timeout now e.1)

theorem mem_taken_iff {wallets : Wallets} {r : Record} :
    r ∈ taken x timeout now wallets ↔ r ∈ x.removed timeout now wallets := by
  simp only [taken, Explorer.removed, List.mem_flatMap, List.mem_append, List.mem_filter]
  refine exists_congr fun e => and_congr_right fun _ => ?_
  rw [← and_or_left, Explorer.relays, Explorer.removes]
  cases x.settles e.1 r <;> simp

/-- The rest of a sweep, from some wallet on. -/
theorem completes_walk {done wallets : Wallets} (hwallets : desk.wallets = done ++ wallets)
    (hsorted : Table.Sorted desk.wallets)
    (hids : ∀ e ∈ wallets, (e.2.map Record.id).Nodup) (relayed : List Bytes) :
    Completes x timeout now ((walk timeout now relayed (Table.keys wallets)).run desk)
      (x.calls timeout now wallets)
      (relayed ++ (x.relayed timeout now wallets).map Record.id)
      { desk with
        wallets := done ++ x.kept timeout now wallets
        locks := freed desk.locks (taken x timeout now wallets) } := by
  induction wallets generalizing done desk relayed with
  | nil =>
      have hend : done ++ x.kept timeout now [] = desk.wallets := hwallets.symm
      simp only [Explorer.relayed, List.flatMap_nil, List.map_nil, List.append_nil, hend]
      exact .finished relayed desk
  | cons e wallets ih =>
      obtain ⟨wallet, records⟩ := e
      obtain ⟨hfirst, hrest⟩ := List.forall_mem_cons.mp hids
      have hrecords : desk.wallets.records wallet = records := by
        have hmem : (wallet, records) ∈ desk.wallets := hwallets ▸ by simp
        rw [Wallets.records, Table.find?_of_mem hsorted hmem, Option.getD_some]
      let p : Progress := ⟨wallet, Table.keys wallets, relayed⟩
      have hparts : parts timeout now (settledIds x wallet records [])
          (desk.wallets.records wallet) =
            (records.filter (x.settles wallet), records.filter (x.relays timeout now wallet),
              records.filter (!x.removes timeout now wallet ·)) := by
        rw [hrecords]
        exact parts_settledIds hfirst
      have hrun : (walk timeout now relayed (Table.keys ((wallet, records) :: wallets))).run desk =
          (next timeout now p [] records).run desk := by
        rw [← hrecords]
        rfl
      rw [hrun]
      simp only [Explorer.calls, Explorer.relayed, Explorer.kept, taken, List.flatMap_cons,
        List.append_assoc]
      refine completes_next records (completes_next_nil hparts ?_)
      -- The wallets behind go on from the desk that this wallet leaves.
      let next : Desk := { desk with
        wallets := desk.wallets.set wallet (records.filter (!x.removes timeout now wallet ·))
        locks := freed desk.locks
          (records.filter (x.settles wallet) ++ records.filter (x.relays timeout now wallet)) }
      have hnext : next.wallets = (done ++ [(wallet, records.filter
          (!x.removes timeout now wallet ·))]) ++ wallets := by
        rw [hwallets] at hsorted
        simp only [next, Wallets.set, hwallets, hsorted.insert_append, List.append_assoc,
          List.singleton_append]
      have hothers := ih hnext (hsorted.insert wallet _) hrest
        (relayed ++ (records.filter (x.relays timeout now wallet)).map Record.id)
      simpa [next, p, freed, taken, Explorer.calls, Explorer.relayed, Explorer.kept] using hothers

end Wallets

/-- The transaction that a call relays. -/
def relay : Call → Option Transaction
  | .broadcast tx false => some tx
  | _ => none

theorem filterMap_inquiries (wallet : String) (r : Record) (inputs : List OutPoint) :
    (x.inquiries wallet r inputs).filterMap relay = [] := by
  induction inputs with
  | nil => rfl
  | cons input inputs ih =>
      rw [Explorer.inquiries]
      split
      · rfl
      · exact ih

theorem filterMap_calls (x : Explorer) (timeout now : Nat) (wallets : Wallets) :
    (x.calls timeout now wallets).filterMap relay =
      (x.relayed timeout now wallets).map Record.fallback := by
  have hinquiries (e : String × Records) :
      (e.2.flatMap fun r => x.inquiries e.1 r r.fallback.outPoints).filterMap relay = [] := by
    rw [List.filterMap_flatMap]
    exact List.flatMap_eq_nil_iff.mpr fun r _ => filterMap_inquiries _ _ _
  have hrelays (records : List Record) :
      (records.map fun r => Call.broadcast r.fallback false).filterMap relay =
        records.map Record.fallback := by
    rw [List.filterMap_map, ← List.filterMap_eq_map]
    rfl
  simp only [Explorer.calls, Explorer.relayed, List.filterMap_flatMap, List.filterMap_append,
    hinquiries, hrelays, List.nil_append, List.map_flatMap]

/-- What is freed are the locks of the records, whatever their order. -/
theorem freed_eq (locks : Locks) (records : List Record) : freed locks records =
    { coins := locks.coins.filter fun o => !records.any (·.coins.contains o)
      inputs := locks.inputs.filter fun o => !records.any (·.spends o) } := by
  induction records generalizing locks with
  | nil => simp [freed]
  | cons r records ih =>
      have hstep : freed locks (r :: records) = freed (locks.unlock r.locks) records := rfl
      rw [hstep, ih]
      simp [-List.contains_eq_mem, Locks.unlock, Locks.unlockInputs, Locks.unlockCoins, Record.locks,
        Record.spends, List.filter_filter, Bool.and_comm]

/-- A sweep that nothing interferes with ends, and in one way only. It takes the records
with an input that was spent and those that have waited for the timeout, and relays the
fallbacks of those among them that have no spent input, each once. The other records
stay, and of the locks just those of the records that go are given back. -/
theorem completes_iff (x : Explorer) (timeout now : Nat) {desk : Desk}
    (hsorted : Table.Sorted desk.wallets)
    (hids : ∀ e ∈ desk.wallets, (e.2.map Record.id).Nodup) :
    ∃ calls : List Call,
      calls.filterMap relay = (x.relayed timeout now desk.wallets).map Record.fallback ∧
      ∀ calls' relayed after,
        Completes x timeout now ((start timeout now).run desk) calls' relayed after ↔
          calls' = calls ∧
          relayed = (x.relayed timeout now desk.wallets).map Record.id ∧
          after = { desk with
            wallets := x.kept timeout now desk.wallets
            locks := {
              coins := desk.locks.coins.filter fun o =>
                !(x.removed timeout now desk.wallets).any (·.coins.contains o)
              inputs := desk.locks.inputs.filter fun o =>
                !(x.removed timeout now desk.wallets).any (·.spends o) } } := by
  have hany (q : Record → Bool) : (taken x timeout now desk.wallets).any q =
      (x.removed timeout now desk.wallets).any q := by
    rw [Bool.eq_iff_iff, List.any_eq_true, List.any_eq_true]
    simp only [mem_taken_iff]
  have hcompletes : Completes x timeout now ((start timeout now).run desk) _ _ _ :=
    completes_walk (List.nil_append desk.wallets).symm hsorted hids []
  simp only [freed_eq, hany, List.nil_append] at hcompletes
  refine ⟨_, filterMap_calls x timeout now desk.wallets, fun calls' relayed after => ?_⟩
  constructor
  · exact hcompletes.unique
  · rintro ⟨rfl, rfl, rfl⟩
    exact hcompletes

/-- One record of which an input was spent, one that has waited too long and one that has
not. Nothing can be told about the inputs of the second, and its relay is refused. -/
theorem completes_three_wallets :
    let output (n : Nat) : OutPoint := ⟨[], n⟩
    let record (n time : Nat) : Record :=
      ⟨⟨2, [⟨output n, [], 0, []⟩, ⟨output (n + 1), [], 0, []⟩], [], 0⟩, [], [output (n + 2)], time⟩
    let x : Explorer := {
      spent := fun _ _ input => if input = output 4 then .error "timeout" else
        .ok (input = output 1)
      relay := fun _ _ => .ok ⟨false, some "missing inputs"⟩ }
    let desk : Desk := {
      locks := ⟨[output 2, output 5, output 8], (List.range 10).map output⟩
      wallets := [("a", [record 0 900]), ("b", [record 3 500]), ("c", [record 6 501])]
      words := [] }
    let after : Desk := {
      locks := ⟨[output 8], [2, 5, 6, 7, 8, 9].map output⟩
      wallets := [("a", []), ("b", []), ("c", [record 6 501])]
      words := [] }
    ∃ calls, calls.filterMap relay = [(record 3 500).fallback] ∧
      Completes x 500 1000 ((start 500 1000).run desk) calls [(record 3 500).id] after := by
  intro output record x desk after
  have hsorted : Table.Sorted desk.wallets := by
    unfold Table.Sorted
    decide
  have hids : ∀ e ∈ desk.wallets, (e.2.map Record.id).Nodup := by
    simp [desk]
  obtain ⟨calls, hrelays, hcompletes⟩ := completes_iff x 500 1000 hsorted hids
  have hrelayed : x.relayed 500 1000 desk.wallets = [record 3 500] := by decide
  have hkept : x.kept 500 1000 desk.wallets = after.wallets := by decide
  have hremoved : x.removed 500 1000 desk.wallets = [record 0 900, record 3 500] := by decide
  rw [hrelayed] at hrelays
  rw [hrelayed, hkept, hremoved] at hcompletes
  exact ⟨calls, hrelays, (hcompletes calls _ after).mpr ⟨rfl, rfl, rfl⟩⟩

end Sweep

end Paydesk.Payjoin

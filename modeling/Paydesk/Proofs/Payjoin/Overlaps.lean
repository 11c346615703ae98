import Paydesk.Proofs.Payjoin.Balance
import Paydesk.Proofs.Payjoin.Listings

/-!
Outputs that two payjoins spend. Coins and inputs are locked apart from each
other, so an output that is locked as one of them may be locked as the other too.
-/

namespace Paydesk.Payjoin

open Chain Wallet Invoices

namespace Locks

/-- All outputs that are locked for a payjoin. -/
def spends (locks : Locks) : List OutPoint := locks.coins ++ locks.inputs

/-- No output is locked both as a coin and as an input. -/
def Apart (locks : Locks) : Prop := locks.coins.Disjoint locks.inputs

theorem Apart.unlock {locks : Locks} (h : locks.Apart) (mine : Locks) :
    (locks.unlock mine).Apart := by
  intro o hcoin hinput
  exact h (List.mem_of_mem_filter hcoin) (List.mem_of_mem_filter hinput)

theorem Apart.freed {locks : Locks} (h : locks.Apart) (records : List Record) :
    (Sweep.freed locks records).Apart := by
  induction records generalizing locks with
  | nil => exact h
  | cons r records ih => exact ih (h.unlock r.locks)

theorem coins_freed_subset (locks : Locks) (records : List Record) :
    (Sweep.freed locks records).coins ⊆ locks.coins := by
  induction records generalizing locks with
  | nil => exact List.Subset.refl _
  | cons r records ih =>
      exact List.Subset.trans (ih (locks.unlock r.locks)) (locks.coins_unlock_subset r.locks)

theorem disjoint_spends {a b : Locks} (hcoins : a.coins.Disjoint b.coins)
    (hinputs : a.inputs.Disjoint b.inputs) (hcoin : a.coins.Disjoint b.inputs)
    (hinput : a.inputs.Disjoint b.coins) : a.spends.Disjoint b.spends :=
  List.disjoint_append_left.mpr ⟨List.disjoint_append_right.mpr ⟨hcoins, hcoin⟩,
    List.disjoint_append_right.mpr ⟨hinput, hinputs⟩⟩

end Locks

namespace Move

variable {m : Move}

/-- An output is locked as a coin that is locked as an input, or as an input that is
locked as a coin. -/
def Doubles (m : Move) : Prop :=
  (∃ o ∈ m.coins, o ∈ m.after.locks.inputs) ∨ ∃ o ∈ m.inputs, o ∈ m.after.locks.coins

theorem apart_of_not_doubles (hbefore : m.before.locks.Apart) (h : ¬m.Doubles) :
    m.after.locks.Apart := by
  intro o hcoin hinput
  by_cases hcoin' : o ∈ m.before.locks.coins
  · by_cases hinput' : o ∈ m.before.locks.inputs
    · exact hbefore hcoin' hinput'
    · exact h (.inr ⟨o, List.mem_filter.mpr ⟨hinput, by simpa using hinput'⟩, hcoin⟩)
  · exact h (.inl ⟨o, List.mem_filter.mpr ⟨hcoin, by simpa using hcoin'⟩, hinput⟩)

end Move

theorem Stage.held_subset (stage : Stage) :
    stage.held.coins ⊆ stage.locks.coins ∧ stage.held.inputs ⊆ stage.locks.inputs := by
  cases stage with
  | waiting => exact ⟨List.Subset.refl _, List.Subset.refl _⟩
  | _ => exact ⟨List.nil_subset _, List.nil_subset _⟩

theorem Phase.Sound.apart {phase : Phase} (h : phase.Sound) : phase.holdings.locks.Apart := by
  -- What was contributed are the inputs of the draft that the fallback does not have.
  have hmerges : ∀ {d : Draft} {original coins : List OutPoint}, d.Merges original coins →
      (d.contributed.map (·.2.outPoint)).Disjoint original := by
    intro d original coins hd o hcoin horiginal
    rw [hd.contributed, List.mem_filter] at hcoin
    simp [horiginal] at hcoin
  cases phase with
  | splitting a t coin =>
      intro o hcoin hinput
      obtain rfl := List.mem_singleton.mp hcoin
      exact h.2 hinput
  | signing a t d receiverFee =>
      obtain ⟨-, coin, hd⟩ := h
      exact hmerges hd
  | paying a t d payment =>
      obtain ⟨-, ⟨coin, hd⟩, -⟩ := h
      exact hmerges hd
  | _ => exact List.disjoint_nil_left _

namespace Submission

/-- A proposal is recorded, unless there is a record of its fallback already. -/
theorem all_recordedDesk {desk : Desk} (hsorted : Table.Sorted desk.wallets) (a : Accepted)
    (t : Target) (d : Draft) (now : Nat) :
    (recordedDesk a t d now desk).wallets.all.Perm (recordOf a d now :: desk.wallets.all) ∨
      (recordedDesk a t d now desk).wallets.all.Perm desk.wallets.all := by
  rcases Records.add?_cases (desk.wallets.records t.method.account.wallet) (recordOf a d now) with
    hadd | hadd
  · exact .inl (all_recordedDesk_of_add? hsorted hadd)
  · right
    simp only [recordedDesk, hadd, Option.getD_none]
    exact Wallets.all_touch_perm hsorted _

end Submission

namespace Traffic

namespace State

variable {World : Type}

/-- Every lock is accounted for. What a proposal held that could not be recorded is
locked for nobody. -/
structure Accounted (s : State World) : Prop where
  sorted : Table.Sorted s.desk.wallets
  locks : ∃ others : List Locks, s.desk.locks.Balances
    (s.stages.map Stage.locks ++ (s.live.map Record.locks ++ others))
  apart : ∀ r ∈ s.live, r.locks.Apart

theorem accounted_start (world : World) : (start world).Accounted :=
  ⟨Table.sorted_nil, ⟨[], .nil⟩, by simp [start, live, Wallets.all]⟩

/-- A wallet has listed a coin, some time or other. -/
def Listed (s : State World) (o : OutPoint) : Prop := ∃ e ∈ s.history, o ∈ e.2.listed

theorem Listed.mono {s s' : State World} {o : OutPoint} (h : s.Listed o)
    (hhistory : s.history ⊆ s'.history) : s'.Listed o := by
  obtain ⟨e, he, ho⟩ := h
  exact ⟨e, hhistory he, ho⟩

section Act

variable {settings : Settings} {s s' : State World} {held : Holdings} {m : Move}
  {mine others : List Locks}

theorem Accounted.act (hs : s.Accounted) (hacts : m.Acts settings held)
    (hbefore : m.before = s.desk)
    (hlocks : s.desk.locks.Balances
      (held.locks :: (mine ++ (s.live.map Record.locks ++ others))))
    (hstages' : (s'.stages.map Stage.locks).Perm (m.turn.stage.locks :: mine))
    (hdesk : s'.desk = m.after) (hsweeps : s'.sweeps = s.sweeps) : s'.Accounted := by
  have hlive := live_of_modest hacts.modest hs.sorted hbefore hdesk hsweeps
  have hsorted := (hacts.modest.all_perm (hbefore ▸ hs.sorted)).2
  refine ⟨hdesk ▸ hsorted, ⟨others, ?_⟩, fun r hr => hs.apart r (hlive.subset hr)⟩
  rw [hdesk]
  refine (hacts.balances (hbefore ▸ hlocks)).perm ?_
  exact (hstages'.append ((hlive.map _).append_right others)).symm

theorem Accounted.conclude (hs : s.Accounted) {a : Accepted} {t : Target} {d : Draft}
    {payment : Payment} {now : Nat} (hapart : (Phase.paying a t d payment).holdings.locks.Apart)
    (hlocks : s.desk.locks.Balances
      ((Phase.paying a t d payment).holdings.locks ::
        (mine ++ (s.live.map Record.locks ++ others))))
    (hstages' : (s'.stages.map Stage.locks).Perm (.empty :: mine))
    (hdesk : s'.desk = Submission.recordedDesk a t d now s.desk) (hsweeps : s'.sweeps = s.sweeps) :
    s'.Accounted := by
  have hsorted : Table.Sorted s'.desk.wallets := by
    rw [hdesk]
    exact Wallets.sorted_set hs.sorted _ _
  have hsame : s'.desk.locks = s.desk.locks := by
    rw [hdesk]
    rfl
  have hlive : s'.live = s'.desk.wallets.all ++ s.sweeps.flatMap Sweep.Phase.taken := by
    rw [live, hsweeps]
  rw [hdesk] at hlive
  rcases Submission.all_recordedDesk hs.sorted a t d now with hall | hall
  · have hlive' : s'.live.Perm (Submission.recordOf a d now :: s.live) := by
      rw [hlive, live, ← List.cons_append]
      exact hall.append_right _
    have hbalances : s.desk.locks.Balances (.empty ::
        (mine ++ ((Submission.recordOf a d now :: s.live).map Record.locks ++ others))) :=
      Locks.Balances.cons_empty.mpr (hlocks.perm List.perm_middle.symm)
    refine ⟨hsorted, ⟨others, ?_⟩, ?_⟩
    · rw [hsame]
      exact hbalances.perm (hstages'.append ((hlive'.map _).append_right others)).symm
    · intro r hr
      rcases List.mem_cons.mp (hlive'.subset hr) with rfl | hr
      · exact hapart
      · exact hs.apart r hr
  · have hlive' : s'.live.Perm s.live := by
      rw [hlive, live]
      exact hall.append_right _
    -- What was held is now locked for nobody.
    let lost := (Phase.paying a t d payment).holdings.locks
    have hbalances : s.desk.locks.Balances (.empty ::
        (mine ++ (s.live.map Record.locks ++ (lost :: others)))) :=
      Locks.Balances.cons_empty.mpr
        (hlocks.perm (List.perm_middle.symm.trans (List.perm_middle.symm.append_left mine)))
    refine ⟨hsorted, ⟨lost :: others, ?_⟩, fun r hr => hs.apart r (hlive'.subset hr)⟩
    rw [hsame]
    exact hbalances.perm (hstages'.append ((hlive'.map _).append_right _)).symm

theorem Accounted.sweep {world : World} (hs : s.Accounted) {before after : List Sweep.Phase}
    (removed : List Sweep.Phase) {r : Sweep.Step × Desk}
    (hsweeps : s.sweeps = before ++ removed ++ after)
    (hr : Sweep.Sweeps s.desk (s.desk.wallets.all ++ removed.flatMap Sweep.Phase.taken) r) :
    (s.sweep before after r world).Accounted := by
  obtain ⟨others, hlocks⟩ := hs.locks
  let rest := (before ++ after).flatMap Sweep.Phase.taken
  obtain ⟨hlive, hlive'⟩ := live_sweep_perm r world hsweeps
  refine ⟨hr.sorted hs.sorted, ⟨others, ?_⟩, ?_⟩
  · have hbefore := hlocks.perm (((hlive.map Record.locks).append_right others).append_left _)
    rw [List.map_append, List.append_assoc] at hbefore
    have hafter := hr.balances (rest.map Record.locks ++ others ++ s.stages.map Stage.locks)
      (hbefore.perm (List.perm_append_comm.trans (.of_eq (by simp only [rest, List.append_assoc]))))
    refine hafter.perm ?_
    rw [← List.append_assoc, ← List.append_assoc, ← List.map_append]
    exact List.perm_append_comm.trans (((hlive'.map _).append_right others).symm.append_left _)
  · intro record hrecord
    apply hs.apart
    rcases List.mem_append.mp (hlive'.subset hrecord) with hmem | hmem
    · exact hlive.symm.subset (List.mem_append_left _ (hr.mem_of_mem hmem))
    · exact hlive.symm.subset (List.mem_append_right _ hmem)

end Act

end State

variable {settings : Settings} {outside : Outside} {world : outside.World}
  {s : State outside.World}

theorem Reachable.accounted (h : Reachable settings outside world s) : s.Accounted := by
  induction h with
  | start => exact State.accounted_start world
  | @next s s' hs hnext ih =>
      obtain ⟨others, hlocks⟩ := ih.locks
      cases hnext with
      | arrive code request gone =>
          refine ih.act (Move.acts_of_arrive settings s.desk code request gone) rfl
            (Locks.Balances.cons_empty.mpr hlocks) ?_ rfl rfl
          simp only [State.arrive, List.map_append, List.map_cons, List.map_nil]
          exact List.perm_append_comm
      | @move number stage m world' hstage hmakes hdesk hworld =>
          have hlt := (List.getElem?_eq_some_iff.mp hstage).1
          have hmine := hlocks.perm ((State.locks_perm hstage).append_right _)
          have hstages := State.locks_set_perm hlt m.turn.stage
          rcases (hs.course hstage).makes_cases hmakes with ⟨phase, rfl, hacts⟩ |
            ⟨a, t, d, payment, rfl, hconcludes⟩ | ⟨failure, fallback, rfl, -, hturn⟩
          · exact ih.act hacts hdesk hmine hstages rfl rfl
          · obtain ⟨now, hturn⟩ := hconcludes.turn
            have hafter : (s.move number m world').desk =
                Submission.recordedDesk a t d now s.desk := by
              rw [State.move, Move.after, hturn, hdesk]
            cases Log.stands (hs.course hstage) with
            | waiting sound =>
                refine ih.conclude sound.apart hmine ?_ hafter rfl
                rw [hturn] at hstages
                rw [State.move, hturn]
                exact hstages
          · -- The fallback was relayed, and what was held had been given back before.
            have hafter : (s.move number m world').desk = s.desk := by
              rw [State.move, Move.after, hturn, ← hdesk]
              rfl
            have hlive : (s.move number m world').live = s.live := by
              rw [State.live, hafter]
              rfl
            rw [hturn] at hstages
            refine ⟨hafter ▸ ih.sorted, ⟨others, ?_⟩, hlive ▸ ih.apart⟩
            rw [hafter, hlive, State.move, hturn]
            exact hmine.perm (hstages.append_right _).symm
      | startSweep timeout now =>
          refine ih.sweep [] (by simp) ?_
          simpa using Sweep.start_sweeps timeout now ih.sorted
      | @sweep timeout now before after phase outcome world' hsweep hworld =>
          refine ih.sweep [phase] (by simpa using hsweep) ?_
          simpa using Sweep.resume_sweeps timeout now phase outcome ih.sorted
      | relay => exact ⟨ih.sorted, ih.locks, ih.apart⟩
      | change => exact ⟨ih.sorted, ih.locks, ih.apart⟩
      | words => exact ⟨ih.sorted, ih.locks, ih.apart⟩

theorem Reachable.holders_subset (h : Reachable settings outside world s) :
    ∀ locks ∈ s.holders, locks.coins ⊆ s.desk.locks.coins ∧ locks.inputs ⊆ s.desk.locks.inputs := by
  obtain ⟨others, hbalances⟩ := h.accounted.locks
  intro locks hlocks
  rcases List.mem_append.mp hlocks with hheld | hrecord
  · obtain ⟨stage, hstage, rfl⟩ := List.mem_map.mp hheld
    obtain ⟨hcoins, hinputs⟩ := hbalances.subset
      (List.mem_append_left _ (List.mem_map_of_mem (f := Stage.locks) hstage))
    exact ⟨List.Subset.trans stage.held_subset.1 hcoins,
      List.Subset.trans stage.held_subset.2 hinputs⟩
  · exact hbalances.subset (List.mem_append_right _ (List.mem_append_left _ hrecord))

theorem Reachable.listed (h : Reachable settings outside world s) :
    ∀ o ∈ s.desk.locks.coins, s.Listed o := by
  induction h with
  | start => exact List.forall_mem_nil _
  | @next s s' hs hnext ih =>
      cases hnext with
      | arrive code request gone =>
          intro o ho
          exact (ih o (Move.coins_arrive_subset _ _ _ _ _ ho)).mono (List.subset_append_left _ _)
      | @move number stage m world' hstage hmakes hdesk hworld =>
          intro o ho
          rcases List.mem_append.mp (Move.coins_after_subset hmakes ho) with hnew | hold
          · exact ⟨(number, m), List.mem_append_right _ (List.mem_singleton_self _), hnew⟩
          · exact (ih o (hdesk ▸ hold)).mono (List.subset_append_left _ _)
      | startSweep timeout now =>
          obtain ⟨done, -, hlocks⟩ := (Sweep.start_sweeps timeout now hs.accounted.sorted).freed
          exact fun o ho => ih o (Locks.coins_freed_subset _ done (hlocks ▸ ho))
      | sweep timeout now hsweep hworld =>
          obtain ⟨done, -, hlocks⟩ :=
            (Sweep.resume_sweeps timeout now _ _ hs.accounted.sorted).freed
          exact fun o ho => ih o (Locks.coins_freed_subset _ done (hlocks ▸ ho))
      | relay => exact ih
      | change => exact ih
      | words => exact ih

/-- No two of those that hold something hold the same, whether or not some locks are
held by nobody any more. -/
theorem Reachable.pairwise_holders (h : Reachable settings outside world s) :
    s.holders.Pairwise fun a b => a.coins.Disjoint b.coins ∧ a.inputs.Disjoint b.inputs := by
  obtain ⟨others, hbalances⟩ := h.accounted.locks
  obtain ⟨hstages, hrest, hcross⟩ := List.pairwise_append.mp hbalances.pairwise
  refine List.pairwise_append.mpr ⟨?_, (List.pairwise_append.mp hrest).1, ?_⟩
  · refine List.pairwise_map.mpr ((List.pairwise_map.mp hstages).imp fun {a b} hab => ?_)
    exact ⟨List.disjoint_of_subset_left a.held_subset.1
        (List.disjoint_of_subset_right b.held_subset.1 hab.1),
      List.disjoint_of_subset_left a.held_subset.2
        (List.disjoint_of_subset_right b.held_subset.2 hab.2)⟩
  · intro locks hlocks record hrecord
    obtain ⟨stage, hstage, rfl⟩ := List.mem_map.mp hlocks
    obtain ⟨hcoins, hinputs⟩ := hcross _ (List.mem_map_of_mem hstage) record
      (List.mem_append_left _ hrecord)
    exact ⟨List.disjoint_of_subset_left stage.held_subset.1 hcoins,
      List.disjoint_of_subset_left stage.held_subset.2 hinputs⟩

theorem Reachable.apart_of_mem_holders (h : Reachable settings outside world s) {locks : Locks}
    (hlocks : locks ∈ s.holders) : locks.Apart := by
  rcases List.mem_append.mp hlocks with hheld | hrecord
  · obtain ⟨stage, hstage, rfl⟩ := List.mem_map.mp hheld
    obtain ⟨number, hnumber⟩ := List.getElem?_of_mem hstage
    cases stage with
    | waiting phase held =>
        cases Log.stands (h.course hnumber) with
        | waiting sound => exact sound.apart
    | _ => exact List.disjoint_nil_left _
  · obtain ⟨r, hr, rfl⟩ := List.mem_map.mp hrecord
    exact h.accounted.apart r hr

theorem Reachable.apart (h : Reachable settings outside world s)
    (hsingle : ∀ e ∈ s.history, ¬e.2.Doubles) : s.desk.locks.Apart := by
  induction h with
  | start => exact List.disjoint_nil_left _
  | @next s s' hs hnext ih =>
      cases hnext with
      | arrive code request gone =>
          obtain ⟨hearlier, hlast⟩ := List.forall_mem_append.mp hsingle
          exact Move.apart_of_not_doubles (ih hearlier) (hlast _ List.mem_cons_self)
      | @move number stage m world' hstage hmakes hdesk hworld =>
          obtain ⟨hearlier, hlast⟩ := List.forall_mem_append.mp hsingle
          exact Move.apart_of_not_doubles (hdesk ▸ ih hearlier) (hlast _ List.mem_cons_self)
      | startSweep timeout now =>
          obtain ⟨done, -, hlocks⟩ := (Sweep.start_sweeps timeout now hs.accounted.sorted).freed
          exact hlocks ▸ (ih hsingle).freed done
      | sweep timeout now hsweep hworld =>
          obtain ⟨done, -, hlocks⟩ :=
            (Sweep.resume_sweeps timeout now _ _ hs.accounted.sorted).freed
          exact hlocks ▸ (ih hsingle).freed done
      | relay => exact ih hsingle
      | change => exact ih hsingle
      | words => exact ih hsingle

end Traffic

/-!
The wallet lists a coin that no sender spends, and the sender that came first is given it.
-/

namespace Traffic.Clash

open Draft.Sample (coin source accepted target)

def spare : Coin := { coin with outPoint := ⟨List.replicate 32 9, 2⟩ }

/-- The lone payment of the first sender is to be split. -/
def parted : State Outside.ofLedger.World :=
  both.answered Sample.settings 0 (.choosing spending billed []) (.ok [spare])

theorem parted_reachable : Reachable Sample.settings .ofLedger ledger parted :=
  both_reachable.answered rfl rfl

theorem parted_holders :
    parted.holders = [⟨[spare.outPoint], [coin.outPoint]⟩, ⟨[], [source]⟩] := by
  have hpicked : Submission.picked? Sample.settings spending billed [] [spare] both.desk.locks =
      some (spare, ⟨[spare.outPoint], [source, coin.outPoint]⟩) :=
    Submission.picked?_singleton (by decide) List.not_mem_nil rfl
  have hrun (held : Holdings) : (Submission.resume Sample.settings 0
      (.choosing spending billed []) (.ok [spare])).run ⟨both.desk, held⟩ = _ :=
    Submission.choose_of_split hpicked rfl
  obtain ⟨hstages, hdesk⟩ := both.answered_of_run 0 (hrun _)
  rw [State.holders, State.live, parted, hstages, hdesk]
  rfl

/-- Nothing else was listed. -/
theorem parted_listed_iff (o : OutPoint) : parted.Listed o ↔ o = spare.outPoint := by
  have hlisted : parted.history.map (·.2.listed) =
      List.replicate 10 [] ++ [[spare.outPoint]] := rfl
  have hmem : parted.Listed o ↔ ∃ l ∈ parted.history.map (·.2.listed), o ∈ l := by
    simp [State.Listed]
  rw [hmem, hlisted]
  simp

end Traffic.Clash

namespace Traffic

variable {settings : Settings} {outside : Outside} {world : outside.World}
  {s : State outside.World}

/-- Two payjoins overlap only where the coin of one is an input of the other. -/
theorem Reachable.pairwise_spends (h : Reachable settings outside world s)
    (hcross : ∀ a ∈ s.holders, ∀ b ∈ s.holders, a.coins.Disjoint b.inputs) :
    s.holders.Pairwise fun a b => a.spends.Disjoint b.spends :=
  h.pairwise_holders.imp_of_mem fun {a b} ha hb hab =>
    Locks.disjoint_spends hab.1 hab.2 (hcross a ha b hb)
      fun _ hinput hcoin => hcross b hb a ha hcoin hinput

/-- What a running submission or a live record holds is apart, its coins were listed by
a wallet, and no two of them hold the same coin or the same input. No two of them spend
the same output if no original spends a coin that was listed, and not either as long as
nothing is locked twice over. -/
theorem payjoins_are_apart (h : Reachable settings outside world s) :
    (∀ locks ∈ s.holders, locks.Apart ∧ ∀ o ∈ locks.coins, s.Listed o) ∧
    s.holders.Pairwise (fun a b => a.coins.Disjoint b.coins ∧ a.inputs.Disjoint b.inputs) ∧
    ((∀ locks ∈ s.holders, ∀ o ∈ locks.inputs, ¬s.Listed o) →
      s.holders.Pairwise fun a b => a.spends.Disjoint b.spends) ∧
    ((∀ e ∈ s.history, ¬e.2.Doubles) →
      s.holders.Pairwise fun a b => a.spends.Disjoint b.spends) := by
  have hlisted : ∀ locks ∈ s.holders, ∀ o ∈ locks.coins, s.Listed o := fun locks hlocks o ho =>
    h.listed o ((h.holders_subset locks hlocks).1 ho)
  refine ⟨fun locks hlocks => ⟨h.apart_of_mem_holders hlocks, hlisted locks hlocks⟩,
    h.pairwise_holders, fun hforeign => ?_, fun hsingle => ?_⟩
  · exact h.pairwise_spends fun a ha b hb o hcoin hinput =>
      hforeign b hb o hinput (hlisted a ha o hcoin)
  · have hlocks := h.apart hsingle
    exact h.pairwise_spends fun a ha b hb o hcoin hinput =>
      hlocks ((h.holders_subset a ha).1 hcoin) ((h.holders_subset b hb).2 hinput)

namespace Clash

open Draft.Sample (accepted coin source)

/-- Two submissions wait, and one of them has a coin that no sender spends. -/
theorem parted_is_apart :
    parted.holders = [⟨[spare.outPoint], [coin.outPoint]⟩, ⟨[], [source]⟩] ∧
    (∀ locks ∈ parted.holders, locks.Apart) ∧ parted.Listed spare.outPoint ∧
    parted.holders.Pairwise (fun a b => a.coins.Disjoint b.coins ∧ a.inputs.Disjoint b.inputs) ∧
    (∀ locks ∈ parted.holders, ∀ o ∈ locks.inputs, ¬parted.Listed o) ∧
    parted.holders.Pairwise fun a b => a.spends.Disjoint b.spends := by
  obtain ⟨hholders, hpairwise, hspends, -⟩ := payjoins_are_apart parted_reachable
  have hlisted : parted.Listed spare.outPoint :=
    (hholders _ (parted_holders ▸ List.mem_cons_self)).2 _ List.mem_cons_self
  have hforeign : ∀ locks ∈ parted.holders, ∀ o ∈ locks.inputs, ¬parted.Listed o := by
    rw [parted_holders]
    simp [parted_listed_iff, spare, coin, source]
  exact ⟨parted_holders, fun locks hlocks => (hholders locks hlocks).1, hlisted, hpairwise,
    hforeign, hspends hforeign⟩

/-- The proposal with the coin is handed out while another transaction that spends the
coin is still waited for. -/
theorem coin_is_spent_twice : ∃ s, Reachable Sample.settings .ofLedger ledger s ∧
    s.stages[0]? = some (.waiting (.choosing spending billed [])
      ⟨[coin.outPoint], [], some spender⟩) ∧
    (∃ r ∈ s.live, r.coins = [coin.outPoint]) ∧
    ¬s.holders.Pairwise fun a b => a.spends.Disjoint b.spends := by
  obtain ⟨signed, hsigns⟩ := exists_signs
  have hwaits := handedOut_waits hsigns
  have hrecord := (live_handedOut hsigns).symm.subset List.mem_cons_self
  have hcoins : (Submission.recordOf accepted signed 0).coins = [coin.outPoint] := by
    simp only [Submission.recordOf, hsigns.contributed, List.map_cons, List.map_nil]
  refine ⟨handedOut signed, handedOut_reachable hsigns, hwaits,
    ⟨_, hrecord, hcoins⟩, fun hapart => ?_⟩
  have hheld : ⟨[], [coin.outPoint]⟩ ∈ (handedOut signed).stages.map Stage.held :=
    List.mem_map_of_mem (f := Stage.held) (List.mem_of_getElem? hwaits)
  have hshared := (List.pairwise_append.mp hapart).2.2 _ hheld _ (List.mem_map_of_mem hrecord)
  have hlocked : (Submission.recordOf accepted signed 0).locks.coins = [coin.outPoint] := hcoins
  refine hshared (List.mem_singleton_self _) (List.mem_append_left _ ?_)
  exact hlocked.symm ▸ List.mem_singleton_self _

end Clash

end Traffic

end Paydesk.Payjoin

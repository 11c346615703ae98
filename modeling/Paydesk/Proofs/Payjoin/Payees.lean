import Mathlib.Data.Prod.Lex
import Mathlib.Order.WellFounded
import Paydesk.Proofs.Payjoin.Fees
import Paydesk.Proofs.Payjoin.Search

/-!
Which invoice a fallback pays: of those whose payment method takes payjoins to just the script
of an output the first one, by its output and then by its place among what is found for that.
The search ends with this invoice even if it is refused, and no other one matters.
-/

namespace Paydesk.Payjoin

open Chain Wallet Invoices

/-- The invoices that there are: those that are found for a key, and their payment methods. -/
structure Register where
  find : String → List String
  method? : String → String → Option PaymentMethod

namespace Register

variable (reg : Register)

/-- The answers to the calls of a search. -/
def reply? : (call : Call) → Option call.Outcome
  | .findInvoices key => some (.ok (reg.find key))
  | .paymentMethod invoice code => some (.ok (reg.method? invoice code))
  | _ => none

theorem reply?_of_method? {invoice code : String} {result : Option PaymentMethod}
    (h : reg.method? invoice code = result) :
    reg.reply? (.paymentMethod invoice code) = some (.ok result) := by
  subst h
  rfl

/-- The payment method of an invoice that is paid with payjoin to a script. -/
def payee? (code : String) (script : Script) (invoice : String) : Option (String × PaymentMethod) :=
  (reg.method? invoice code).bind fun method =>
    if method.payjoin && method.depositScript == script then some (invoice, method) else none

/-- Of the invoices that are found for a script those that are paid with payjoin to it. -/
def payees (code : String) (script : Script) : List (String × PaymentMethod) :=
  (reg.find (trackingKey script code)).filterMap (reg.payee? code script)

end Register

namespace Submission

variable {reg reg' : Register} {settings : Settings} {a : Accepted} {i j : Nat} {t : Target}
  {output : TxOut} {p q : StateM Session Step} {s : Session}

section Runs

/-- How a submission goes on while a register answers what it asks. Between its calls the
session may be changed by others. -/
inductive Ends (reg : Register) (settings : Settings) : Step × Session → Step × Session → Prop
  | stop {x : Step × Session}
      (h : ∀ phase, x.1 = .wait phase → reg.reply? phase.call = none) : Ends reg settings x x
  | ask {phase : Phase} {outcome : phase.call.Outcome} {s : Session} {y : Step × Session}
      (houtcome : reg.reply? phase.call = some outcome) (now : Nat) (s' : Session)
      (h : Ends reg settings ((resume settings now phase outcome).run s') y) :
      Ends reg settings (.wait phase, s) y

/-- One program ends with what another one does. -/
structure Becomes (reg : Register) (settings : Settings) (p q : StateM Session Step) : Prop where
  ends (s : Session) : Ends reg settings (p.run s) (q.run s)
  only {s : Session} {y : Step × Session} (h : Ends reg settings (p.run s) y) :
    ∃ s', y = q.run s'

theorem Becomes.stop
    (h : ∀ s phase, (p.run s).1 = .wait phase → reg.reply? phase.call = none) :
    Becomes reg settings p p where
  ends s := .stop (h s)
  only {s y} hy := by
    generalize hx : p.run s = x at hy
    cases hy with
    | stop => exact ⟨s, hx.symm⟩
    | ask houtcome =>
        have hnone := h s _ (congrArg Prod.fst hx)
        rw [hnone] at houtcome
        cases houtcome

theorem Becomes.ask {phase : Phase} {outcome : phase.call.Outcome}
    (houtcome : reg.reply? phase.call = some outcome)
    (hresume : ∀ now, resume settings now phase outcome = p) (h : Becomes reg settings p q) :
    Becomes reg settings (pure (.wait phase)) q where
  ends s := by
    refine .ask houtcome 0 s ?_
    rw [hresume]
    exact h.ends s
  only {s y} hy := by
    generalize hx : (pure (.wait phase) : StateM Session Step).run s = x at hy
    cases hy with
    | stop hstop =>
        subst hx
        rw [hstop phase rfl] at houtcome
        cases houtcome
    | ask houtcome' now s' hmore =>
        cases hx
        obtain rfl := Option.some.inj (houtcome.symm.trans houtcome')
        rw [hresume] at hmore
        exact h.only hmore

end Runs

/-- What becomes of the invoice that an output pays. -/
def settle (a : Accepted) (t : Target) : StateM Session Step :=
  if t.method.account.scriptType ≠ a.type then
    pure (reject .outOfUtxos ("We do not have any UTXO available for making a payjoin " ++
      "with the sender's inputs type"))
  else if t.method.hasPayments then
    pure (reject .alreadyPaid
      "The invoice this PSBT is paying has already been partially or completely paid")
  else engage a t (paidValue a t)

def notFound : Step :=
  reject .invoiceNotFound "This transaction does not pay any invoice with payjoin"

/-- What a search ends with. -/
def verdict (a : Accepted) : Option Target → StateM Session Step
  | some t => settle a t
  | none => pure notFound

section Settling

theorem settle_run (a : Accepted) (t : Target) (s : Session) :
    (∃ exposed, ((settle a t).run s).1 = .wait (.choosing a t exposed)) ∨
      ∃ code message, ((settle a t).run s).1 = reject code message ∧ code ≠ .invoiceNotFound := by
  unfold settle
  split_ifs with htype hpaid
  · exact .inr ⟨_, _, rfl, by decide⟩
  · exact .inr ⟨_, _, rfl, by decide⟩
  · by_cases hdue : 0 < remainingDue t.method.due (paidValue a t)
    · rw [engage_of_due hdue]
      exact .inr ⟨_, _, rfl, by decide⟩
    · cases hlocks : s.desk.locks.lockInputs? a.fallback.outPoints with
      | none =>
          rw [engage_of_locked hdue hlocks]
          exact .inr ⟨_, _, rfl, by decide⟩
      | some locks =>
          cases hconflict :
              (s.desk.wallets.records t.method.account.wallet).conflict? a.fallback with
          | some conflict =>
              rw [engage_of_conflict? hdue hlocks hconflict]
              exact .inr ⟨_, _, rfl, by decide⟩
          | none =>
              rw [engage_of_free hdue hlocks hconflict]
              exact .inl ⟨_, rfl⟩

theorem becomes_settle (a : Accepted) (t : Target) :
    Becomes reg settings (settle a t) (settle a t) := by
  refine .stop fun s phase hphase => ?_
  rcases settle_run a t s with ⟨exposed, h⟩ | ⟨code, message, h, -⟩
  · obtain rfl := Step.wait.inj (h.symm.trans hphase)
    rfl
  · cases h.symm.trans hphase

theorem settle_ne_notFound (a : Accepted) (t : Target) (s s' : Session) :
    (settle a t).run s ≠ (pure notFound : StateM Session Step).run s' := by
  intro heq
  rcases settle_run a t s with ⟨exposed, h⟩ | ⟨code, message, h, hcode⟩
  · cases h.symm.trans (congrArg Prod.fst heq)
  · have hfailure := Step.failed.inj (h.symm.trans (congrArg Prod.fst heq))
    have hreply := Failure.rejected.inj hfailure
    exact hcode (congrArg Reply.code hreply)

end Settling

section Searches

/-- What an output pays. -/
def rowOf (i : Nat) (payees : List (String × PaymentMethod)) : List Target :=
  payees.map fun (invoice, method) => ⟨invoice, i, method⟩

/-- What the outputs from an index on pay, in their order. -/
def payeesFrom (reg : Register) (settings : Settings) (a : Accepted) (i : Nat) : List Target :=
  ((a.fallback.outputs.drop i).zipIdx i).flatMap fun (output, k) =>
    rowOf k (reg.payees settings.code output.script)

theorem payeesFrom_of_getElem? (houtput : a.fallback.outputs[i]? = some output) :
    payeesFrom reg settings a i =
      rowOf i (reg.payees settings.code output.script) ++ payeesFrom reg settings a (i + 1) := by
  obtain ⟨hlt, rfl⟩ := List.getElem?_eq_some_iff.mp houtput
  rw [payeesFrom, List.drop_eq_getElem_cons hlt, List.zipIdx_cons, List.flatMap_cons, payeesFrom]

theorem payeesFrom_of_none (houtput : a.fallback.outputs[i]? = none) :
    payeesFrom reg settings a i = [] := by
  rw [payeesFrom, List.drop_eq_nil_of_le (List.getElem?_eq_none_iff.mp houtput)]
  rfl

theorem consider_of_pays {invoice : String} {method : PaymentMethod} (others : List String)
    (houtput : a.fallback.outputs[i]? = some output) (hpayjoin : method.payjoin)
    (hscript : method.depositScript = output.script) :
    consider settings a i invoice others method = settle a ⟨invoice, i, method⟩ := by
  have hpaid : paidValue a ⟨invoice, i, method⟩ = output.value := by
    rw [paidValue, houtput]
    rfl
  rw [consider, houtput, settle, hpaid]
  dsimp only
  rw [if_neg (by simp [hpayjoin, hscript])]

theorem consider_of_not_pays {invoice : String} {method : PaymentMethod} (others : List String)
    (houtput : a.fallback.outputs[i]? = some output)
    (hother : (method.payjoin && method.depositScript == output.script) = false) :
    consider settings a i invoice others method = pure (searchAmong settings a i others) := by
  have hskip : (!method.payjoin || method.depositScript != output.script) = true := by
    rw [bne, ← Bool.not_and, hother, Bool.not_false]
  rw [consider, houtput]
  dsimp only
  rw [if_pos hskip]

/-- The rest of a row is asked for one by one, up to the first invoice that is paid. -/
theorem becomes_searchAmong (houtput : a.fallback.outputs[i]? = some output)
    {following : List Target}
    (hnext : Becomes reg settings (pure (search settings a (i + 1))) (verdict a following.head?))
    (invoices : List String) :
    Becomes reg settings (pure (searchAmong settings a i invoices))
      (verdict a (rowOf i (invoices.filterMap (reg.payee? settings.code output.script)) ++
        following).head?) := by
  induction invoices with
  | nil => exact hnext
  | cons invoice others ih =>
      cases hmethod : reg.method? invoice settings.code with
      | none =>
          have hpayee : reg.payee? settings.code output.script invoice = none := by
            rw [Register.payee?, hmethod, Option.bind_none]
          rw [List.filterMap_cons_none hpayee]
          exact .ask (reg.reply?_of_method? hmethod) (fun _ => rfl) ih
      | some method =>
          have hreply := reg.reply?_of_method? hmethod
          cases hpays : method.payjoin && method.depositScript == output.script with
          | false =>
              have hpayee : reg.payee? settings.code output.script invoice = none := by
                rw [Register.payee?, hmethod, Option.bind_some, hpays]
                rfl
              rw [List.filterMap_cons_none hpayee]
              exact .ask hreply (fun _ => consider_of_not_pays others houtput hpays) ih
          | true =>
              have hpayee : reg.payee? settings.code output.script invoice =
                  some (invoice, method) := by
                rw [Register.payee?, hmethod, Option.bind_some, hpays]
                rfl
              rw [List.filterMap_cons_some hpayee]
              rw [Bool.and_eq_true, beq_iff_eq] at hpays
              exact .ask hreply (fun _ => consider_of_pays others houtput hpays.1 hpays.2)
                (becomes_settle a _)

/-- From any output on, a search ends with the first invoice that is paid, if there is one. -/
theorem becomes_search (reg : Register) (settings : Settings) (a : Accepted) (i : Nat) :
    Becomes reg settings (pure (search settings a i))
      (verdict a (payeesFrom reg settings a i).head?) := by
  cases houtput : a.fallback.outputs[i]? with
  | none =>
      rw [payeesFrom_of_none houtput, search, houtput]
      exact .stop fun _ _ h => by cases h
  | some output =>
      have hlt : i < a.fallback.outputs.length := (List.getElem?_eq_some_iff.mp houtput).1
      have hnext := becomes_search reg settings a (i + 1)
      rw [payeesFrom_of_getElem? houtput, search, houtput]
      exact .ask rfl (fun _ => rfl) (becomes_searchAmong houtput hnext _)
termination_by a.fallback.outputs.length - i

end Searches

section Places

/-- That an output pays the invoice at a place among those that are found for it: the payment
method takes payjoins, to just the script of the output. -/
structure PaysAt (reg : Register) (settings : Settings) (a : Accepted) (i j : Nat) (t : Target) :
    Prop where
  index : t.index = i
  found : ∃ output, a.fallback.outputs[i]? = some output ∧
    (reg.find (trackingKey output.script settings.code))[j]? = some t.invoice ∧
    t.method.depositScript = output.script
  method : reg.method? t.invoice settings.code = some t.method
  payjoin : t.method.payjoin

/-- That no other invoice that is paid comes before one. -/
def PaysFirst (reg : Register) (settings : Settings) (a : Accepted) (i j : Nat) (t : Target) :
    Prop :=
  PaysAt reg settings a i j t ∧
    ∀ i' j' t', PaysAt reg settings a i' j' t' → toLex (i, j) ≤ toLex (i', j')

theorem exists_paysFirst (h : PaysAt reg settings a i j t) :
    ∃ i' j' t', PaysFirst reg settings a i' j' t' := by
  let places : Set (ℕ ×ₗ ℕ) := {p | ∃ t, PaysAt reg settings a (ofLex p).1 (ofLex p).2 t}
  obtain ⟨p, ⟨t', hpays⟩, hfirst⟩ := wellFounded_lt.has_min places ⟨toLex (i, j), t, h⟩
  exact ⟨_, _, t', hpays, fun i' j' u hu => not_lt.mp (hfirst (toLex (i', j')) ⟨u, hu⟩)⟩

theorem payee?_eq_some {code invoice : String} {script : Script} {p : String × PaymentMethod} :
    reg.payee? code script invoice = some p ↔ p.1 = invoice ∧
      reg.method? invoice code = some p.2 ∧ p.2.payjoin ∧ p.2.depositScript = script := by
  obtain ⟨found, method⟩ := p
  rw [Register.payee?, Option.bind_eq_some_iff]
  constructor
  · rintro ⟨method', hmethod, h⟩
    split_ifs at h with hpays
    cases h
    rw [Bool.and_eq_true, beq_iff_eq] at hpays
    exact ⟨rfl, hmethod, hpays⟩
  · rintro ⟨rfl, hmethod, hpays⟩
    refine ⟨method, hmethod, if_pos ?_⟩
    rwa [Bool.and_eq_true, beq_iff_eq]

/-- What is paid at a place is found there among the payees of the output. -/
theorem paysAt_iff : PaysAt reg settings a i j t ↔ t.index = i ∧
    ∃ output, a.fallback.outputs[i]? = some output ∧
      ∃ invoice, (reg.find (trackingKey output.script settings.code))[j]? = some invoice ∧
        reg.payee? settings.code output.script invoice = some (t.invoice, t.method) := by
  simp only [payee?_eq_some]
  constructor
  · rintro ⟨hindex, ⟨output, houtput, hfound, hscript⟩, hmethod, hpayjoin⟩
    exact ⟨hindex, output, houtput, _, hfound, rfl, hmethod, hpayjoin, hscript⟩
  · rintro ⟨hindex, output, houtput, _, hfound, rfl, hmethod, hpayjoin, hscript⟩
    exact ⟨hindex, ⟨output, houtput, hfound, hscript⟩, hmethod, hpayjoin⟩

/-- An output with a payee pays it somewhere. -/
theorem exists_paysAt (houtput : a.fallback.outputs[i]? = some output)
    {p : String × PaymentMethod} (hp : p ∈ reg.payees settings.code output.script) :
    ∃ j, PaysAt reg settings a i j ⟨p.1, i, p.2⟩ := by
  obtain ⟨invoice, hinvoice, hpayee⟩ := List.mem_filterMap.mp hp
  obtain ⟨j, hj⟩ := List.mem_iff_getElem?.mp hinvoice
  exact ⟨j, paysAt_iff.mpr ⟨rfl, output, houtput, invoice, hj, hpayee⟩⟩

/-- Outputs without payees are passed over. -/
theorem payeesFrom_eq_of_forall_nil (hnil : ∀ k < i, ∀ output, a.fallback.outputs[k]? = some output →
    reg.payees settings.code output.script = []) :
    payeesFrom reg settings a 0 = payeesFrom reg settings a i := by
  induction i with
  | zero => rfl
  | succ i ih =>
      rw [ih fun k hk => hnil k (by omega)]
      cases houtput : a.fallback.outputs[i]? with
      | none =>
          have hend := List.getElem?_eq_none_iff.mp houtput
          rw [payeesFrom_of_none houtput,
            payeesFrom_of_none (List.getElem?_eq_none_iff.mpr (by omega))]
      | some output =>
          rw [payeesFrom_of_getElem? houtput, hnil i (by omega) output houtput]
          rfl

theorem head?_filterMap_of_getElem? {α β : Type} {f : α → Option β} {l : List α} {j : Nat} {x : α}
    {y : β} (hx : l[j]? = some x) (hy : f x = some y)
    (hbefore : ∀ k < j, ∀ z, l[k]? = some z → f z = none) : (l.filterMap f).head? = some y := by
  induction l generalizing j with
  | nil => cases hx
  | cons z l ih =>
      cases j with
      | zero =>
          obtain rfl : z = x := Option.some.inj hx
          rw [List.filterMap_cons_some hy]
          rfl
      | succ j =>
          rw [List.filterMap_cons_none (hbefore 0 j.succ_pos z rfl)]
          exact ih hx fun k hk w hw => hbefore (k + 1) (by omega) w hw

/-- What is paid first stands first. -/
theorem head?_payeesFrom (h : PaysFirst reg settings a i j t) :
    (payeesFrom reg settings a 0).head? = some t := by
  obtain ⟨hpays, hfirst⟩ := h
  obtain ⟨rfl, output, houtput, invoice, hinvoice, hpayee⟩ := paysAt_iff.mp hpays
  have hearlier : ∀ k < t.index, ∀ output, a.fallback.outputs[k]? = some output →
      reg.payees settings.code output.script = [] := by
    intro k hk earlier hearlier
    refine List.eq_nil_iff_forall_not_mem.mpr fun p hp => ?_
    obtain ⟨j', hj'⟩ := exists_paysAt hearlier hp
    rcases Prod.Lex.toLex_le_toLex.mp (hfirst _ _ _ hj') with hlt | ⟨heq, -⟩
    · exact absurd hlt (by simpa using hk.le)
    · exact absurd heq hk.ne'
  have hhead : (reg.payees settings.code output.script).head? = some (t.invoice, t.method) := by
    refine head?_filterMap_of_getElem? hinvoice hpayee fun k hk other hother => ?_
    by_contra hsome
    obtain ⟨p, hp⟩ := Option.ne_none_iff_exists'.mp hsome
    have hpaysk : PaysAt reg settings a t.index k ⟨p.1, t.index, p.2⟩ :=
      paysAt_iff.mpr ⟨rfl, output, houtput, other, hother, hp⟩
    rcases Prod.Lex.toLex_le_toLex.mp (hfirst _ _ _ hpaysk) with hlt | ⟨-, hle⟩
    · exact absurd hlt (lt_irrefl _)
    · exact absurd hle (not_le.mpr hk)
  rw [payeesFrom_eq_of_forall_nil hearlier, payeesFrom_of_getElem? houtput, List.head?_append,
    rowOf, List.head?_map, hhead]
  rfl

/-- There is a payee just if something is paid somewhere. -/
theorem payeesFrom_eq_nil_iff : payeesFrom reg settings a 0 = [] ↔
    ∀ i j t, ¬PaysAt reg settings a i j t := by
  constructor
  · rintro hnil i j t h
    obtain ⟨i', j', t', hfirst⟩ := exists_paysFirst h
    have hhead := head?_payeesFrom hfirst
    rw [hnil] at hhead
    cases hhead
  · intro hnone
    rw [@payeesFrom_eq_of_forall_nil reg settings a a.fallback.outputs.length]
    · exact payeesFrom_of_none (List.getElem?_eq_none_iff.mpr le_rfl)
    · intro k hk output houtput
      refine List.eq_nil_iff_forall_not_mem.mpr fun p hp => ?_
      obtain ⟨j, hj⟩ := exists_paysAt houtput hp
      exact hnone _ _ _ hj

end Places

/-- A search ends with the first invoice that is paid, whether it is refused or not, and finds
none only if none is paid. Invoices that are not paid do not matter. -/
theorem search_settles_first (reg : Register) (settings : Settings) (a : Accepted) :
    (∀ i j t, PaysFirst reg settings a i j t →
      Becomes reg settings (pure (search settings a 0)) (settle a t)) ∧
    ((∃ i j t, PaysFirst reg settings a i j t) ↔ ∃ i j t, PaysAt reg settings a i j t) ∧
    (Becomes reg settings (pure (search settings a 0)) (pure notFound) ↔
      ∀ i j t, ¬PaysAt reg settings a i j t) ∧
    ∀ reg' : Register, (∀ output ∈ a.fallback.outputs,
      reg'.payees settings.code output.script = reg.payees settings.code output.script) →
      ∃ p, Becomes reg settings (pure (search settings a 0)) p ∧
        Becomes reg' settings (pure (search settings a 0)) p := by
  have hends (reg : Register) := becomes_search reg settings a 0
  refine ⟨fun i j t hfirst => ?_, ?_, ?_, fun reg' hpayees => ?_⟩
  · have h := hends reg
    rwa [head?_payeesFrom hfirst] at h
  · constructor
    · rintro ⟨i, j, t, h, -⟩
      exact ⟨i, j, t, h⟩
    · rintro ⟨i, j, t, h⟩
      exact exists_paysFirst h
  · rw [← payeesFrom_eq_nil_iff]
    constructor
    · intro hnone
      cases hpayees : payeesFrom reg settings a 0 with
      | nil => rfl
      | cons t following =>
          have h := hends reg
          rw [hpayees] at h
          let s : Session := ⟨⟨.empty, [], []⟩, .none⟩
          obtain ⟨s', hs'⟩ := hnone.only (h.ends s)
          exact absurd hs' (settle_ne_notFound a t s s')
    · intro hnil
      have h := hends reg
      rwa [hnil] at h
  · refine ⟨_, hends reg, ?_⟩
    have hsame : payeesFrom reg settings a 0 = payeesFrom reg' settings a 0 := by
      rw [payeesFrom, payeesFrom, List.flatMap_def, List.flatMap_def]
      refine congrArg List.flatten (List.map_congr_left fun row hrow => ?_)
      have hrow := List.mem_of_mem_drop (List.fst_mem_of_mem_zipIdx hrow)
      dsimp only
      rw [hpayees row.1 hrow]
    rw [hsame]
    exact hends reg'

end Submission

namespace Submission.Sample

open Draft.Sample

def settings : Settings := ⟨"BTC", 60000, 250, []⟩

def method : PaymentMethod := ⟨deposit, true, ⟨"shop", .segwit⟩, 4900, false⟩

/-- Of five invoices that are found for every key the first one is hidden, the second one takes
no payjoin and the third one is paid by the change. The fourth one is paid already. -/
def register : Register where
  find _ := ["hidden", "closed", "other", "paid", "order"]
  method? invoice _ :=
    [("closed", { method with payjoin := false }), ("other", { method with depositScript := change }),
      ("paid", { method with hasPayments := true }), ("order", method)].lookup invoice

def paid : Target := ⟨"paid", 0, { method with hasPayments := true }⟩

/-- The invoice that is paid already is refused, and no other one is taken in its place. -/
theorem search_refuses_paid :
    PaysFirst register settings accepted 0 3 paid ∧
      Becomes register settings (pure (search settings accepted 0)) (pure (reject .alreadyPaid
        "The invoice this PSBT is paying has already been partially or completely paid")) := by
  have hfirst : PaysFirst register settings accepted 0 3 paid := by
    refine ⟨⟨rfl, ⟨_, rfl, rfl, rfl⟩, rfl, rfl⟩, fun i j t h => ?_⟩
    obtain ⟨-, output, houtput, invoice, hinvoice, hpayee⟩ := paysAt_iff.mp h
    rw [Prod.Lex.toLex_le_toLex]
    rcases Nat.eq_zero_or_pos i with rfl | hpos
    · refine .inr ⟨rfl, not_lt.mp fun hlt => ?_⟩
      obtain rfl := Option.some.inj houtput
      have hplace : j = 0 ∨ j = 1 ∨ j = 2 := by
        dsimp only at hlt
        omega
      rcases hplace with rfl | rfl | rfl <;>
        · obtain rfl := Option.some.inj hinvoice
          cases hpayee
    · exact .inl hpos
  exact ⟨hfirst, (search_settles_first register settings accepted).1 0 3 paid hfirst⟩

end Submission.Sample

end Paydesk.Payjoin

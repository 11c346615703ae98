import Paydesk.Proofs.Payjoin.FeeRate
import Paydesk.Proofs.Payjoin.Submission
import Paydesk.Proofs.Text.Digits

/-!
The steps of a submission on a machine whose numbers take 64 bits. It stops where a
result does not fit, where more is taken away than there is, and where something is
divided into no parts. As long as it does not stop, it finds what unbounded numbers give.
-/

namespace Paydesk.Payjoin.Machine

open Chain Wallet Invoices Draft

/-- A result that has to fit. -/
def fit? (n : Nat) : Option Nat := if n < limit64 then some n else none

def add? (n m : Nat) : Option Nat := fit? (n + m)

def sub? (n m : Nat) : Option Nat := if m ≤ n then some (n - m) else none

def mul? (n m : Nat) : Option Nat := fit? (n * m)

def div? (n m : Nat) : Option Nat := if m = 0 then none else some (n / m)

def mod? (n m : Nat) : Option Nat := if m = 0 then none else some (n % m)

/-- The sum of some numbers, added up from the first one on. -/
def sum? (ns : List Nat) : Option Nat := ns.foldlM add? 0

/-- The difference of numbers that have a sign. -/
def difference? (n m : Int) : Option Int :=
  if -limit63 ≤ n - m ∧ n - m < limit63 then some (n - m) else none

section Arithmetic

variable {n m : Nat}

theorem fit?_eq (h : n < limit64) : fit? n = some n := if_pos h

theorem add?_eq (h : n + m < limit64) : add? n m = some (n + m) := if_pos h

theorem sub?_eq (h : m ≤ n) : sub? n m = some (n - m) := if_pos h

theorem mul?_eq (h : n * m < limit64) : mul? n m = some (n * m) := if_pos h

theorem div?_eq (h : 0 < m) : div? n m = some (n / m) := if_neg h.ne'

theorem mod?_eq (h : 0 < m) : mod? n m = some (n % m) := if_neg h.ne'

theorem foldlM_add?_eq {ns : List Nat} (h : n + total ns < limit64) :
    ns.foldlM add? n = some (n + total ns) := by
  induction ns generalizing n with
  | nil => rfl
  | cons m ns ih =>
      rw [total_cons, ← Nat.add_assoc] at h ⊢
      rw [List.foldlM_cons, add?_eq (by omega)]
      exact ih h

theorem sum?_eq {ns : List Nat} (h : total ns < limit64) : sum? ns = some (total ns) := by
  have hzero : 0 + total ns = total ns := Nat.zero_add _
  rw [sum?, foldlM_add?_eq (hzero.symm ▸ h), hzero]

end Arithmetic

/-!
Fees, rates and what is due.
-/

def feeRateOf? (fee weight : Nat) : Option Nat :=
  if weight = 0 then some 0 else div? (min (fee * 1000) (limit64 - 1)) weight

/-- The quotient, and one more if something is left. -/
def feeFor? (rate weight : Nat) : Option Nat := do
  let product ← mul? rate weight
  let quotient ← div? product 1000
  if product % 1000 = 0 then some quotient else add? quotient 1

def remainingDue? (due paid : Nat) : Option Int :=
  difference? (min due (limit63 - 1) : Nat) (min paid (limit63 - 1) : Nat)

/-- What the receiver may give up, if something is overpaid. -/
def allowance? (due : Int) (params : Params) : Option Nat :=
  if due < 0 ∧ ¬params.keepOutputs then (difference? 0 due).map Int.toNat else some 0

/-- The limit is found in thousandths first. -/
def dust? (script : Script) : Option Nat := do div? (← mul? 1000 (dustLimit script)) 1000

section Fees

variable {rate weight : Nat} {due : Int}

theorem feeRateOf?_eq (fee weight : Nat) : feeRateOf? fee weight = some (feeRateOf fee weight) := by
  unfold feeRateOf? feeRateOf
  split
  · rfl
  · rename_i hweight
    exact div?_eq (Nat.pos_of_ne_zero hweight)

theorem feeFor?_eq (h : rate * weight < limit64) :
    feeFor? rate weight = some (feeFor rate weight) := by
  have hsmall : rate * weight / 1000 + 1 < limit64 := by
    unfold limit64 at h ⊢
    omega
  rw [feeFor?, mul?_eq h]
  simp only [Option.bind_eq_bind, Option.bind_some, div?_eq (by decide : 0 < 1000)]
  split
  · exact congrArg some (by unfold feeFor; omega)
  · rw [add?_eq hsmall]
    exact congrArg some (by unfold feeFor; omega)

theorem remainingDue?_eq (due paid : Nat) :
    remainingDue? due paid = some (remainingDue due paid) := by
  refine if_pos ?_
  unfold limit63
  omega

theorem lt_remainingDue (due paid : Nat) : -limit63 < remainingDue due paid := by
  unfold remainingDue limit63
  omega

theorem allowance?_eq (h : -limit63 < due) (params : Params) :
    allowance? due params = some (receiverBudget due params) := by
  unfold allowance? receiverBudget
  cases hkeep : params.keepOutputs with
  | true => simp
  | false =>
      by_cases hdue : due < 0
      · have hfits : difference? 0 due = some (0 - due) := by
          refine if_pos ?_
          unfold limit63 at h ⊢
          omega
        simp [hdue, hfits]
      · have hnone : (-due).toNat = 0 := by omega
        simp [hdue, hnone]

theorem dust?_eq {script : Script} (h : 1000 * dustLimit script < limit64) :
    dust? script = some (dustLimit script) := by
  rw [dust?, mul?_eq h]
  simp only [Option.bind_eq_bind, Option.bind_some, div?_eq (by decide : 0 < 1000)]
  rw [Nat.mul_div_cancel_left _ (by decide)]

end Fees

/-!
The choice of a coin.
-/

def reveals? (payment sum : Nat) (others : List Nat) (coin : Coin) : Option Bool :=
  if others.any (· < coin.output.value) then some true
  else (add? payment sum).map fun all => all < coin.output.value

/-- The coins that do not tell which output is the payment. -/
def discreet? (payment sum : Nat) (others : List Nat) : List Coin → Option (List Coin)
  | [] => some []
  | coin :: coins => do
      let reveals ← reveals? payment sum others coin
      let discreet ← discreet? payment sum others coins
      return if reveals then discreet else coin :: discreet

/-- Goes through the coins that are preferred, then through all that were not tried. -/
def pick? (candidates discreet : List Coin) (locks : Locks) : Option (Coin × Locks) :=
  match Selection.search Selection.maxAttempts locks discreet with
  | .found coin locks => some (coin, locks)
  | .stopped => none
  | .exhausted attempts =>
      let tried := discreet.map Coin.outPoint
      match Selection.search attempts locks
          (candidates.filter fun coin => !tried.contains coin.outPoint) with
      | .found coin locks => some (coin, locks)
      | _ => none

def select? (candidates : List Coin) (locks : Locks) (payment : Nat) (others : List Nat) :
    Option (Option (Coin × Locks)) := do
  let sum ← sum? others
  return pick? candidates (← discreet? payment sum others candidates) locks

section Selection

variable {payment : Nat} {others : List Nat}

theorem reveals?_eq (h : payment + total others < limit64) (coin : Coin) :
    reveals? payment (total others) others coin =
      some (Selection.revealsPayment payment others coin) := by
  unfold reveals? Selection.revealsPayment
  rw [add?_eq h]
  cases others.any (· < coin.output.value) <;> rfl

theorem discreet?_eq (h : payment + total others < limit64) (coins : List Coin) :
    discreet? payment (total others) others coins =
      some (coins.filter fun coin => !Selection.revealsPayment payment others coin) := by
  induction coins with
  | nil => rfl
  | cons coin coins ih =>
      rw [discreet?, reveals?_eq h, ih, List.filter_cons]
      cases Selection.revealsPayment payment others coin <;> rfl

theorem select?_eq (h : payment + total others < limit64) (candidates : List Coin)
    (locks : Locks) : select? candidates locks payment others =
      some (Selection.select? candidates locks payment others) := by
  have hothers : total others < limit64 := by omega
  rw [select?, sum?_eq hothers]
  simp only [Option.bind_eq_bind, Option.bind_some, discreet?_eq h]
  rfl

end Selection

/-!
The outputs of a draft.
-/

def tenTo? (places : Nat) : Option Nat := fit? (tenTo places)

/-- The multiple loses a place each time that a finer one is drawn. -/
def roundDecoy? : Nat → Nat → Nat → Words → Option (Nat × Words)
  | 0, _, value, ws => some (value, ws)
  | places + 1, multiple, value, ws =>
      if 1000 < multiple then
        let (finer, ws) := ws.flip
        if finer then (div? multiple 10).bind fun multiple => roundDecoy? places multiple value ws
        else do
          let times ← div? value multiple
          return (← mul? times multiple, ws)
      else some (value, ws)

def portion? (contributed : Nat) (ws : Words) : Option (Nat × Words) :=
  if contributed = 0 then some (0, ws)
  else
    let (w, ws) := ws.next
    (mod? w contributed).map (·, ws)

def rounded? (value : Nat) (ws : Words) : Option (Nat × Words) :=
  if value = 0 then some (value, ws)
  else
    let places := (Nat.toDigits 10 value).length - 1
    (tenTo? places).bind fun multiple => roundDecoy? places multiple value ws

def decoyValue? (contributed : Nat) (script : Script) (ws : Words) : Option (Nat × Words) := do
  let (value, ws) ← portion? contributed ws
  let (value, ws) ← rounded? value ws
  return (max value (← dust? script), ws)

def addDecoy? (contributed : Nat) (script : Option Script) (outputs : List (OutputRole × TxOut))
    (ws : Words) : Option (List (OutputRole × TxOut) × Words) :=
  match outputs, script with
  | [(role, payment)], some script => do
      let (decoy, ws) ← decoyValue? contributed script ws
      if decoy < contributed then
        let value ← sub? payment.value decoy
        return ([(role, { payment with value }), (.decoyChange, ⟨decoy, script⟩)], ws)
      else return (outputs, ws)
  | _, _ => some (outputs, ws)

/-- The outputs of the fallback with their roles. The payment has a new value. -/
def withPayment (outputs : List TxOut) (payment value : Nat) : List (OutputRole × TxOut) :=
  outputs.mapIdx fun i output =>
    if i = payment then (.payment, { output with value }) else (.sender i, output)

section Decoy

variable {contributed : Nat} {script : Script}

theorem tenTo_le {value : Nat} (h : 0 < value) :
    tenTo ((Nat.toDigits 10 value).length - 1) ≤ value := by
  rw [Text.length_toDigits, Nat.add_sub_cancel]
  exact Nat.pow_log_le_self 10 h.ne'

theorem roundDecoy?_eq (places : Nat) {value : Nat} (h : value < limit64) (ws : Words) :
    roundDecoy? places (tenTo places) value ws = some (roundDecoy places value ws) := by
  induction places generalizing ws with
  | zero => rfl
  | succ places ih =>
      have htenth : tenTo (places + 1) / 10 = tenTo places :=
        Nat.mul_div_cancel _ (by decide)
      have hdown : value / tenTo (places + 1) * tenTo (places + 1) < limit64 :=
        lt_of_le_of_lt (Nat.div_mul_le_self _ _) h
      rw [roundDecoy?, roundDecoy]
      split
      · cases hflip : ws.flip with
        | mk finer ws' =>
            cases finer with
            | true =>
                simp only [if_true, div?_eq (by decide : 0 < 10), Option.bind_some, htenth]
                exact ih ws'
            | false =>
                simp [div?_eq (tenTo_pos (places + 1)), mul?_eq hdown]
      · rfl

theorem rounded?_eq {value : Nat} (h : value < limit64) (ws : Words) :
    rounded? value ws = some (if value = 0 then (value, ws)
      else roundDecoy ((Nat.toDigits 10 value).length - 1) value ws) := by
  unfold rounded?
  split
  · rfl
  · rename_i hne
    have hplaces := tenTo_le (Nat.pos_of_ne_zero hne)
    have hfits : tenTo? ((Nat.toDigits 10 value).length - 1) =
        some (tenTo ((Nat.toDigits 10 value).length - 1)) := if_pos (by omega)
    simp only [hfits, Option.bind_some]
    exact roundDecoy?_eq _ h ws

theorem decoyValue?_eq (hcontributed : contributed < limit64)
    (hdust : 1000 * dustLimit script < limit64) (ws : Words) :
    decoyValue? contributed script ws = some (decoyValue contributed script ws) := by
  unfold decoyValue? decoyValue portion?
  by_cases hnone : contributed = 0
  · simp [hnone, rounded?, dust?_eq hdust]
  · have hpos := Nat.pos_of_ne_zero hnone
    have hportion : ws.next.1 % contributed < limit64 := (Nat.mod_lt _ hpos).trans hcontributed
    simp only [hnone, if_false, mod?_eq hpos, Option.map_some, Option.bind_eq_bind,
      Option.bind_some, rounded?_eq hportion, dust?_eq hdust]
    rfl

theorem addDecoy_of_other {change : Option Script} {outputs : List (OutputRole × TxOut)}
    (h : ∀ role payment script, outputs = [(role, payment)] → change = some script → False)
    (ws : Words) : addDecoy contributed change outputs ws = (outputs, ws) := by
  unfold addDecoy
  split
  · rename_i role payment script
    exact (h role payment script rfl rfl).elim
  · rfl

/-- What is split off is less than what the payment has grown by. -/
theorem addDecoy?_eq {change : Option Script} {outputs : List (OutputRole × TxOut)}
    (hcontributed : contributed < limit64)
    (hdust : ∀ script, change = some script → 1000 * dustLimit script < limit64)
    (hgrown : ∀ role payment, outputs = [(role, payment)] → contributed ≤ payment.value)
    (ws : Words) :
    addDecoy? contributed change outputs ws = some (addDecoy contributed change outputs ws) := by
  unfold addDecoy?
  split
  · rename_i role payment script
    have hgrown := hgrown role payment rfl
    simp only [addDecoy, decoyValue?_eq hcontributed (hdust script rfl), Option.bind_eq_bind,
      Option.bind_some]
    split
    · rw [sub?_eq (by omega)]
      rfl
    · rfl
  · rename_i hother
    rw [addDecoy_of_other hother]

end Decoy

/-!
The draft of a proposal, and its fee.
-/

def contribute? (fallback : Psbt) (payment : Nat) (coins : List Coin) (type : ScriptType)
    (decoyScript : Option Script) (ws : Words) : ExceptT ProposalError Option (Draft × Words) := do
  let some fee := fallback.fee? | throw .missingUtxo
  let (sequence, ws) := ws.choose? (fallback.tx.inputs.map TxIn.sequence)
  let some sequence := sequence | throw .noInputs
  let contributed ← sum? (coins.map (·.output.value))
  let some paid := fallback.tx.outputs[payment]? | throw .missingPayment
  let value ← add? paid.value contributed
  let outputs := withPayment fallback.tx.outputs payment value
  let (outputs, ws) ← addDecoy? contributed decoyScript outputs ws
  let (inputs, ws) := ws.shuffle (gathered fallback coins type sequence)
  let (outputs, ws) := ws.shuffle outputs
  return (ofInputs fallback fee inputs outputs, ws)

/-- What is still lacking, what may still be given, and what was given so far. -/
structure Tally where
  lacking : Nat
  allowed : Nat
  given : Nat

def Tally.give? (tally : Tally) (amount : Nat) : Option Tally := do
  return ⟨← sub? tally.lacking amount, ← sub? tally.allowed amount, ← add? tally.given amount⟩

/-- Takes from an output what is wanted, as far as it stays above dust. -/
def takeAboveDust? (output : TxOut) (wanted : Nat) : Option (TxOut × Nat) := do
  let taken := min wanted (output.value - (← dust? output.script))
  return ({ output with value := ← sub? output.value taken }, taken)

def drain? (eligible : OutputRole → Bool) :
    Tally → List (OutputRole × TxOut) → Option (List TxOut × Tally)
  | tally, [] => some ([], tally)
  | tally, (role, output) :: rest =>
      if eligible role then do
        let (output, taken) ← takeAboveDust? output (min tally.lacking tally.allowed)
        let (outputs, tally) ← drain? eligible (← tally.give? taken) rest
        return (output :: outputs, tally)
      else do
        let (outputs, tally) ← drain? eligible tally rest
        return (output :: outputs, tally)

/-- The most that the sender gives, if the sender says so. -/
def senderCap (params : Params) : Nat :=
  match params.feeContribution with
  | some (amount, _) => amount
  | none => limit64 - 1

/-- Lowers outputs for a fee rate, and tells what is lacking then. -/
def lower? (d : Draft) (fallbackRate : Nat) (due : Int) (params : Params) :
    Option ((Draft × FeeContribution) × Nat) := do
  let weight ← fit? d.predictedWeight
  let expected ← feeFor? fallbackRate weight
  let overpaid ← allowance? due params
  let (between, receiver) ← drain? OutputRole.isReceiver ⟨expected - d.fee, overpaid, 0⟩
    (d.roles.zip d.psbt.tx.outputs)
  let (outputs, sender) ← drain? (senderEligible params)
    ⟨receiver.lacking, senderCap params, 0⟩ (d.roles.zip between)
  let fee ← add? (← add? d.fee receiver.given) sender.given
  let feeRate ← feeRateOf? fee weight
  let psbt := { d.psbt with tx := { d.psbt.tx with outputs } }
  return (({ d with psbt, fee }, ⟨receiver.given, sender.given, feeRate⟩), sender.lacking)

def preserveFeeRate? (d : Draft) (fallbackRate : Nat) (due : Int) (params : Params)
    (relayRate : Nat) : ExceptT ProposalError Option (Draft × FeeContribution) := do
  let (lowered, lacking) ← lower? d fallbackRate due params
  let floor := params.minFeeRate.getD relayRate
  if 0 < lacking ∧ lowered.2.feeRate < floor then throw (.notEnoughMoney lowered.2.feeRate floor)
  else return lowered

theorem liftM_some_bind {ε α β : Type} (a : α) (f : α → ExceptT ε Option β) :
    (liftM (some a) >>= f : ExceptT ε Option β) = f a := rfl

section Contribute

variable {fallback : Psbt} {fee payment : Nat} {coins : List Coin} {change : Option Script}
  {paid : TxOut}

theorem withPayment_eq {outputs : List TxOut} (hpaid : outputs[payment]? = some paid)
    (contributed : Nat) : withPayment outputs payment (paid.value + contributed) =
      growPayment outputs payment contributed := by
  obtain ⟨hlt, rfl⟩ := List.getElem?_eq_some_iff.mp hpaid
  apply List.ext_getElem
  · simp [withPayment, growPayment]
  · intro i _ _
    simp only [withPayment, growPayment, List.getElem_mapIdx]
    split
    · rename_i hi
      subst hi
      rfl
    · rfl

theorem le_value_of_growPayment {outputs : List TxOut} {contributed : Nat}
    (hpaid : outputs[payment]? = some paid) {role : OutputRole} {output : TxOut}
    (h : growPayment outputs payment contributed = [(role, output)]) :
    contributed ≤ output.value := by
  have hmem : (OutputRole.payment, { paid with value := paid.value + contributed }) ∈
      growPayment outputs payment contributed := mem_growPayment_payment hpaid
  rw [h, List.mem_singleton] at hmem
  obtain ⟨-, rfl⟩ := Prod.mk.inj hmem
  exact Nat.le_add_left _ _

theorem contribute?_eq (hfee : fallback.fee? = some fee)
    (hsequences : fallback.tx.inputs ≠ []) (hpaid : fallback.tx.outputs[payment]? = some paid)
    (hroom : paid.value + total (coins.map (·.output.value)) < limit64)
    (hdust : ∀ script, change = some script → 1000 * dustLimit script < limit64)
    (type : ScriptType) (ws : Words) :
    contribute? fallback payment coins type change ws =
      some (contribute fallback payment coins type change ws) := by
  have hchoices : fallback.tx.inputs.map TxIn.sequence ≠ [] := by simpa using hsequences
  obtain ⟨sequence, hsequence⟩ := Option.isSome_iff_exists.mp (Words.choose?_isSome hchoices ws)
  rw [contribute_eq_ite hfee hsequence hpaid, if_neg (Nat.not_le.mpr hroom)]
  have hsum := sum?_eq (lt_of_le_of_lt (Nat.le_add_left _ _) hroom)
  have hdecoy := addDecoy?_eq (lt_of_le_of_lt (Nat.le_add_left _ _) hroom) hdust
    (fun role output => le_value_of_growPayment hpaid)
  simp only [contribute?, hfee, hsequence, hpaid, hsum, add?_eq hroom, withPayment_eq hpaid,
    hdecoy, liftM_some_bind]
  rfl

/-- The tally once an amount was given. -/
def Tally.after (tally : Tally) (amount : Nat) : Tally :=
  ⟨tally.lacking - amount, tally.allowed - amount, tally.given + amount⟩

theorem Tally.after_after (tally : Tally) (amount more : Nat) :
    (tally.after amount).after more = tally.after (amount + more) := by
  simp only [after, Tally.mk.injEq]
  omega

section Drain

variable {tally : Tally} {budget amount : Nat}

theorem Tally.min_after (h : min tally.lacking tally.allowed = budget) (amount : Nat) :
    min (tally.after amount).lacking (tally.after amount).allowed = budget - amount := by
  simp only [after]
  omega

theorem Tally.give?_eq (h : min tally.lacking tally.allowed = budget) (hle : amount ≤ budget)
    (hroom : tally.given + budget < limit64) : tally.give? amount = some (tally.after amount) := by
  have hlacking : amount ≤ tally.lacking := by omega
  have hallowed : amount ≤ tally.allowed := by omega
  have hgiven : tally.given + amount < limit64 := by omega
  rw [give?, sub?_eq hlacking, sub?_eq hallowed, add?_eq hgiven]
  rfl

theorem takeAboveDust?_eq {output : TxOut} (h : 1000 * dustLimit output.script < limit64)
    {eligible : OutputRole → Bool} {role : OutputRole} (hrole : eligible role) (budget : Nat) :
    takeAboveDust? output budget =
      some ({ output with value := output.value - take eligible budget role output },
        take eligible budget role output) := by
  have hvalue : min budget (output.value - dustLimit output.script) ≤ output.value := by omega
  rw [take, if_pos hrole, takeAboveDust?, dust?_eq h]
  simp only [Option.bind_eq_bind, Option.bind_some, sub?_eq hvalue]
  rfl

/-- Nothing that is taken exceeds what there is, and what was given stays in range. -/
theorem drain?_eq (eligible : OutputRole → Bool) {outputs : List (OutputRole × TxOut)}
    (hdust : ∀ output ∈ outputs, 1000 * dustLimit output.2.script < limit64)
    (hbudget : min tally.lacking tally.allowed = budget)
    (hroom : tally.given + budget < limit64) :
    drain? eligible tally outputs =
      some ((drain eligible budget outputs).1,
        tally.after (drain eligible budget outputs).2) := by
  induction outputs generalizing tally budget with
  | nil => rfl
  | cons output rest ih =>
      obtain ⟨role, output⟩ := output
      have hrest := fun output h => hdust output (List.mem_cons_of_mem _ h)
      rw [drain?, drain_cons]
      cases hrole : eligible role with
      | false =>
          simp only [take_of_not hrole, Nat.sub_zero, Nat.zero_add, Bool.false_eq_true, if_false,
            ih hrest hbudget hroom]
          rfl
      | true =>
          have htake := take_le_budget eligible budget role output
          have hgiven : (tally.after (take eligible budget role output)).given +
              (budget - take eligible budget role output) < limit64 := by
            simp only [Tally.after]
            omega
          have hdrain := ih hrest (tally.min_after hbudget _) hgiven
          rw [Tally.after_after] at hdrain
          simp only [if_true, hbudget, takeAboveDust?_eq (hdust _ List.mem_cons_self) hrole,
            Option.bind_eq_bind, Option.bind_some, Tally.give?_eq hbudget htake hroom, hdrain]
          rfl

theorem drain?_of_nothing {eligible : OutputRole → Bool} {outputs : List (OutputRole × TxOut)}
    {outputs' : List TxOut} {lacking allowed : Nat}
    (hdust : ∀ output ∈ outputs, 1000 * dustLimit output.2.script < limit64)
    (hlacking : lacking < limit64) (hbudget : min lacking allowed = budget)
    (h : drain eligible budget outputs = (outputs', amount)) :
    drain? eligible ⟨lacking, allowed, 0⟩ outputs =
      some (outputs', ⟨lacking - amount, allowed - amount, amount⟩) := by
  have hroom : 0 + budget < limit64 := by omega
  rw [drain?_eq eligible hdust hbudget hroom, h]
  simp only [Tally.after, Nat.zero_add]

theorem min_senderCap (h : amount < limit64) (params : Params) :
    min amount (senderCap params) = senderBudget params amount := by
  unfold senderCap senderBudget
  cases params.feeContribution with
  | none =>
      dsimp only
      omega
  | some contribution => rfl

end Drain

section Preserve

variable {d : Draft} {rate : Nat} {due : Int}

theorem forall_dust_zip (roles : List OutputRole) {outputs : List TxOut}
    (h : ∀ output ∈ outputs, 1000 * dustLimit output.script < limit64) :
    ∀ output ∈ roles.zip outputs, 1000 * dustLimit output.2.script < limit64 :=
  fun _ houtput => h _ (List.of_mem_zip houtput).2

theorem forall_dust_drain (eligible : OutputRole → Bool) {outputs : List (OutputRole × TxOut)}
    (h : ∀ output ∈ outputs, 1000 * dustLimit output.2.script < limit64) (budget : Nat) :
    ∀ output ∈ (drain eligible budget outputs).1, 1000 * dustLimit output.script < limit64 := by
  intro output houtput
  have hscript : output.script ∈ (drain eligible budget outputs).1.map TxOut.script :=
    List.mem_map_of_mem houtput
  rw [map_script_drain] at hscript
  obtain ⟨before, hbefore, hscript⟩ := List.mem_map.mp hscript
  exact hscript ▸ h before hbefore

theorem lower?_eq (params : Params) (hweight : d.predictedWeight < limit64)
    (hdust : ∀ output ∈ d.psbt.tx.outputs, 1000 * dustLimit output.script < limit64)
    (hrate : rate * d.predictedWeight < limit64) (hfee : d.fee < limit64)
    (hdue : -limit63 < due) :
    lower? d rate due params = some (d.lowered rate due params, d.lacking rate -
      (d.lowered rate due params).2.receiver - (d.lowered rate due params).2.sender) := by
  have hexpected : feeFor rate d.predictedWeight < limit64 := by
    unfold feeFor limit64 at *
    omega
  have hlacking : d.fee + d.lacking rate < limit64 := by
    unfold lacking
    omega
  obtain ⟨between, receiver, hreceiver⟩ : ∃ between receiver, drain OutputRole.isReceiver
      (min (d.lacking rate) (receiverBudget due params)) (d.roles.zip d.psbt.tx.outputs) =
        (between, receiver) := ⟨_, _, rfl⟩
  obtain ⟨outputs, sender, hsender⟩ : ∃ outputs sender, drain (senderEligible params)
      (senderBudget params (d.lacking rate - receiver)) (d.roles.zip between) =
        (outputs, sender) := ⟨_, _, rfl⟩
  have hdusts := forall_dust_zip d.roles hdust
  have hgiven := drain_le OutputRole.isReceiver (min (d.lacking rate) (receiverBudget due params))
    (d.roles.zip d.psbt.tx.outputs)
  have hbetween := forall_dust_drain OutputRole.isReceiver hdusts
    (min (d.lacking rate) (receiverBudget due params))
  have hadded := drain_le (senderEligible params)
    (senderBudget params (d.lacking rate - receiver)) (d.roles.zip between)
  rw [hreceiver] at hgiven hbetween
  rw [hsender] at hadded
  have hgiven : receiver ≤ d.lacking rate := hgiven.trans (min_le_left _ _)
  have hadded : sender ≤ d.lacking rate - receiver := hadded.trans (senderBudget_le params _)
  have hfirst := drain?_of_nothing hdusts (by omega) rfl hreceiver
  have hsecond := drain?_of_nothing (forall_dust_zip d.roles hbetween) (by omega)
    (min_senderCap (by omega) params) hsender
  have hone : add? d.fee receiver = some (d.fee + receiver) := add?_eq (by omega)
  have hboth : add? (d.fee + receiver) sender = some (d.fee + receiver + sender) :=
    add?_eq (by omega)
  have hlowered : d.lowered rate due params =
      ({ d with
          psbt := { d.psbt with tx := { d.psbt.tx with outputs } }
          fee := d.fee + receiver + sender },
        ⟨receiver, sender, feeRateOf (d.fee + receiver + sender) d.predictedWeight⟩) := by
    simp only [lowered, hreceiver, hsender]
  rw [hlowered, lower?, fit?_eq hweight]
  simp only [Option.bind_eq_bind, Option.bind_some, feeFor?_eq hrate, allowance?_eq hdue,
    ← lacking.eq_1, hfirst, hsecond, hone, hboth,
    feeRateOf?_eq]
  rfl

theorem preserveFeeRate?_eq (params : Params) (relayRate : Nat)
    (hweight : d.predictedWeight < limit64)
    (hdust : ∀ output ∈ d.psbt.tx.outputs, 1000 * dustLimit output.script < limit64)
    (hrate : rate * d.predictedWeight < limit64) (hfee : d.fee < limit64)
    (hdue : -limit63 < due) :
    preserveFeeRate? d rate due params relayRate =
      some (d.preserveFeeRate rate due params relayRate) := by
  rw [preserveFeeRate_eq_ite, if_neg (Nat.not_le.mpr hrate)]
  simp only [preserveFeeRate?, lower?_eq params hweight hdust hrate hfee hdue, liftM_some_bind]
  have hcovered : 0 < d.lacking rate - (d.lowered rate due params).2.receiver -
      (d.lowered rate due params).2.sender ↔ (d.lowered rate due params).2.receiver +
        (d.lowered rate due params).2.sender < d.lacking rate := by omega
  simp only [hcovered]
  split <;> rfl

end Preserve

end Contribute

end Paydesk.Payjoin.Machine

import Mathlib.Data.List.Induction
import Paydesk.Payjoin.Params
import Paydesk.Proofs.Outcome

/-!
What the parameters of a request come to. They are read one after another; in the end the last
one of each name decides, whatever stands between, and whatever reads the numbers.
-/

namespace Paydesk.Payjoin.Params

/-- The text of the last pair with a name. -/
def last? (name : String) (pairs : List (String × String)) : Option String :=
  ((pairs.filter (·.1 = name)).getLast?).map Prod.snd

@[simp] theorem last?_nil (name : String) : last? name [] = none := rfl

@[simp] theorem last?_concat (name : String) (pairs : List (String × String))
    (pair : String × String) :
    last? name (pairs ++ [pair]) = if pair.1 = name then some pair.2 else last? name pairs := by
  by_cases hname : pair.1 = name <;> simp [last?, List.filter_append, hname]

/-- The names that parameters have. -/
def names : List String :=
  ["v", "additionalfeeoutputindex", "maxadditionalfeecontribution", "minfeerate",
    "disableoutputsubstitution"]

variable {readers : Readers} {pairs pairs' : List (String × String)}

/-- A text of so many units, which are finite and not negative. Minus zero counts as zero. -/
def Readers.Counts (readers : Readers) (text : String) (units : Nat) : Prop :=
  ∃ negative, readers.float text = .ok (.finite negative units) ∧ (negative → units = 0)

theorem Readers.counts_iff_of_finite {text : String} {negative : Bool} {units units' : Nat}
    (h : readers.float text = .ok (.finite negative units)) :
    readers.Counts text units' ↔ units' = units ∧ (negative → units = 0) := by
  constructor
  · rintro ⟨negative', hread, hsign⟩
    rw [h] at hread
    injection hread with hvalue
    injection hvalue with hnegative hunits
    subst hnegative hunits
    exact ⟨rfl, hsign⟩
  · rintro ⟨rfl, hsign⟩
    exact ⟨negative, h, hsign⟩

theorem feeRate_eq_ok_iff {text : String} {rate : Nat} : feeRate readers text = .ok rate ↔
    ∃ units, readers.Counts text units ∧ rate = perThousandUnits units := by
  rw [feeRate]
  cases hread : readers.float text with
  | error e => simp [Readers.Counts, hread]
  | ok value =>
      cases value with
      | infinite negative => simp [Readers.Counts, hread]
      | notANumber => simp [Readers.Counts, hread]
      | finite negative units =>
          simp only [Readers.counts_iff_of_finite hread, and_assoc, exists_eq_left]
          by_cases hsign : negative ∧ units ≠ 0
          · simp [hsign]
          · have hcounts : negative → units = 0 := by simpa using hsign
            rw [if_neg hsign, Except.ok.injEq, and_iff_right hcounts, eq_comm]

theorem exists_counts_iff {text : String} :
    (∃ units, readers.Counts text units) ↔ ∃ rate, feeRate readers text = .ok rate := by
  simp only [feeRate_eq_ok_iff]
  exact ⟨fun ⟨units, h⟩ => ⟨_, units, h, rfl⟩, fun ⟨_, units, h, _⟩ => ⟨units, h⟩⟩

/-- A version that is not supported, or a fee rate that is not a finite number or is negative. -/
def Refused (readers : Readers) (pair : String × String) : Prop :=
  (pair.1 = "v" ∧ ∀ v ∈ supportedVersions, readers.integer 256 pair.2 ≠ .ok v) ∨
    (pair.1 = "minfeerate" ∧ ¬∃ units, readers.Counts pair.2 units)

/-- The reading that the last pair of each name gives. -/
def decided (readers : Readers) (pairs : List (String × String)) : Reading where
  keepOutputs := last? "disableoutputsubstitution" pairs = some "true"
  outputIndex := (last? "additionalfeeoutputindex" pairs).bind
    fun text => (readers.integer limit64 text).toOption
  maxFee := (last? "maxadditionalfeecontribution" pairs).bind readers.amount
  minFeeRate := (last? "minfeerate" pairs).bind fun text => (feeRate readers text).toOption

/-- One more pair is refused, or it takes the place of those of its name. -/
theorem step_decided (readers : Readers) (pairs : List (String × String))
    (pair : String × String) (r : Reading) :
    (decided readers pairs).step readers pair = .ok r ↔
      ¬Refused readers pair ∧ r = decided readers (pairs ++ [pair]) := by
  obtain ⟨name, text⟩ := pair
  rw [Reading.step]
  split_ifs with hversion hindex hmax hrate hkeep
  · obtain rfl : name = "v" := hversion
    have hsame : decided readers (pairs ++ [("v", text)]) = decided readers pairs := by
      simp [decided]
    rw [hsame]
    cases hread : readers.integer 256 text with
    | error e => simp [Refused, hread]
    | ok v => by_cases hv : v ∈ supportedVersions <;> simp [Refused, hread, hv, eq_comm]
  · obtain rfl : name = "additionalfeeoutputindex" := hindex
    simp [Refused, decided, eq_comm]
  · obtain rfl : name = "maxadditionalfeecontribution" := hmax
    simp [Refused, decided, eq_comm]
  · obtain rfl : name = "minfeerate" := hrate
    simp only [bind_eq_ok, Refused, exists_counts_iff]
    cases hread : feeRate readers text with
    | error e => simp
    | ok rate => simp [decided, hread, Except.toOption, eq_comm]
  · obtain rfl : name = "disableoutputsubstitution" := hkeep
    simp [Refused, decided, eq_comm]
  · simp [Refused, hversion, hrate, hindex, hmax, hkeep, decided, eq_comm]

/-- Pairs that were read are none of them refused, and the last of each name decides. -/
theorem foldlM_step_eq_ok_iff (readers : Readers) (pairs : List (String × String)) (r : Reading) :
    pairs.foldlM (Reading.step readers) ⟨false, none, none, none⟩ = .ok r ↔
      (∀ pair ∈ pairs, ¬Refused readers pair) ∧ r = decided readers pairs := by
  induction pairs using List.reverseRecOn generalizing r with
  | nil =>
      rw [List.foldlM_nil]
      simp [pure, Except.pure, decided, eq_comm]
  | append_singleton pairs pair ih =>
      rw [List.foldlM_append, bind_eq_ok]
      simp only [ih, List.foldlM_cons, List.foldlM_nil, bind_pure, and_assoc, exists_and_left,
        exists_eq_left, step_decided, List.forall_mem_append, List.forall_mem_singleton]

theorem ofPairsWith_eq_ok_iff (readers : Readers) (pairs : List (String × String))
    (params : Params) :
    ofPairsWith readers pairs = .ok params ↔
      (∀ pair ∈ pairs, ¬Refused readers pair) ∧
        let r := decided readers pairs
        params = ⟨r.keepOutputs, r.maxFee.bind fun amount =>
          r.outputIndex.map fun index => (amount, index), r.minFeeRate⟩ := by
  rw [ofPairsWith, bind_eq_ok]
  simp only [foldlM_step_eq_ok_iff, and_assoc, exists_and_left, exists_eq_left, Except.ok.injEq,
    eq_comm (b := params)]

theorem decided_congr (h : ∀ name, last? name pairs' = last? name pairs) :
    decided readers pairs' = decided readers pairs := by
  simp only [decided, h]

theorem mem_of_filter_eq (h : ∀ name, pairs'.filter (·.1 = name) = pairs.filter (·.1 = name))
    {pair : String × String} (hpair : pair ∈ pairs') : pair ∈ pairs := by
  have hsame : pair ∈ pairs'.filter (·.1 = pair.1) :=
    List.mem_filter.mpr ⟨hpair, decide_eq_true rfl⟩
  rw [h] at hsame
  exact (List.mem_filter.mp hsame).1

/-- A name that no parameter has changes nothing. -/
theorem step_of_unknown {pair : String × String} (h : pair.1 ∉ names) (r : Reading) :
    r.step readers pair = .ok r := by
  simp only [names, List.mem_cons, List.not_mem_nil, or_false, not_or] at h
  obtain ⟨hversion, hindex, hmax, hrate, hkeep⟩ := h
  rw [Reading.step, if_neg hversion, if_neg hindex, if_neg hmax, if_neg hrate, if_neg hkeep]

theorem ofPairsWith_filter (readers : Readers) (pairs : List (String × String)) :
    ofPairsWith readers (pairs.filter (·.1 ∈ names)) = ofPairsWith readers pairs := by
  have hstep : (fun r pair => if decide (pair.1 ∈ names) then Reading.step readers r pair
      else pure r) = Reading.step readers := by
    funext r pair
    split_ifs with hknown
    · rfl
    · exact (step_of_unknown (by simpa using hknown) r).symm
  rw [ofPairsWith, List.foldlM_filter, hstep, ofPairsWith]

/-- Parameters are refused for a version or a fee rate among them, wherever it stands. Those that
are not come to the same in any order that leaves pairs of one name in theirs: the last of each
name decides, the two parts of the fee contribution count together, and other names do not. -/
theorem last_of_each_name_decides (readers : Readers) (pairs : List (String × String)) :
    ((∃ error, ofPairsWith readers pairs = .error error) ↔ ∃ pair ∈ pairs, Refused readers pair) ∧
    (∀ params, ofPairsWith readers pairs = .ok params →
      (∀ pairs', (∀ name, pairs'.filter (·.1 = name) = pairs.filter (·.1 = name)) →
        ofPairsWith readers pairs' = .ok params) ∧
      (params.keepOutputs ↔ last? "disableoutputsubstitution" pairs = some "true") ∧
      (∀ rate, params.minFeeRate = some rate ↔ ∃ text units,
        last? "minfeerate" pairs = some text ∧ readers.Counts text units ∧
          rate = perThousandUnits units) ∧
      ∀ amount index, params.feeContribution = some (amount, index) ↔
        (∃ text, last? "maxadditionalfeecontribution" pairs = some text ∧
          readers.amount text = some amount) ∧
        ∃ text, last? "additionalfeeoutputindex" pairs = some text ∧
          readers.integer limit64 text = .ok index) ∧
    ofPairsWith readers (pairs.filter (·.1 ∈ names)) = ofPairsWith readers pairs ∧
    ofPairs pairs = ofPairsWith .standard pairs := by
  refine ⟨?refused, fun params hparams => ?read, ofPairsWith_filter readers pairs, rfl⟩
  case refused =>
    have hok : (∃ params, ofPairsWith readers pairs = .ok params) ↔
        ∀ pair ∈ pairs, ¬Refused readers pair := by
      simp only [ofPairsWith_eq_ok_iff, exists_and_left, exists_eq, and_true]
    cases hread : ofPairsWith readers pairs with
    | error error =>
        rw [hread] at hok
        simpa using hok
    | ok params =>
        rw [hread] at hok
        simpa using hok
  case read =>
    obtain ⟨hnone, rfl⟩ := (ofPairsWith_eq_ok_iff readers pairs params).mp hparams
    refine ⟨fun pairs' hsame => ?_, ?_, fun rate => ?_, fun amount index => ?_⟩
    · have hlast (name : String) : last? name pairs' = last? name pairs := by
        rw [last?, hsame, last?]
      refine (ofPairsWith_eq_ok_iff readers pairs' _).mpr ⟨fun pair hpair => ?_, ?_⟩
      · exact hnone pair (mem_of_filter_eq hsame hpair)
      · rw [decided_congr hlast]
    · simp [decided]
    · simp only [decided, Option.bind_eq_some_iff, toOption_eq_some, feeRate_eq_ok_iff,
        exists_and_left]
    · simp [decided, Option.bind_eq_some_iff, toOption_eq_some]

/-- The second fee rate counts, wherever the other parameters stand. -/
theorem rearranged_parameters :
    let asked := [("maxadditionalfeecontribution", "182"), ("minfeerate", "2"), ("v", "1"),
      ("additionalfeeoutputindex", "0"), ("minfeerate", "1.001")]
    let rearranged := [("minfeerate", "2"), ("additionalfeeoutputindex", "0"),
      ("minfeerate", "1.001"), ("maxadditionalfeecontribution", "182"), ("v", "1")]
    ofPairs asked = .ok ⟨false, some (182, 0), some 251⟩ ∧
      (∀ name, rearranged.filter (·.1 = name) = asked.filter (·.1 = name)) ∧
      ofPairs rearranged = .ok ⟨false, some (182, 0), some 251⟩ := by
  intro asked rearranged
  have hasked : ofPairs asked = .ok ⟨false, some (182, 0), some 251⟩ := by decide +kernel
  have hknown : ∀ name ∈ names,
      rearranged.filter (·.1 = name) = asked.filter (·.1 = name) := by decide
  have hunknown (name : String) (h : name ∉ names) :
      ∀ pairs ∈ [asked, rearranged], pairs.filter (·.1 = name) = [] := by
    have hnames : ∀ pairs ∈ [asked, rearranged], ∀ pair ∈ pairs, pair.1 ∈ names := by decide
    refine fun pairs hpairs => List.filter_eq_nil_iff.mpr fun pair hpair hname => h ?_
    exact of_decide_eq_true hname ▸ hnames pairs hpairs pair hpair
  have hsame (name : String) :
      rearranged.filter (·.1 = name) = asked.filter (·.1 = name) := by
    by_cases hname : name ∈ names
    · exact hknown name hname
    · rw [hunknown name hname asked (by simp), hunknown name hname rearranged (by simp)]
  obtain ⟨-, hread, -, hstandard⟩ := last_of_each_name_decides .standard asked
  rw [hstandard] at hasked
  exact ⟨hasked, hsame, (hread _ hasked).1 rearranged hsame⟩

end Paydesk.Payjoin.Params

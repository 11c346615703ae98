import Mathlib.Logic.Relation
import Paydesk.Proofs.Rates.Evaluation
import Paydesk.Proofs.Rates.Indirections

/-!
What a resolved rule is worth, against an interpreter that looks up the rule of a pair
whenever it meets one.
-/

namespace Paydesk.Rates

open Paydesk.Rates.Expr

/-- Quotes as an interpreter asks for them. -/
abbrev Ask := String → Pair → Option Spread

namespace RuleBook

/-- The value of an expression in the rule for a target. A pair outside of a call is worth
what its own candidate is, and one if it is that of a currency with itself. -/
inductive Worth (book : RuleBook) (ask : Ask) : Pair → Expr → Spread → Prop
  | literal {target : Pair} (d : Decimal) : Worth book ask target (.literal d) (.point d)
  | quoted {target : Pair} (spread : Spread) : Worth book ask target (.quoted spread) spread
  | tuple {target : Pair} {bid asked : Expr} {a b v : Spread} (hbid : Worth book ask target bid a)
      (hask : Worth book ask target asked b) (hv : joinSides a b = .ok v) :
      Worth book ask target (.tuple [bid, asked]) v
  | binary {target : Pair} {op : BinaryOp} {left right : Expr} {a b v : Spread}
      (hleft : Worth book ask target left a) (hright : Worth book ask target right b)
      (hv : applyOp op a b = .ok v) : Worth book ask target (.binary op left right) v
  | signed {target : Pair} {sign : Sign} {operand : Expr} {a v : Spread}
      (h : Worth book ask target operand a) (hv : applySign sign a = .ok v) :
      Worth book ask target (.signed sign operand) v
  | identity {target pair : Pair} {text : String} (hpair : Pair.parse? text = some pair)
      (hidentity : (bindPair target pair).isIdentity) :
      Worth book ask target (.name text) (.point .one)
  | pair {target pair : Pair} {text : String} {v : Spread} (hpair : Pair.parse? text = some pair)
      (hidentity : (bindPair target pair).isIdentity = false)
      (hv : Worth book ask (bindPair target pair) (book.candidate (bindPair target pair)) v) :
      Worth book ask target (.name text) v
  | call {target pair : Pair} {exchange text : String} {v : Spread}
      (hmarker : isMarker exchange = false) (hpair : Pair.parse? text = some pair)
      (hv : ask exchange (bindPair target pair) = some v) :
      Worth book ask target (.call (.name exchange) [.name text]) v

/-- The interpreter finds one value at most. -/
theorem Worth.unique {book : RuleBook} {ask : Ask} {target : Pair} {e : Expr} {v w : Spread}
    (hv : book.Worth ask target e v) (hw : book.Worth ask target e w) : v = w := by
  induction hv generalizing w with
  | literal d =>
      cases hw
      rfl
  | quoted spread =>
      cases hw
      rfl
  | tuple _ _ hjoin ihbid ihask =>
      cases hw with
      | tuple hbid hask hjoin' =>
          obtain rfl := ihbid hbid
          obtain rfl := ihask hask
          exact Except.ok.inj (hjoin.symm.trans hjoin')
  | binary _ _ hop ihleft ihright =>
      cases hw with
      | binary hleft hright hop' =>
          obtain rfl := ihleft hleft
          obtain rfl := ihright hright
          exact Except.ok.inj (hop.symm.trans hop')
  | signed _ hsign ih =>
      cases hw with
      | signed h hsign' =>
          obtain rfl := ih h
          exact Except.ok.inj (hsign.symm.trans hsign')
  | identity hpair hidentity =>
      cases hw with
      | identity => rfl
      | pair hpair' hproper =>
          cases hpair.symm.trans hpair'
          cases hidentity.symm.trans hproper
  | pair hpair hproper _ ih =>
      cases hw with
      | identity hpair' hidentity =>
          cases hpair.symm.trans hpair'
          cases hproper.symm.trans hidentity
      | pair hpair' _ h =>
          cases hpair.symm.trans hpair'
          exact ih h
  | call _ hpair hask =>
      cases hw with
      | call _ hpair' hask' =>
          cases hpair.symm.trans hpair'
          exact Option.some.inj (hask.symm.trans hask')

end RuleBook

namespace RuleError

theorem collect_isEmpty {errors : List RuleError} : (collect errors).isEmpty ↔ errors = [] := by
  rw [List.isEmpty_iff]
  constructor
  · intro h
    refine List.eq_nil_iff_forall_not_mem.mpr fun error herror => ?_
    have hmem := mem_collect.mpr herror
    rw [h] at hmem
    cases hmem
  · rintro rfl
    rfl

end RuleError

namespace Rule

/-- That an evaluation succeeds, and with which value. -/
def Yields (r : Rule) (v : Spread) : Prop :=
  r.reevaluate.succeeded ∧ r.reevaluate.spread? = some v

theorem yields_iff {r : Rule} {v : Spread} :
    r.Yields v ↔ r.resolutionErrors = [] ∧ r.expr.Evaluates r.quotes v := by
  rw [Yields, Evaluates, ← and_assoc, ← List.append_eq_nil_iff, ← RuleError.collect_isEmpty]
  unfold reevaluate
  dsimp only
  split
  · next hempty =>
    rw [evaluate_eq_value]
    cases (r.expr.withQuotes r.quotes).value with
    | ok spread => simp [succeeded, spread?, hempty]
    | error error => simp [succeeded]
  · next herrors => simp [succeeded, herrors]

theorem exists_yields {r : Rule} (h : r.reevaluate.succeeded) : ∃ v, r.Yields v := by
  obtain ⟨hnone, hsome⟩ := Bool.and_eq_true_iff.mp h
  obtain ⟨v, hv⟩ := Option.isSome_iff_exists.mp hsome
  exact ⟨v, h, by rw [spread?, if_pos hnone, hv]⟩

theorem not_succeeded {r : Rule} (h : r.resolutionErrors ≠ []) : r.reevaluate.succeeded = false := by
  have hcollect : ¬(RuleError.collect (r.resolutionErrors ++ r.expr.quoteErrors r.quotes)).isEmpty := by
    rw [RuleError.collect_isEmpty, List.append_eq_nil_iff]
    exact fun hnone => h hnone.1
  unfold reevaluate
  dsimp only
  rw [if_neg hcollect]
  simp [succeeded]

end Rule

namespace Expr

mutual

/-- The pairs that an expression asks exchanges for, in a rule for a target. -/
def askedPairs (target : Pair) : Expr → List Pair
  | .call callee args => (quoteOf? callee args).toList.map fun call => bindPair target call.2
  | .binary _ left right => left.askedPairs target ++ right.askedPairs target
  | .signed _ operand => operand.askedPairs target
  | .tuple items => askedPairsList target items
  | .literal _ => []
  | .name _ => []
  | .quoted _ => []

def askedPairsList (target : Pair) : List Expr → List Pair
  | [] => []
  | e :: es => e.askedPairs target ++ askedPairsList target es

end

end Expr

section Resolve

variable {book : RuleBook} {quotes : Quotes} {inline : Pair → Resolution Expr} {target : Pair}

/-- A quote that is found by the written form of its pair. -/
def Quotes.reread (quotes : Quotes) : Ask := fun exchange pair =>
  (Pair.parse? pair.render).bind (quotes.get? exchange)

namespace Expr

theorem resolve_eq_name {e : Expr} {text' : String} :
    (e.resolve target inline true).value = .name text' ↔
      ∃ text, e = .name text ∧
        text' = ((Pair.parse? text).map fun pair => (bindPair target pair).render).getD text := by
  cases e with
  | name text =>
      rw [resolve]
      cases hpair : Pair.parse? text with
      | none => simp [hpair, eq_comm]
      | some pair => simp [hpair, eq_comm]
  | call callee args =>
      rw [resolve]
      split <;> simp
  | _ => simp [resolve]

theorem resolveList_eq_name {args : List Expr} {text' : String} :
    (resolveList target inline true args).value = [.name text'] ↔
      ∃ text, args = [.name text] ∧
        text' = ((Pair.parse? text).map fun pair => (bindPair target pair).render).getD text := by
  match args with
  | [] => simp [resolveList]
  | [e] => simp [resolveList, resolve_eq_name]
  | _ :: _ :: _ => simp [resolveList]

/-- That what a pair is replaced by is worth what the pair is. -/
def InlinesWorth (book : RuleBook) (quotes : Quotes) (inline : Pair → Resolution Expr) : Prop :=
  ∀ pair, (inline pair).cutOff = false → ∀ v, (inline pair).value.Evaluates quotes v ↔
    pair.isIdentity ∧ v = .point .one ∨
      pair.isIdentity = false ∧ book.Worth quotes.reread pair (book.candidate pair) v

/-- A resolved call asks for the pair that its text is read as. -/
theorem evaluates_resolve_call {callee : Expr} {args : List Expr} {v : Spread} :
    ((call callee args).resolve target inline false).value.Evaluates quotes v ↔
      book.Worth quotes.reread target (.call callee args) v := by
  cases hmarker : callee.isMarkerName with
  | true =>
      rw [resolve, if_pos hmarker, Resolution.value_pure, evaluates_call]
      refine iff_of_false ?_ ?_
      · rintro ⟨exchange, text, pair, rfl, rfl, hplain, -⟩
        simp [isMarkerName, hplain] at hmarker
      · rintro ⟨⟩
        simp_all [isMarkerName]
  | false =>
      rw [resolve, if_neg (by simp [hmarker])]
      simp only [Resolution.value_bind, Resolution.value_pure, evaluates_call]
      constructor
      -- What stands in the resolved call is the name of the pair, and is read once more.
      · rintro ⟨exchange, text', pair, rfl, hargs, hplain, hpair, hv⟩
        obtain ⟨text, rfl, rfl⟩ := resolveList_eq_name.mp hargs
        cases hread : Pair.parse? text with
        | none =>
            rw [hread] at hpair
            cases hread.symm.trans hpair
        | some asked =>
            rw [hread] at hpair
            refine .call hplain hread ?_
            exact Option.bind_eq_some_iff.mpr ⟨pair, hpair, hv⟩
      · intro h
        cases h with
        | @call _ asked exchange text _ hplain hread hv =>
            obtain ⟨pair, hpair, hv⟩ := Option.bind_eq_some_iff.mp hv
            refine ⟨exchange, _, pair, rfl, resolveList_eq_name.mpr ⟨text, rfl, rfl⟩, hplain, ?_, hv⟩
            rw [hread]
            exact hpair

theorem evaluates_resolve (hinline : InlinesWorth book quotes inline) : ∀ e : Expr,
    (e.resolve target inline false).cutOff = false → ∀ v,
      (e.resolve target inline false).value.Evaluates quotes v ↔
        book.Worth quotes.reread target e v
  | .literal d, _, v => by
      rw [resolve, Resolution.value_pure, evaluates_literal]
      constructor
      · rintro rfl
        exact .literal d
      · rintro ⟨⟩
        rfl
  | .quoted spread, _, v => by
      rw [resolve, Resolution.value_pure, evaluates_quoted]
      constructor
      · rintro rfl
        exact .quoted v
      · rintro ⟨⟩
        rfl
  | .name text, hcut, v => by
      rw [resolve] at hcut ⊢
      cases hpair : Pair.parse? text with
      | none =>
          refine iff_of_false not_evaluates_name ?_
          intro h
          cases h with
          | identity hparse | pair hparse => cases hpair.symm.trans hparse
      | some pair =>
          simp only [hpair, Bool.false_eq_true, if_false] at hcut ⊢
          rw [hinline _ hcut]
          constructor
          · rintro (⟨hidentity, rfl⟩ | ⟨hidentity, hworth⟩)
            · exact .identity hpair hidentity
            · exact .pair hpair hidentity hworth
          · intro h
            cases h with
            | identity hparse hidentity =>
                cases hpair.symm.trans hparse
                exact .inl ⟨hidentity, rfl⟩
            | pair hparse hidentity hworth =>
                cases hpair.symm.trans hparse
                exact .inr ⟨hidentity, hworth⟩
  | .call callee args, _, v => evaluates_resolve_call
  | .signed sign operand, hcut, v => by
      simp only [resolve, Resolution.cutOff_bind, Resolution.cutOff_pure, Bool.or_false] at hcut
      simp only [resolve, Resolution.value_bind, Resolution.value_pure, evaluates_signed,
        evaluates_resolve hinline operand hcut]
      constructor
      · rintro ⟨a, ha, hv⟩
        exact .signed ha hv
      · rintro ⟨⟩
        exact ⟨_, ‹_›, ‹_›⟩
  | .binary op left right, hcut, v => by
      simp only [resolve, Resolution.cutOff_bind, Resolution.cutOff_pure, Bool.or_false,
        Bool.or_eq_false_iff] at hcut
      simp only [resolve, Resolution.value_bind, Resolution.value_pure, evaluates_binary,
        evaluates_resolve hinline left hcut.1, evaluates_resolve hinline right hcut.2]
      constructor
      · rintro ⟨a, b, ha, hb, hv⟩
        exact .binary ha hb hv
      · rintro ⟨⟩
        exact ⟨_, _, ‹_›, ‹_›, ‹_›⟩
  | .tuple [bid, ask], hcut, v => by
      simp only [resolve, resolveList, Resolution.cutOff_bind, Resolution.cutOff_pure,
        Bool.or_false, Bool.or_eq_false_iff] at hcut
      simp only [resolve, resolveList, Resolution.value_bind, Resolution.value_pure,
        evaluates_tuple]
      constructor
      · rintro ⟨_, _, ⟨⟩, a, b, ha, hb, hv⟩
        exact .tuple ((evaluates_resolve hinline bid hcut.1 a).mp ha)
          ((evaluates_resolve hinline ask hcut.2 b).mp hb) hv
      · rintro ⟨⟩
        exact ⟨_, _, rfl, _, _, (evaluates_resolve hinline bid hcut.1 _).mpr ‹_›,
          (evaluates_resolve hinline ask hcut.2 _).mpr ‹_›, ‹_›⟩
  | .tuple [], _, v => by
      refine iff_of_false ?_ (by rintro ⟨⟩)
      simp [resolve, resolveList, evaluates_tuple]
  | .tuple [_], _, v => by
      refine iff_of_false ?_ (by rintro ⟨⟩)
      simp [resolve, resolveList, evaluates_tuple]
  | .tuple (_ :: _ :: _ :: _), _, v => by
      refine iff_of_false ?_ (by rintro ⟨⟩)
      simp [resolve, resolveList, evaluates_tuple]

end Expr

end Resolve

namespace RuleBook

variable {book : RuleBook} {quotes : Quotes} {pair : Pair}

theorem inline_inlinesWorth (left : Nat) : InlinesWorth book quotes (book.inline left) := by
  induction left with
  | zero =>
      intro pair hcut v
      rw [inline] at hcut ⊢
      cases hidentity : pair.isIdentity with
      | false => simp [hidentity, Expr.tooDeep, Resolution.tooDeep] at hcut
      | true => simp [evaluates_literal]
  | succ left ih =>
      intro pair hcut v
      rw [inline] at hcut ⊢
      cases hidentity : pair.isIdentity with
      | false =>
          simp only [hidentity, Bool.false_eq_true, if_false] at hcut ⊢
          simpa using evaluates_resolve ih _ hcut v
      | true => simp [evaluates_literal]

/-- That the rule of a pair names another one outside of a call. -/
def Leads (book : RuleBook) (pair next : Pair) : Prop :=
  next.isIdentity = false ∧ next ∈ (book.candidate pair).barePairs pair

/-- That the rule of a pair asks an exchange for another one, itself or in a rule that it
leads to. -/
def Asks (book : RuleBook) (pair asked : Pair) : Prop :=
  ∃ reached, Relation.ReflTransGen book.Leads pair reached ∧
    asked ∈ (book.candidate reached).askedPairs reached

theorem Worth.congr {ask ask' : Ask} {target : Pair} {e : Expr} {v : Spread}
    (h : book.Worth ask target e v)
    (hcalls : ∀ asked ∈ e.askedPairs target, ∀ exchange, ask exchange asked = ask' exchange asked)
    (hbare : ∀ next ∈ e.barePairs target, next.isIdentity = false → ∀ asked,
      book.Asks next asked → ∀ exchange, ask exchange asked = ask' exchange asked) :
    book.Worth ask' target e v := by
  induction h with
  | literal d => exact .literal d
  | quoted spread => exact .quoted spread
  | tuple _ _ hv ihbid ihask =>
      simp only [askedPairs, askedPairsList, barePairs, barePairsList, List.append_nil,
        List.forall_mem_append] at hcalls hbare
      exact .tuple (ihbid hcalls.1 hbare.1) (ihask hcalls.2 hbare.2) hv
  | binary _ _ hv ihleft ihright =>
      simp only [askedPairs, barePairs, List.forall_mem_append] at hcalls hbare
      exact .binary (ihleft hcalls.1 hbare.1) (ihright hcalls.2 hbare.2) hv
  | signed _ hv ih => exact .signed (ih hcalls hbare) hv
  | identity hpair hidentity => exact .identity hpair hidentity
  -- Behind a bare pair the target is another one, and all that its own rule asks for counts.
  | @pair target pair text v hpair hidentity _ ih =>
      have hagree := hbare (bindPair target pair) (by simp [barePairs, hpair]) hidentity
      refine .pair hpair hidentity (ih ?_ ?_)
      · intro asked hasked
        exact hagree asked ⟨_, .refl, hasked⟩
      · rintro next hnext hproper asked ⟨reached, hreached, hasked⟩
        exact hagree asked ⟨reached, .head ⟨hproper, hnext⟩ hreached, hasked⟩
  | @call target pair exchange text v hmarker hpair hv =>
      have hagree := hcalls (bindPair target pair) (by simp [askedPairs, quoteOf?, hpair])
      exact .call hmarker hpair (hagree exchange ▸ hv)

/-- The value of a pair rests on the quotes that its rule asks for. -/
theorem worth_candidate_congr {ask ask' : Ask} {v : Spread}
    (h : ∀ asked, book.Asks pair asked → ∀ exchange, ask exchange asked = ask' exchange asked) :
    book.Worth ask pair (book.candidate pair) v ↔ book.Worth ask' pair (book.candidate pair) v := by
  have hcongr : ∀ {ask ask' : Ask}, (∀ asked, book.Asks pair asked → ∀ exchange,
      ask exchange asked = ask' exchange asked) → book.Worth ask pair (book.candidate pair) v →
      book.Worth ask' pair (book.candidate pair) v := by
    intro ask ask' hagree hworth
    refine hworth.congr ?_ ?_
    · intro asked hasked
      exact hagree asked ⟨_, .refl, hasked⟩
    · rintro next hnext hproper asked ⟨reached, hreached, hasked⟩
      exact hagree asked ⟨reached, .head ⟨hproper, hnext⟩ hreached, hasked⟩
  exact ⟨hcongr h, hcongr fun asked hasked exchange => (h asked hasked exchange).symm⟩

/-- That every pair a rule asks for is read back from its written form. -/
def Legible (book : RuleBook) (pair : Pair) : Prop :=
  ∀ asked, book.Asks pair asked → Pair.parse? asked.render = some asked

theorem worth_reread (h : book.Legible pair) {v : Spread} :
    book.Worth quotes.reread pair (book.candidate pair) v ↔
      book.Worth quotes.get? pair (book.candidate pair) v := by
  refine worth_candidate_congr fun asked hasked exchange => ?_
  rw [Quotes.reread, h asked hasked, Option.bind_some]

theorem ruleFor_eq (hspread : book.spread.isZero) (hpair : pair.isIdentity = false) :
    book.ruleFor pair = .ofResolved pair (book.resolve pair (book.candidate pair)) := by
  simp [ruleFor, hspread, hpair]

/-- A rule gives the value that an interpreter finds, which asks for every quote by the
written form of its pair. It is the value with the quotes as they are if these forms can be
read back. Rules that refer to each other too deeply give none. -/
theorem yields_ruleFor_iff_worth (hspread : book.spread.isZero)
    (hpair : pair.isIdentity = false) (quotes : Quotes) :
    ((¬∃ n, maxIndirections < n ∧ book.Chain n pair) → ∀ v,
      (((book.ruleFor pair).supply quotes).Yields v ↔
        book.Worth quotes.reread pair (book.candidate pair) v) ∧
      (book.Legible pair →
        (((book.ruleFor pair).supply quotes).Yields v ↔
          book.Worth quotes.get? pair (book.candidate pair) v))) ∧
    ((∃ n, maxIndirections < n ∧ book.Chain n pair) →
      .tooMuchNestedCalls ∈ (book.ruleFor pair).errors ∧
      ((book.ruleFor pair).supply quotes).reevaluate.succeeded = false) := by
  rw [ruleFor_eq hspread hpair]
  constructor
  · intro hshort v
    have hcut : (book.resolve pair (book.candidate pair)).cutOff = false := by
      simpa using mt (cutOff_resolve_candidate hpair).mp hshort
    have hinline : InlinesWorth book quotes (book.inline maxIndirections) := inline_inlinesWorth _
    have hworth := evaluates_resolve hinline (book.candidate pair) hcut v
    have hyields : ((Rule.ofResolved pair (book.resolve pair (book.candidate pair))).supply
        quotes).Yields v ↔ book.Worth quotes.reread pair (book.candidate pair) v := by
      rw [Rule.yields_iff]
      simp only [Rule.supply, Rule.ofResolved, hcut, Bool.false_eq_true, if_false, true_and]
      exact hworth
    exact ⟨hyields, fun hlegible => hyields.trans (worth_reread hlegible)⟩
  · intro hlong
    have hcut := (cutOff_resolve_candidate hpair).mpr hlong
    constructor
    · simp [Rule.ofResolved, hcut]
    · apply Rule.not_succeeded
      simp [Rule.supply, Rule.ofResolved, hcut]

end RuleBook

namespace Expr

/-- The text of a name. -/
def text? : Expr → Option String
  | .name text => some text
  | _ => none

/-- The exchange that a call asks, and the text of what it asks for. -/
def quoteText? : Expr → Option (String × String)
  | .call (.name exchange) [.name text] => some (exchange, text)
  | _ => none

theorem text?_eq_some {e : Expr} {text : String} : e.text? = some text ↔ e = .name text := by
  cases e <;> simp [text?]

theorem quoteText?_eq_some {e : Expr} {exchange text : String} :
    e.quoteText? = some (exchange, text) ↔ e = .call (.name exchange) [.name text] := by
  unfold quoteText?
  split
  · simp
  · next hne =>
    simp only [reduceCtorEq, false_iff]
    rintro rfl
    exact hne exchange text rfl

end Expr

namespace RuleBook

theorem read_quotedAndCircular : ∃ book,
    read "X_USD = kraken(X_USD); X_EUR = X_EUR" = .ok book ∧ book.spread.isZero ∧
    book.candidate ⟨"LTC", "USD"⟩ = .call (.name "kraken") [.name "X_USD"] ∧
    book.candidate ⟨" A", "USD"⟩ = .call (.name "kraken") [.name "X_USD"] ∧
    book.candidate ⟨"LTC", "EUR"⟩ = .name "X_EUR" := by
  have hshape : (read "X_USD = kraken(X_USD); X_EUR = X_EUR").toOption.map (fun book =>
      (book.spread.isZero, (book.candidate ⟨"LTC", "USD"⟩).quoteText?,
        (book.candidate ⟨" A", "USD"⟩).quoteText?, (book.candidate ⟨"LTC", "EUR"⟩).text?)) =
      some (true, some ("kraken", "X_USD"), some ("kraken", "X_USD"), some "X_EUR") := by
    decide +kernel
  cases hread : read "X_USD = kraken(X_USD); X_EUR = X_EUR" with
  | error e => simp [hread, Except.toOption] at hshape
  | ok book =>
      rw [hread] at hshape
      simp only [Except.toOption, Option.map_some, Option.some.injEq, Prod.mk.injEq,
        quoteText?_eq_some, text?_eq_some] at hshape
      exact ⟨book, rfl, hshape⟩

/-- Of three rules, one asks for a pair that can be read back, one for a pair that cannot, and
one refers to itself. -/
theorem yields_unless_blank_or_circular : ∃ book,
    read "X_USD = kraken(X_USD); X_EUR = X_EUR" = .ok book ∧
    ((book.ruleFor ⟨"LTC", "USD"⟩).supply
      (Quotes.empty.set "kraken" ⟨"LTC", "USD"⟩ (.point .one))).Yields (.point .one) ∧
    (Pair.parse? "_ A_USD" = some ⟨" A", "USD"⟩ ∧
      book.Worth (Quotes.empty.set "kraken" ⟨" A", "USD"⟩ (.point .one)).get? ⟨" A", "USD"⟩
        (book.candidate ⟨" A", "USD"⟩) (.point .one) ∧
      ((book.ruleFor ⟨" A", "USD"⟩).supply
        (Quotes.empty.set "kraken" ⟨" A", "USD"⟩ (.point .one))).reevaluate.succeeded = false) ∧
    ∀ quotes, ((book.ruleFor ⟨"LTC", "EUR"⟩).supply quotes).reevaluate.succeeded = false := by
  obtain ⟨book, hread, hspread, husd, hblank, heur⟩ := read_quotedAndCircular
  have hbare {pair : Pair} (hcall : book.candidate pair = .call (.name "kraken") [.name "X_USD"])
      (next : Pair) : next ∉ (book.candidate pair).barePairs pair := by
    simp [hcall, barePairs]
  have hshort {pair : Pair}
      (hcall : book.candidate pair = .call (.name "kraken") [.name "X_USD"]) :
      ¬∃ n, maxIndirections < n ∧ book.Chain n pair := by
    rintro ⟨n, hn, hchain⟩
    cases hchain with
    | here => exact Nat.not_lt_zero _ hn
    | step _ hnext => exact hbare hcall _ hnext
  have hparse : Pair.parse? "X_USD" = some ⟨"X", "USD"⟩ := by decide +kernel
  refine ⟨book, hread, ?_, ⟨by decide +kernel, ?_, ?_⟩, ?_⟩
  · have hlegible : book.Legible ⟨"LTC", "USD"⟩ := by
      rintro asked ⟨reached, hreached, hasked⟩
      rcases hreached.cases_head with rfl | ⟨next, ⟨-, hnext⟩, -⟩
      · rw [husd, askedPairs, quoteOf?, hparse] at hasked
        obtain rfl := List.mem_singleton.mp hasked
        decide +kernel
      · exact absurd hnext (hbare husd next)
    rw [((yields_ruleFor_iff_worth hspread (by decide) _).1 (hshort husd) _).2 hlegible, husd]
    exact .call (by decide) hparse (by decide +kernel)
  · rw [hblank]
    exact .call (by decide) hparse (by decide +kernel)
  · rw [Bool.eq_false_iff]
    intro hsucceeded
    obtain ⟨v, hv⟩ := Rule.exists_yields hsucceeded
    rw [((yields_ruleFor_iff_worth hspread (by decide) _).1 (hshort hblank) v).1, hblank] at hv
    cases hv with
    | call _ hpair hv =>
        cases hparse.symm.trans hpair
        have hnone : (Quotes.empty.set "kraken" ⟨" A", "USD"⟩ (.point .one)).reread "kraken"
            (bindPair ⟨" A", "USD"⟩ ⟨"X", "USD"⟩) = none := by decide +kernel
        cases hnone.symm.trans hv
  · intro quotes
    have hself : bindPair ⟨"LTC", "EUR"⟩ ⟨"X", "EUR"⟩ = ⟨"LTC", "EUR"⟩ := by decide
    have hchain : ∀ n, book.Chain n ⟨"LTC", "EUR"⟩ := by
      intro n
      induction n with
      | zero => exact .here (by decide)
      | succ n ih =>
          refine .step (by decide) ?_ ih
          have hname : Pair.parse? "X_EUR" = some ⟨"X", "EUR"⟩ := by decide +kernel
          simp [heur, barePairs, hname, hself]
    exact ((yields_ruleFor_iff_worth hspread (by decide) quotes).2
      ⟨_, Nat.lt_succ_self _, hchain _⟩).2

end RuleBook

end Paydesk.Rates

import Paydesk.Proofs.Decimal.Sign
import Paydesk.Proofs.Rates.Dependencies
import Paydesk.Proofs.Rates.Spelling

/-!
What is written of an expression is read as that expression again.
-/

namespace Paydesk.Rates

namespace Grammar

open Paydesk.Rates.Expr

section Precedence

/-- The phrase that holds together as tightly as a precedence tells. -/
def Phrase.ofPrecedence (e : Expr) : Nat → Phrase
  | 0 | 1 => .sum e
  | 2 => .product e
  | 3 => .operand e
  | _ => .calls e

variable {e : Expr} {ts : List Token} {m n : Nat}

theorem Derives.loosen_succ (h : Derives (.ofPrecedence e (n + 1)) ts) :
    Derives (.ofPrecedence e n) ts := by
  match n with
  | 0 => exact h
  | 1 => exact .ofProduct h
  | 2 => exact .ofOperand h
  | 3 => exact .ofCalls h
  | n + 4 => exact h

theorem Derives.loosen (hmn : m ≤ n) (h : Derives (.ofPrecedence e n) ts) :
    Derives (.ofPrecedence e m) ts := by
  induction hmn with
  | refl => exact h
  | step _ ih => exact ih h.loosen_succ

theorem Derives.tighten (h : Derives (.calls e) ts) (n : Nat) :
    Derives (.ofPrecedence e n) ts :=
  loosen (n := n + 4) (Nat.le_add_right n 4) h

theorem Derives.parenthesized (h : Derives (.ofPrecedence e e.precedence) ts) (n : Nat) :
    Derives (.ofPrecedence e n) (Token.parenthesized (e.precedence < n) ts) := by
  by_cases hlt : e.precedence < n
  · have hsum : Derives (.sum e) ts := h.loosen (m := 0) (Nat.zero_le _)
    simp only [Token.parenthesized, hlt, decide_true, if_true]
    exact (Derives.ofPrimary (.group (.single hsum))).tighten n
  · simp only [Token.parenthesized, hlt, decide_false]
    exact h.loosen (Nat.not_lt.mp hlt)

theorem group_of_two_le {items : List Expr} (h : 2 ≤ items.length) : group items = .tuple items := by
  match items with
  | [] => cases h
  | [_] => exact absurd h (by simp)
  | _ :: _ :: _ => rfl

end Precedence

mutual

theorem derives_tokens : (e : Expr) → e.Plain (Token.isIdentifier ·) →
    Derives (.ofPrecedence e e.precedence) (e.tokens fun text => [.name text])
  | .literal value, h => by
      have hprecedence : (literal value).precedence = 4 := by
        have hsign : value.negative = false := h
        rw [precedence, hsign]
        rfl
      rw [hprecedence]
      exact .ofPrimary (.number value)
  | .quoted _, h => h.elim
  | .name text, _ => .ofPrimary (.name text)
  | .tuple items, h => by
      have hne : items ≠ [] := by
        rintro rfl
        exact absurd h.1 (by decide)
      have hgroup := Derives.group (derives_tokensList items hne h.2)
      rw [group_of_two_le h.1] at hgroup
      exact .ofPrimary hgroup
  | .call callee args, h => by
      have hcallee := (derives_tokens callee h.1).parenthesized primaryPrecedence
      by_cases hargs : args = []
      · subst hargs
        exact .call hcallee
      · exact .callWith hcallee (derives_tokensList args hargs h.2)
  | .signed sign operand, h => by
      have hoperand := (derives_tokens operand h).parenthesized signPrecedence
      exact @Derives.signed sign operand [] _ (List.forall_mem_nil _) hoperand
  | .binary op left right, h => by
      have hleft := (derives_tokens left h.1).parenthesized op.precedence
      have hright := (derives_tokens right h.2).parenthesized (op.precedence + 1)
      simp only [Nat.lt_succ_iff] at hright
      cases op with
      | add | sub => exact @Derives.sum _ _ _ _ [] _ rfl hleft (List.forall_mem_nil _) hright
      | mul | div => exact @Derives.product _ _ _ _ [] _ rfl hleft (List.forall_mem_nil _) hright

theorem derives_tokensList : (es : List Expr) → es ≠ [] → PlainList (Token.isIdentifier ·) es →
    Derives (.list es) (tokensList (fun text => [.name text]) es)
  | [], h, _ => absurd rfl h
  | [e], _, h => .single ((derives_tokens e h.1).loosen (m := 0) (Nat.zero_le _))
  | e :: e' :: es, _, h => .cons ((derives_tokens e h.1).loosen (m := 0) (Nat.zero_le _))
      (derives_tokensList (e' :: es) (List.cons_ne_nil _ _) h.2)

end

end Grammar

theorem lists_singleton {s : Statement} {ts : List Token} (h : Grammar.Says s ts) :
    Grammar.Lists [s] ts := by
  have hlists := Grammar.Lists.cons h (by simp) .nil
  rwa [List.append_nil] at hlists

namespace Expr

theorem parseScript_render {e : Expr} (h : e.Plain (Token.isIdentifier ·)) :
    parseScript e.render = .ok [⟨none, e⟩] := by
  have hspells := spells_render (fun _ => Token.Spells.name) e h 1 0 [] (by simp [Token.Ends])
  have hsum := (Grammar.derives_tokens e h).loosen (m := 0) (Nat.zero_le _)
  rw [List.append_nil, Token.scan] at hspells
  refine parseScript_eq_ok_iff.mpr ⟨_, hspells, ?_⟩
  have hlists := lists_singleton (.bare hsum)
  simpa [Function.comp_def] using hlists

/-- An expression that a script can contain, but for its names. -/
def Shaped (e : Expr) : Prop := e.Plain fun _ => True

mutual

theorem resolve_shaped {inline : Pair → Resolution Expr}
    (hinline : ∀ pair, (inline pair).value.Shaped) (target : Pair) :
    ∀ (e : Expr) (inCall : Bool), e.Shaped → (e.resolve target inline inCall).value.Shaped
  | .name text, inCall, _ => by
      rw [resolve]
      split
      · trivial
      · split
        · trivial
        · exact hinline _
  | .call callee args, inCall, h => by
      rw [resolve]
      split
      · exact h
      · exact ⟨h.1, (resolveList_shaped hinline target args true h.2).1⟩
  | .binary op left right, inCall, h =>
      ⟨resolve_shaped hinline target left inCall h.1,
        resolve_shaped hinline target right inCall h.2⟩
  | .signed sign operand, inCall, h => resolve_shaped hinline target operand inCall h
  | .tuple items, inCall, h => by
      obtain ⟨hitems, hlength⟩ := resolveList_shaped hinline target items inCall h.2
      exact ⟨hlength.symm ▸ h.1, hitems⟩
  | .literal _, _, h => h
  | .quoted _, _, h => h.elim

theorem resolveList_shaped {inline : Pair → Resolution Expr}
    (hinline : ∀ pair, (inline pair).value.Shaped) (target : Pair) :
    ∀ (es : List Expr) (inCall : Bool), PlainList (fun _ => True) es →
      PlainList (fun _ => True) (resolveList target inline inCall es).value ∧
        (resolveList target inline inCall es).value.length = es.length
  | [], _, _ => ⟨trivial, rfl⟩
  | e :: es, inCall, h => by
      obtain ⟨hrest, hlength⟩ := resolveList_shaped hinline target es inCall h.2
      exact ⟨⟨resolve_shaped hinline target e inCall h.1, hrest⟩, congrArg Nat.succ hlength⟩

end

end Expr

namespace RuleBook

open Paydesk.Rates.Expr

variable {book : RuleBook}

theorem candidate_shaped (h : ∀ rule ∈ book.rules, rule.2.Shaped) (pair : Pair) :
    (book.candidate pair).Shaped := by
  unfold candidate
  split
  · exact ⟨trivial, trivial, trivial⟩
  · split_ifs
    · exact ⟨rfl, trivial⟩
    · split
      · next pair' value hrule => exact h _ (List.mem_of_getElem? hrule)
      · exact ⟨trivial, trivial, trivial⟩

theorem inline_shaped (h : ∀ rule ∈ book.rules, rule.2.Shaped) (left : Nat) (pair : Pair) :
    (book.inline left pair).value.Shaped := by
  induction left generalizing pair with
  | zero =>
      unfold inline
      split
      · rfl
      · exact ⟨trivial, trivial, trivial⟩
  | succ left ih =>
      unfold inline
      split
      · rfl
      · exact resolve_shaped ih pair _ false (candidate_shaped h pair)

theorem setSpread_eq_ok {spread : Decimal} {wide : RuleBook}
    (h : book.setSpread spread = .ok wide) :
    ¬spread.lt .zero ∧ ¬Decimal.one.lt spread ∧ wide = { book with spread } := by
  unfold setSpread at h
  split_ifs at h with hrange
  cases h
  simp only [Bool.or_eq_true, not_or] at hrange
  exact ⟨hrange.1, hrange.2, rfl⟩

theorem widening?_shaped (hlow : ¬book.spread.lt .zero) (hhigh : ¬Decimal.one.lt book.spread)
    (hzero : book.spread.isZero = false) {factors : Expr} (h : book.widening? = some factors) :
    factors.Shaped := by
  obtain ⟨below, hbelow, h⟩ := Option.bind_eq_some_iff.mp h
  obtain ⟨above, habove, h⟩ := Option.bind_eq_some_iff.mp h
  cases h
  refine ⟨Nat.le_refl _, Decimal.nonnegative_of_one_sub? hhigh hzero hbelow, ?_, trivial⟩
  exact Decimal.nonnegative_of_add? rfl (Decimal.nonnegative_of_not_lt_zero hlow hzero) habove

theorem ruleFor_shaped (h : ∀ rule ∈ book.rules, rule.2.Shaped) (hlow : ¬book.spread.lt .zero)
    (hhigh : ¬Decimal.one.lt book.spread) (pair : Pair) : (book.ruleFor pair).expr.Shaped := by
  have hresolve : ∀ e : Expr, e.Shaped → (book.resolve pair e).value.Shaped :=
    fun e => resolve_shaped (inline_shaped h _) pair e false
  unfold ruleFor
  split_ifs with hidentity hzero
  · exact hresolve _ rfl
  · exact hresolve _ (candidate_shaped h pair)
  · split
    · next factors hfactors =>
      refine hresolve _ ⟨candidate_shaped h pair, ?_⟩
      exact widening?_shaped hlow hhigh (by simpa using hzero) hfactors
    · exact hresolve _ (candidate_shaped h pair)

end RuleBook

/-- A tree is read from its written form, whatever its operators, signs, tuples and calls.
So is the resolved rule of any pair, if all names in it can be read. -/
theorem parseScript_written :
    (∀ e : Expr, e.Plain (Token.isIdentifier ·) → parseScript e.render = .ok [⟨none, e⟩]) ∧
    ∀ (script : String) (book wide : RuleBook) (spread : Decimal) (pair : Pair),
      RuleBook.read script = .ok book → book.setSpread spread = .ok wide →
      (∀ text ∈ (wide.ruleFor pair).expr.names, Token.isIdentifier text) →
      parseScript (wide.ruleFor pair).expr.render = .ok [⟨none, (wide.ruleFor pair).expr⟩] := by
  refine ⟨fun e h => e.parseScript_render h, ?_⟩
  intro script book wide spread pair hread hspread hnames
  obtain ⟨hlow, hhigh, rfl⟩ := RuleBook.setSpread_eq_ok hspread
  have hrules := RuleBook.plain_of_read hread
  have hshaped : (RuleBook.ruleFor { book with spread } pair).expr.Shaped :=
    @RuleBook.ruleFor_shaped { book with spread } hrules hlow hhigh pair
  exact Expr.parseScript_render (Expr.Plain.of_names _ hshaped hnames)

theorem parseScript_written_difference :
    parseScript "-(A + B_1(c, (1, 2))) - (x - y)" =
      .ok [⟨none, .binary .sub
        (.signed .minus (.binary .add (.name "A")
          (.call (.name "B_1") [.name "c", .tuple [.literal .one, .literal .two]])))
        (.binary .sub (.name "x") (.name "y"))⟩] ∧
    ∃ book,
      RuleBook.read "LTC_X = -kraken(LTC_BTC) / BTC_X\nBTC_X = gemini(BTC_X) - 1 - 2" = .ok book ∧
      (book.ruleFor ⟨"LTC", "USD"⟩).expr.render =
        "-kraken(LTC_BTC) / (gemini(BTC_USD) - 1 - 2)" ∧
      parseScript (book.ruleFor ⟨"LTC", "USD"⟩).expr.render =
        .ok [⟨none, (book.ruleFor ⟨"LTC", "USD"⟩).expr⟩] := by
  refine ⟨parseScript_written.1 (.binary .sub
    (.signed .minus (.binary .add (.name "A")
      (.call (.name "B_1") [.name "c", .tuple [.literal .one, .literal .two]])))
    (.binary .sub (.name "x") (.name "y"))) ?_, ?_⟩
  · simp only [Expr.Plain, Expr.PlainList]
    decide
  · have hrule : (RuleBook.read
        "LTC_X = -kraken(LTC_BTC) / BTC_X\nBTC_X = gemini(BTC_X) - 1 - 2").toOption.map
        (fun book => ((book.ruleFor ⟨"LTC", "USD"⟩).expr.render,
          (book.ruleFor ⟨"LTC", "USD"⟩).expr.names)) =
        some ("-kraken(LTC_BTC) / (gemini(BTC_USD) - 1 - 2)",
          ["kraken", "LTC_BTC", "gemini", "BTC_USD"]) := by
      decide +kernel
    cases hread : RuleBook.read
        "LTC_X = -kraken(LTC_BTC) / BTC_X\nBTC_X = gemini(BTC_X) - 1 - 2" with
    | error e => simp [hread, Except.toOption] at hrule
    | ok book =>
        rw [hread] at hrule
        obtain ⟨hrender, hnames⟩ := Prod.mk.inj (Option.some.inj hrule)
        have hspread : book.setSpread book.spread = .ok book := by
          obtain ⟨ss, -, -, rfl⟩ := RuleBook.read_eq_ok_iff.mp hread
          rfl
        refine ⟨book, rfl, hrender, parseScript_written.2 _ _ _ _ _ hread hspread ?_⟩
        rw [hnames]
        decide

end Paydesk.Rates

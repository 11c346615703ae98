import Mathlib.Logic.Relation
import Paydesk.Proofs.Rates.Lexemes
import Paydesk.Proofs.Rates.Plain

/-!
How a script may be laid out: blanks between its tokens, any text in its comments, and, inside
parentheses or behind an operator, line ends and comments. The statements do not depend on it.
-/

namespace Paydesk.Rates

namespace Token

/-- That an expression goes on behind a token, on whatever line. -/
def Continues (t : Token) : Prop :=
  t = .plus ∨ t = .minus ∨ t = .star ∨ t = .slash ∨ t = .assign

/-- Tokens with more line ends behind those at which an expression goes on. -/
inductive Loosens : List Token → List Token → Prop
  | nil : Loosens [] []
  | cons (t : Token) {ts us : List Token} (h : Loosens ts us) : Loosens (t :: ts) (t :: us)
  | breaks {t : Token} {breaks ts us : List Token} (ht : t.Continues)
      (hbreaks : ∀ b ∈ breaks, b = .newline) (h : Loosens ts us) :
      Loosens (t :: ts) (t :: (breaks ++ us))

namespace Loosens

variable {t : Token} {breaks ts us vs : List Token}

theorem refl (ts : List Token) : Loosens ts ts := by
  induction ts with
  | nil => exact .nil
  | cons t ts ih => exact .cons t ih

theorem append_left (ts : List Token) (h : Loosens us vs) : Loosens (ts ++ us) (ts ++ vs) := by
  induction ts with
  | nil => exact h
  | cons t ts ih => exact .cons t ih

theorem of_nil (h : Loosens [] vs) : vs = [] := by
  cases h
  rfl

theorem of_cons (ht : ¬t.Continues) (h : Loosens (t :: ts) vs) :
    ∃ us, Loosens ts us ∧ vs = t :: us := by
  cases h with
  | cons _ h => exact ⟨_, h, rfl⟩
  | breaks ht' => exact absurd ht' ht

theorem of_append (h : Loosens (ts ++ us) vs) :
    ∃ ts' us', Loosens ts ts' ∧ Loosens us us' ∧ vs = ts' ++ us' := by
  induction ts generalizing vs with
  | nil => exact ⟨[], vs, .nil, h, rfl⟩
  | cons t ts ih =>
      cases h with
      | cons _ h =>
          obtain ⟨ts', us', hts, hus, rfl⟩ := ih h
          exact ⟨t :: ts', us', .cons t hts, hus, rfl⟩
      | @breaks _ breaks _ _ ht hbreaks h =>
          obtain ⟨ts', us', hts, hus, rfl⟩ := ih h
          exact ⟨t :: (breaks ++ ts'), us', .breaks ht hbreaks hts, hus, by simp⟩

theorem of_last (ht : ¬t.Continues) (h : Loosens (ts ++ [t]) vs) :
    ∃ us, Loosens ts us ∧ vs = us ++ [t] := by
  obtain ⟨us, _, hus, hlast, rfl⟩ := h.of_append
  obtain ⟨_, hnil, rfl⟩ := hlast.of_cons ht
  rw [hnil.of_nil]
  exact ⟨us, hus, rfl⟩

theorem of_newlines (hbreaks : ∀ b ∈ breaks, b = .newline) (h : Loosens breaks vs) :
    vs = breaks := by
  induction breaks generalizing vs with
  | nil => exact h.of_nil
  | cons b breaks ih =>
      obtain ⟨rfl, hmore⟩ := List.forall_mem_cons.mp hbreaks
      obtain ⟨us, hus, rfl⟩ := h.of_cons (by simp [Continues])
      rw [ih hmore hus]

/-- Behind a token there are as many line ends as before, or more. -/
theorem of_continued (hbreaks : ∀ b ∈ breaks, b = .newline)
    (h : Loosens (t :: (breaks ++ ts)) vs) : ∃ breaks' us, (∀ b ∈ breaks', b = .newline) ∧
      Loosens ts us ∧ vs = t :: (breaks' ++ us) := by
  cases h with
  | cons _ h =>
      obtain ⟨_, us, hsame, hus, rfl⟩ := h.of_append
      rw [hsame.of_newlines hbreaks]
      exact ⟨breaks, us, hbreaks, hus, rfl⟩
  | @breaks _ more _ _ _ hmore h =>
      obtain ⟨_, us, hsame, hus, rfl⟩ := h.of_append
      rw [hsame.of_newlines hbreaks]
      refine ⟨more ++ breaks, us, List.forall_mem_append.mpr ⟨hmore, hbreaks⟩, hus, ?_⟩
      rw [List.append_assoc]

theorem head?_eq (h : Loosens ts us) : us.head? = ts.head? := by
  cases h <;> rfl

/-- Line ends may be added to those that stand behind an operator. -/
theorem of_breaks {more : List Token} (ht : t.Continues) (hbreaks : ∀ b ∈ breaks, b = .newline)
    (hmore : ∀ b ∈ more, b = .newline) (ts us : List Token) :
    Loosens (ts ++ t :: breaks ++ us) (ts ++ t :: breaks ++ (more ++ us)) := by
  have hswap : breaks ++ more = more ++ breaks := by
    rw [List.eq_replicate_iff.mpr ⟨rfl, hbreaks⟩, List.eq_replicate_iff.mpr ⟨rfl, hmore⟩,
      List.replicate_append_replicate, List.replicate_append_replicate, Nat.add_comm]
  have hrow : ts ++ t :: breaks ++ (more ++ us) = ts ++ t :: (more ++ (breaks ++ us)) := by
    rw [← List.append_assoc more, ← hswap]
    simp
  rw [hrow, List.append_assoc]
  exact .append_left ts (.breaks ht hmore (.refl _))

end Loosens

end Token

namespace Grammar

open Token

variable {phrase : Phrase} {s : Statement} {ss : List Statement} {ts vs : List Token}

theorem Derives.of_loosens (h : Derives phrase ts) (hloose : Loosens ts vs) : Derives phrase vs := by
  induction h generalizing vs with
  | ofProduct _ ih => exact .ofProduct (ih hloose)
  | ofOperand _ ih => exact .ofOperand (ih hloose)
  | ofCalls _ ih => exact .ofCalls (ih hloose)
  | ofPrimary _ ih => exact .ofPrimary (ih hloose)
  | single _ ih => exact .single (ih hloose)
  | sum hop _ hbreaks _ ihleft ihright =>
      obtain ⟨ts', _, hts, hrest, rfl⟩ := hloose.of_append
      obtain ⟨breaks', us', hbreaks', hus, rfl⟩ := hrest.of_continued hbreaks
      exact .sum hop (ihleft hts) hbreaks' (ihright hus)
  | product hop _ hbreaks _ ihleft ihright =>
      obtain ⟨ts', _, hts, hrest, rfl⟩ := hloose.of_append
      obtain ⟨breaks', us', hbreaks', hus, rfl⟩ := hrest.of_continued hbreaks
      exact .product hop (ihleft hts) hbreaks' (ihright hus)
  | signed hbreaks _ ih =>
      obtain ⟨breaks', us', hbreaks', hus, rfl⟩ := hloose.of_continued hbreaks
      exact .signed hbreaks' (ih hus)
  | call _ ih =>
      obtain ⟨ts', _, hts, hcall, rfl⟩ := hloose.of_append
      obtain ⟨_, hlast, rfl⟩ := hcall.of_cons (by simp [Continues])
      obtain ⟨_, hnil, rfl⟩ := hlast.of_cons (by simp [Continues])
      rw [hnil.of_nil]
      exact .call (ih hts)
  | callWith _ _ ih ihargs =>
      obtain ⟨ts', _, hts, hcall, rfl⟩ := hloose.of_append
      obtain ⟨_, hargs, rfl⟩ := hcall.of_cons (by simp [Continues])
      obtain ⟨us', hus, rfl⟩ := hargs.of_last (by simp [Continues])
      exact .callWith (ih hts) (ihargs hus)
  | number value =>
      obtain ⟨_, hnil, rfl⟩ := hloose.of_cons (by simp [Continues])
      rw [hnil.of_nil]
      exact .number value
  | name text =>
      obtain ⟨_, hnil, rfl⟩ := hloose.of_cons (by simp [Continues])
      rw [hnil.of_nil]
      exact .name text
  | group _ ih =>
      obtain ⟨_, hitems, rfl⟩ := hloose.of_cons (by simp [Continues])
      obtain ⟨ts', hts, rfl⟩ := hitems.of_last (by simp [Continues])
      exact .group (ih hts)
  | cons _ _ ih ihrest =>
      obtain ⟨ts', _, hts, hrest, rfl⟩ := hloose.of_append
      obtain ⟨us', hus, rfl⟩ := hrest.of_cons (by simp [Continues])
      exact .cons (ih hts) (ihrest hus)

theorem Says.of_loosens (h : Says s ts) (hloose : Loosens ts vs) : Says s vs := by
  cases h with
  | bare h => exact .bare (h.of_loosens hloose)
  | rule htarget hbreaks hvalue =>
      obtain ⟨ts', _, hts, hrest, rfl⟩ := hloose.of_append
      obtain ⟨breaks', us', hbreaks', hus, rfl⟩ := hrest.of_continued hbreaks
      exact .rule (htarget.of_loosens hts) hbreaks' (hvalue.of_loosens hus)

/-- More line ends behind the operators leave the statements as they are. -/
theorem Lists.of_loosens (h : Lists ss ts) (hloose : Loosens ts vs) : Lists ss vs := by
  induction h generalizing vs with
  | nil =>
      rw [hloose.of_nil]
      exact .nil
  | skip hbreak _ ih =>
      obtain ⟨us', hus, rfl⟩ := hloose.of_cons (by rcases hbreak with rfl | rfl <;> simp [Continues])
      exact .skip hbreak (ih hus)
  | cons hsaid hbreak _ ih =>
      obtain ⟨ts', us', hts, hus, rfl⟩ := hloose.of_append
      exact .cons (hsaid.of_loosens hts) (by rwa [hus.head?_eq]) (ih hus)

end Grammar

namespace Token

open Text

section Scan

variable {behind : Bool} {depth : Nat} {pre x rest post text : List Char}
  {ts us breaks : List Token}

def endsBlank (cs : List Char) : Bool := cs.getLast?.any isBlank

/-- Blanks, line ends and comments, each comment with a blank before it and a line end behind
it. It is given whether a blank stands in front of them. -/
inductive Layout : Bool → List Char → Prop
  | nil {behind : Bool} : Layout behind []
  | blank {behind : Bool} {c : Char} {cs : List Char} (hc : isBlank c) (h : Layout true cs) :
      Layout behind (c :: cs)
  | comment {text cs : List Char} (htext : '\n' ∉ text) (h : Layout true cs) :
      Layout true ('/' :: '/' :: (text ++ '\n' :: cs))

/-- The tokens of some line ends. -/
def lineBreaks (depth : Nat) : Nat → List Token
  | 0 => []
  | n + 1 => lineBreak depth ++ lineBreaks depth n

theorem lineBreaks_newline (depth n : Nat) : ∀ b ∈ lineBreaks depth n, b = .newline := by
  induction n with
  | zero => exact List.forall_mem_nil _
  | succ n ih => exact List.forall_mem_append.mpr ⟨lineBreak_newline depth, ih⟩

/-- Inside parentheses a line end is no token. -/
theorem lineBreaks_of_pos (hdepth : 0 < depth) (n : Nat) : lineBreaks depth n = [] := by
  induction n with
  | zero => rfl
  | succ n ih => rw [lineBreaks, ih, lineBreak, if_neg hdepth.ne', List.append_nil]

theorem Layout.exists_lexes (h : Layout behind x) (rest : List Char) (depth : Nat) :
    ∃ n, Lexes rest depth x (lineBreaks depth n) := by
  have hline {w cs : List Char} {n : Nat} (hw : ∀ next, Lexeme depth next w (lineBreak depth))
      (hcs : Lexes rest depth cs (lineBreaks depth n)) :
      Lexes rest depth (w ++ cs) (lineBreaks depth (n + 1)) :=
    .lexeme (hw _) (by rwa [depthBehind_newlines (lineBreak_newline depth)])
  induction h with
  | nil => exact ⟨0, .done⟩
  | @blank _ c cs hc _ ih =>
      obtain ⟨n, hcs⟩ := ih
      by_cases hnewline : c = '\n'
      · subst hnewline
        exact ⟨n + 1, hline (fun _ => .lineEnd) hcs⟩
      · exact ⟨n, .lexeme (.blank hc hnewline) hcs⟩
  | @comment text cs htext _ ih =>
      obtain ⟨n, hcs⟩ := ih
      have hrow := hline (fun _ => .comment htext) hcs
      rw [List.cons_append, List.cons_append, List.append_assoc] at hrow
      exact ⟨n + 1, hrow⟩

theorem Layout.parts (h : Layout (endsBlank pre) x) (post : List Char) :
    Parts pre post.head? (x ++ post).head? := by
  generalize hbehind : endsBlank pre = behind at h
  intro d hd
  cases h with
  | nil => exact .inl hd
  | blank hc _ =>
      obtain rfl := Option.some.inj hd
      exact .inr (.inl hc)
  | comment => exact .inr (.inr ((Option.any_eq_true _ _).mp hbehind))

theorem Lexeme.tokens {next : Option Char} (h : Lexeme depth next x ts) :
    ts = [] ∨ ∃ t, ts = [t] := by
  have hline : lineBreak depth = [] ∨ ∃ t, lineBreak depth = [t] := by
    unfold lineBreak
    split_ifs <;> simp
  cases h with
  | lineEnd | comment => exact hline
  | blank => exact .inl rfl
  | slash | number | name | symbol => exact .inr ⟨_, rfl⟩

/-- A row of lexemes can be parted at any of its tokens. -/
theorem Lexes.exists_split (h : Lexes rest depth x (ts ++ us)) :
    ∃ pre post, x = pre ++ post ∧ Lexes (post ++ rest) depth pre ts := by
  generalize hvs : ts ++ us = vs at h
  induction h generalizing ts with
  | done =>
      obtain ⟨rfl, -⟩ := List.append_eq_nil_iff.mp hvs
      exact ⟨[], [], rfl, .done⟩
  | @lexeme depth w cs ts' us' h _ ih =>
      cases ts with
      | nil => exact ⟨[], w ++ cs, rfl, .done⟩
      | cons t ts =>
          obtain ⟨more, hmore, htail⟩ : ∃ more, t :: ts = ts' ++ more ∧ more ++ us = us' := by
            rcases h.tokens with rfl | ⟨t', rfl⟩
            · exact ⟨t :: ts, rfl, hvs⟩
            · obtain ⟨rfl, hus⟩ := List.cons.inj hvs
              exact ⟨ts, rfl, hus⟩
          obtain ⟨pre, post, rfl, hpre⟩ := ih htail
          rw [hmore]
          refine ⟨w ++ pre, post, (List.append_assoc ..).symm, .lexeme ?_ hpre⟩
          rwa [← List.append_assoc]

theorem lexes_of_blanks (hx : ∀ c ∈ x, isBlank c ∧ c ≠ '\n') (rest : List Char) (depth : Nat) :
    Lexes rest depth x [] := by
  induction x with
  | nil => exact .done
  | cons c x ih =>
      obtain ⟨⟨hc, hne⟩, hx⟩ := List.forall_mem_cons.mp hx
      exact .lexeme (.blank hc hne) (ih hx)

theorem parts_of_blanks (hx : ∀ c ∈ x, isBlank c ∧ c ≠ '\n') (pre post : List Char) :
    Parts pre post.head? (x ++ post).head? := by
  intro d hd
  cases x with
  | nil => exact .inl hd
  | cons c x =>
      obtain rfl := Option.some.inj hd
      exact .inr (.inl (hx c List.mem_cons_self).1)

/-- Adding to a script between two lexemes adds the tokens of what is added. -/
theorem scans_insert {vs : List Token} (hpre : Lexes post 0 pre ts)
    (hx : Lexes post (depthBehind 0 ts) x breaks) (hbreaks : ∀ b ∈ breaks, b = .newline)
    (hparts : Parts pre post.head? (x ++ post).head?) (h : Scans 0 (pre ++ post) vs) :
    ∃ us, vs = ts ++ us ∧ Scans 0 (pre ++ x ++ post) (ts ++ (breaks ++ us)) := by
  obtain ⟨us, hus, rfl⟩ := hpre.scans_append_iff.mp h
  refine ⟨us, rfl, ((hpre.of_parts hparts).append hx).scans_append_iff.mpr ⟨us, ?_, ?_⟩⟩
  · rwa [depthBehind_append, depthBehind_newlines hbreaks]
  · rw [List.append_assoc]

/-- The text of a comment does not count. -/
theorem scans_comment_insert {vs : List Token}
    (hpre : Lexes ('/' :: '/' :: (text ++ post)) 0 pre ts) (htext : '\n' ∉ text) (hx : '\n' ∉ x)
    (h : Scans 0 (pre ++ '/' :: '/' :: (text ++ post)) vs) :
    Scans 0 (pre ++ '/' :: '/' :: (text ++ (x ++ post))) vs := by
  have hparts : Parts pre ('/' :: '/' :: (text ++ post)).head?
      ('/' :: '/' :: (text ++ (x ++ post))).head? := fun _ hd => .inl hd
  obtain ⟨us, ⟨line, ps, hps, rfl⟩, rfl⟩ := hpre.scans_append_iff.mp h
  refine (hpre.of_parts hparts).scans_append_iff.mpr ⟨_, ⟨line, ps, ?_, rfl⟩, rfl⟩
  rw [scan_comment, dropWhile_comment htext] at hps
  rwa [scan_comment, dropWhile_comment htext, dropWhile_comment hx]

end Scan

/-- A place behind some tokens where an expression goes on: inside parentheses, or directly
behind an operator or an assignment. -/
def GoesOn (ts : List Token) : Prop :=
  ts.count .closing < ts.count .opening ∨
    ∃ before t breaks, t.Continues ∧ (∀ b ∈ breaks, b = .newline) ∧ ts = before ++ t :: breaks

/-- One addition to the layout of a script: blanks between two lexemes, line ends and comments
as well where an expression goes on, and more text in a comment. -/
inductive Relaid : String → String → Prop
  | blanks {pre x post : String} {ts : List Token} (hpre : Lexes post.toList 0 pre.toList ts)
      (hx : ∀ c ∈ x.toList, isBlank c ∧ c ≠ '\n') : Relaid (pre ++ post) (pre ++ x ++ post)
  | breaks {pre x post : String} {ts : List Token} (hpre : Lexes post.toList 0 pre.toList ts)
      (hplace : GoesOn ts) (hx : Layout (endsBlank pre.toList) x.toList) :
      Relaid (pre ++ post) (pre ++ x ++ post)
  | comment {pre text x post : String} {ts : List Token}
      (hpre : Lexes ("//" ++ text ++ post).toList 0 pre.toList ts)
      (htext : '\n' ∉ text.toList) (hx : '\n' ∉ x.toList) :
      Relaid (pre ++ ("//" ++ text ++ post)) (pre ++ ("//" ++ (text ++ x) ++ post))

end Token

open Token

section Scripts

variable {s s' : String} {ss : List Statement}

theorem toList_append_comment (pre text post : String) :
    (pre ++ ("//" ++ text ++ post)).toList =
      pre.toList ++ '/' :: '/' :: (text.toList ++ post.toList) := by
  simp

theorem parseScript_of_relaid (h : parseScript s = .ok ss) (hlaid : Relaid s s') :
    parseScript s' = .ok ss := by
  obtain ⟨vs, hvs, hlists⟩ := parseScript_eq_ok_iff_scans.mp h
  rw [parseScript_eq_ok_iff_scans]
  cases hlaid with
  | @blanks pre x post ts hpre hx =>
      rw [String.toList_append] at hvs
      obtain ⟨us, rfl, hscans⟩ := scans_insert hpre (lexes_of_blanks hx _ _)
        (List.forall_mem_nil _) (parts_of_blanks hx _ _) hvs
      refine ⟨_, ?_, hlists⟩
      rwa [String.toList_append, String.toList_append]
  | @breaks pre x post ts hpre hplace hx =>
      rw [String.toList_append] at hvs
      obtain ⟨n, hlexes⟩ := hx.exists_lexes post.toList (depthBehind 0 ts)
      have hbreaks := lineBreaks_newline (depthBehind 0 ts) n
      obtain ⟨us, rfl, hscans⟩ := scans_insert hpre hlexes hbreaks (hx.parts _) hvs
      refine ⟨_, by rwa [String.toList_append, String.toList_append], ?_⟩
      rcases hplace with hopen | ⟨before, t, breaks, ht, hbreaks', rfl⟩
      · have hdepth := count_opening_le 0 ts
        rw [lineBreaks_of_pos (by omega)]
        exact hlists
      · exact hlists.of_loosens (.of_breaks ht hbreaks' hbreaks before us)
  | @comment pre text x post ts hpre htext hx =>
      refine ⟨vs, ?_, hlists⟩
      rw [toList_append_comment] at hvs
      rw [toList_append_comment, String.toList_append, List.append_assoc]
      exact scans_comment_insert (by simpa using hpre) htext hx hvs

/-- Layout and comments do not change what a script says. They may be added at any token. -/
theorem parseScript_of_layout (h : parseScript s = .ok ss) :
    (∀ ts us, Scans 0 s.toList (ts ++ us) →
      ∃ pre post, s = pre ++ post ∧ Lexes post.toList 0 pre.toList ts) ∧
    ∀ s', Relation.ReflTransGen Relaid s s' →
      parseScript s' = .ok ss ∧ RuleBook.read s' = RuleBook.read s := by
  constructor
  · rintro ts us ⟨line, ps, hps, htokens⟩
    obtain ⟨row, rest, hs, -, hrow⟩ := exists_lexes_of_scan hps
    obtain ⟨pre, post, rfl, hpre⟩ := (htokens ▸ hrow).exists_split
    refine ⟨String.ofList pre, String.ofList (post ++ rest), ?_, by simpa using hpre⟩
    rw [← String.toList_inj, hs]
    simp
  · intro s' hlaid
    have hparse : parseScript s' = .ok ss := by
      induction hlaid with
      | refl => exact h
      | tail _ hlaid ih => exact parseScript_of_relaid ih hlaid
    exact ⟨hparse, by rw [RuleBook.read, RuleBook.read, h, hparse]⟩

/-- A sign with a comment behind it, and a line end inside of the parentheses. -/
theorem parseScript_of_commented_sign :
    Relation.ReflTransGen Relaid "-(1)" "- // one more\n(\n1)" ∧
      parseScript "- // one more\n(\n1)" =
        .ok [⟨none, .signed .minus (.literal (.ofNat 1))⟩] := by
  have hsign {post : List Char} : Lexes post 0 "-".toList [.minus] := (Lexeme.symbol rfl).lexes
  have hblank {post : List Char} : Lexes post 0 "- ".toList [.minus] :=
    hsign.append (Lexeme.blank (by decide) (by decide)).lexes
  have hcomment (next : Option Char) : Lexeme 0 next "// one\n".toList [.newline] :=
    @Lexeme.comment 0 next " one".toList (by decide)
  have hopening {post : List Char} :
      Lexes post 0 "- // one\n(".toList ([.minus] ++ ([.newline] ++ [.opening])) :=
    hblank.append ((hcomment _).lexes.append (Lexeme.symbol rfl).lexes)
  have hfirst : Relaid "-(1)" "- // one\n(1)" :=
    @Relaid.breaks "-" " // one\n" "(1)" _ hsign
      (.inr ⟨[], .minus, [], .inr (.inl rfl), List.forall_mem_nil _, rfl⟩)
      (.blank (by decide) (@Layout.comment " one".toList _ (by decide) .nil))
  have hsecond : Relaid "- // one\n(1)" "- // one\n(\n1)" :=
    @Relaid.breaks "- // one\n(" "\n" "1)" _ hopening (.inl (by decide))
      (.blank (by decide) .nil)
  have hthird : Relaid "- // one\n(\n1)" "- // one more\n(\n1)" :=
    @Relaid.comment "- " " one" " more" "\n(\n1)" _ hblank (by decide) (by decide)
  have hlaid := ((Relation.ReflTransGen.single hfirst).tail hsecond).tail hthird
  exact ⟨hlaid, ((parseScript_of_layout (by with_unfolding_all rfl)).2 _ hlaid).1⟩

end Scripts

end Paydesk.Rates

import Paydesk.Proofs.Rates.Spelling

/-!
The lexemes of a script: words, symbols, blanks, line ends and comments. A script is split
into tokens if it is a row of lexemes, perhaps with a comment behind that no line end closes,
and its tokens are those of the lexemes. A lexeme depends on the text behind it only through
the next character, so a row of lexemes is still one in front of a blank.
-/

namespace Paydesk.Rates

namespace Token

open Text

/-- How many parentheses are open behind some tokens. -/
def depthBehind (depth : Nat) (ts : List Token) : Nat :=
  ts.foldl (fun depth t => t.depthAfter depth) depth

/-- The end of a line is a token where no parenthesis is open. -/
def lineBreak (depth : Nat) : List Token := if depth = 0 then [.newline] else []

/-- Characters that are read at once, given the next one, and the tokens that they give. The
line end that closes a comment is part of it. -/
inductive Lexeme (depth : Nat) (next : Option Char) : List Char → List Token → Prop
  | lineEnd : Lexeme depth next ['\n'] (lineBreak depth)
  | comment {text : List Char} (htext : '\n' ∉ text) :
      Lexeme depth next ('/' :: '/' :: (text ++ ['\n'])) (lineBreak depth)
  | blank {c : Char} (hc : isBlank c) (hne : c ≠ '\n') : Lexeme depth next [c] []
  | slash (hnext : next ≠ some '/') : Lexeme depth next ['/'] [.slash]
  | number {c : Char} {cs : List Char} {value : Decimal} (hc : isNumberChar c)
      (hcs : ∀ d ∈ cs, isNumberChar d) (hnext : ∀ d ∈ next, ¬isNumberChar d)
      (hvalue : Decimal.read (c :: cs) = .ok value) : Lexeme depth next (c :: cs) [.number value]
  | name {c : Char} {cs : List Char} (hc : isNameStart c) (hcs : ∀ d ∈ cs, isNameChar d)
      (hnext : ∀ d ∈ next, ¬isNameChar d) :
      Lexeme depth next (c :: cs) [.name (String.ofList (c :: cs))]
  | symbol {c : Char} {t : Token} (ht : symbol? c = some t) : Lexeme depth next [c] [t]

/-- A row of lexemes in front of some text, and its tokens. -/
inductive Lexes (rest : List Char) : Nat → List Char → List Token → Prop
  | done {depth : Nat} : Lexes rest depth [] []
  | lexeme {depth : Nat} {w cs : List Char} {ts us : List Token}
      (h : Lexeme depth (cs ++ rest).head? w ts)
      (hmore : Lexes rest (depthBehind depth ts) cs us) : Lexes rest depth (w ++ cs) (ts ++ us)

section Depth

variable {depth : Nat} {ts us : List Token}

@[simp] theorem depthBehind_nil (depth : Nat) : depthBehind depth [] = depth := rfl

@[simp] theorem depthBehind_cons (depth : Nat) (t : Token) (ts : List Token) :
    depthBehind depth (t :: ts) = depthBehind (t.depthAfter depth) ts := rfl

@[simp] theorem depthBehind_append (depth : Nat) (ts us : List Token) :
    depthBehind depth (ts ++ us) = depthBehind (depthBehind depth ts) us :=
  List.foldl_append

theorem depthBehind_newlines (h : ∀ t ∈ ts, t = .newline) : depthBehind depth ts = depth := by
  induction ts with
  | nil => rfl
  | cons t ts ih =>
      obtain ⟨rfl, hts⟩ := List.forall_mem_cons.mp h
      exact ih hts

theorem lineBreak_newline (depth : Nat) : ∀ t ∈ lineBreak depth, t = .newline := by
  unfold lineBreak
  split_ifs <;> simp

/-- A parenthesis that closes none lowers the count of those that are open, but not the depth. -/
theorem count_opening_le (depth : Nat) (ts : List Token) :
    depth + ts.count .opening ≤ depthBehind depth ts + ts.count .closing := by
  induction ts generalizing depth with
  | nil => simp
  | cons t ts ih =>
      have hrest := ih (t.depthAfter depth)
      rw [depthBehind_cons]
      cases t <;> simp [depthAfter] at hrest ⊢ <;> omega

end Depth

section Scan

variable {line depth : Nat} {c : Char} {cs pre rest text : List Char} {ts us : List Token}

theorem scan_lineEnd (line depth : Nat) (cs : List Char) : scan line depth ('\n' :: cs) =
    (scan (line + 1) depth cs).map ((lineBreak depth).map (Placed.mk · line) ++ ·) := by
  rw [scan, lineBreak]
  split_ifs with h
  · rfl
  · cases scan (line + 1) depth cs <;> rfl

theorem scan_comment (line depth : Nat) (cs : List Char) :
    scan line depth ('/' :: '/' :: cs) = scan line depth (cs.dropWhile (· != '\n')) := by
  rw [scan]

theorem scan_blank (hc : isBlank c) (hne : c ≠ '\n') :
    scan line depth (c :: cs) = scan line depth cs := by
  have hslash : c ≠ '/' := by
    rintro rfl
    exact absurd hc (by decide)
  rw [scan, if_pos hc]
  · exact hne
  · exact fun _ h _ => hslash h
  · exact hslash

theorem scan_slash_of_ne (h : cs.head? ≠ some '/') : scan line depth ('/' :: cs) =
    (scan line depth cs).map (⟨.slash, line⟩ :: ·) := by
  rw [scan]
  rintro ds rfl
  exact h rfl

theorem dropWhile_comment (htext : '\n' ∉ text) (rest : List Char) :
    (text ++ rest).dropWhile (· != '\n') = rest.dropWhile (· != '\n') := by
  refine List.dropWhile_append_of_pos fun c hc => ?_
  rw [bne_iff_ne]
  rintro rfl
  exact htext hc

/-- What stands behind a row of lexemes is read on, and the tokens of the row come first. -/
def Reads (depth : Nat) (cs : List Char) (ts : List Token) (rest : List Char) : Prop :=
  ∀ line, ∃ line' ps, ps.map (·.token) = ts ∧
    scan line depth (cs ++ rest) = (scan line' (depthBehind depth ts) rest).map (ps ++ ·)

theorem Lexeme.reads {w : List Char} (h : Lexeme depth rest.head? w ts) :
    Reads depth w ts rest := by
  have hone {t : Token} (ht : ∀ depth, t.depthAfter depth = depth) {w : List Char}
      (hscan : ∀ line, scan line depth (w ++ rest) =
        (scan line depth rest).map (⟨t, line⟩ :: ·)) : Reads depth w [t] rest := by
    intro line
    refine ⟨line, [⟨t, line⟩], rfl, ?_⟩
    rw [hscan, depthBehind_cons, ht, depthBehind_nil]
    rfl
  have hline (depth line : Nat) : ((lineBreak depth).map (Placed.mk · line)).map (·.token) =
      lineBreak depth := by
    simp [Function.comp_def]
  cases h with
  | lineEnd =>
      intro line
      refine ⟨line + 1, _, hline depth line, ?_⟩
      rw [depthBehind_newlines (lineBreak_newline depth)]
      exact scan_lineEnd line depth rest
  | comment htext =>
      intro line
      refine ⟨line + 1, _, hline depth line, ?_⟩
      rw [depthBehind_newlines (lineBreak_newline depth), List.cons_append, List.cons_append,
        scan_comment, List.append_assoc, dropWhile_comment htext]
      exact scan_lineEnd line depth rest
  | blank hc hne =>
      intro line
      refine ⟨line, [], rfl, ?_⟩
      rw [List.singleton_append, scan_blank hc hne, depthBehind_nil]
      cases scan line depth rest <;> rfl
  | slash hnext => exact hone (fun _ => rfl) fun line => scan_slash_of_ne hnext
  | number hc hcs hnext hvalue =>
      refine hone (fun _ => rfl) fun line => ?_
      obtain ⟨htake, hdrop⟩ := takeWhile_append_of_ends hcs hnext
      rw [List.cons_append, scan_number hc (by rw [htake, hvalue]), hdrop]
  | name hc hcs hnext =>
      refine hone (fun _ => rfl) fun line => ?_
      obtain ⟨htake, hdrop⟩ := takeWhile_append_of_ends hcs hnext
      rw [List.cons_append, scan_name hc, htake, hdrop]
  | symbol ht =>
      intro line
      refine ⟨line, [⟨_, line⟩], rfl, ?_⟩
      rw [List.singleton_append, scan_symbol ht]
      rfl

/-- The tokens of a row of lexemes are found, whatever text follows. -/
theorem Lexes.reads (h : Lexes rest depth pre ts) : Reads depth pre ts rest := by
  induction h with
  | done =>
      intro line
      refine ⟨line, [], rfl, ?_⟩
      simp only [List.nil_append, depthBehind_nil]
      cases scan line _ rest <;> rfl
  | lexeme h _ ih =>
      intro line
      obtain ⟨line', ps, rfl, hps⟩ := h.reads line
      obtain ⟨line'', qs, rfl, hqs⟩ := ih line'
      refine ⟨line'', ps ++ qs, List.map_append, ?_⟩
      rw [List.append_assoc, hps, hqs, map_map, depthBehind_append]
      simp [Function.comp_def]

end Scan

section Rows

variable {depth : Nat} {next next' : Option Char} {a b w pre rest rest' : List Char}
  {ts us : List Token}

theorem Lexeme.lexes (h : Lexeme depth rest.head? w ts) : Lexes rest depth w ts := by
  have hrow : Lexes rest depth (w ++ []) (ts ++ []) := .lexeme h .done
  rwa [List.append_nil, List.append_nil] at hrow

theorem Lexes.append (ha : Lexes (b ++ rest) depth a ts)
    (hb : Lexes rest (depthBehind depth ts) b us) : Lexes rest depth (a ++ b) (ts ++ us) := by
  induction ha with
  | done => exact hb
  | @lexeme depth w cs ts us' h _ ih =>
      rw [depthBehind_append] at hb
      rw [List.append_assoc, List.append_assoc]
      refine .lexeme ?_ (ih hb)
      rwa [List.append_assoc]

/-- A comment that no line end closes, or nothing. -/
def Unclosed (cs : List Char) : Prop := cs = [] ∨ ∃ text, '\n' ∉ text ∧ cs = '/' :: '/' :: text

theorem Unclosed.lexeme (h : Unclosed a) : Lexeme depth next (a ++ ['\n']) (lineBreak depth) := by
  rcases h with rfl | ⟨text, htext, rfl⟩
  · exact .lineEnd
  · exact .comment htext

theorem Lexes.of_nil (h : Lexes rest depth [] ts) : ts = [] := by
  generalize hcs : [] = cs at h
  cases h with
  | done => rfl
  | @lexeme _ w cs _ _ h hmore =>
      obtain ⟨rfl, -⟩ := List.nil_eq_append_iff.mp hcs
      cases h

theorem Lexeme.of_newline (h : Lexeme depth next ('\n' :: w) ts) :
    w = [] ∧ ts = lineBreak depth := by
  cases h with
  | lineEnd => exact ⟨rfl, rfl⟩
  | blank _ hne => exact absurd rfl hne
  | number hc => exact absurd hc (by decide)
  | name hc => exact absurd hc (by decide)
  | symbol ht => cases ht

theorem Lexes.of_newline (h : Lexes rest depth ('\n' :: pre) ts) :
    ∃ us, ts = lineBreak depth ++ us ∧ Lexes rest depth pre us := by
  generalize hcs : '\n' :: pre = cs at h
  cases h with
  | done => cases hcs
  | @lexeme _ w cs ts us h hmore =>
      cases w with
      | nil => cases h
      | cons c w =>
          obtain ⟨rfl, rfl⟩ := List.cons.inj hcs
          obtain ⟨rfl, rfl⟩ := h.of_newline
          rw [depthBehind_newlines (lineBreak_newline _)] at hmore
          exact ⟨us, rfl, hmore⟩

/-- A comment in front of the line end that a row begins with. -/
theorem Lexes.comment {text : List Char} (htext : '\n' ∉ text)
    (h : Lexes rest depth ('\n' :: pre) ts) :
    Lexes rest depth ('/' :: '/' :: (text ++ '\n' :: pre)) ts := by
  obtain ⟨us, rfl, hmore⟩ := h.of_newline
  have hsplit : '/' :: '/' :: (text ++ '\n' :: pre) =
      ('/' :: '/' :: (text ++ ['\n'])) ++ pre := by
    simp
  rw [hsplit]
  refine .lexeme (.comment htext) ?_
  rwa [depthBehind_newlines (lineBreak_newline depth)]

theorem mem_takeWhile_comment (cs : List Char) : '\n' ∉ cs.takeWhile (· != '\n') := by
  intro h
  simpa using List.mem_takeWhile_imp h

theorem not_of_head?_dropWhile (p : Char → Bool) (cs : List Char) :
    ∀ d ∈ (cs.dropWhile p).head?, ¬p d := by
  intro d hd
  have hhead := List.head?_dropWhile_not p cs
  rw [Option.mem_def.mp hd] at hhead
  simpa using hhead

/-- What is left of a comment begins with the line end. -/
theorem eq_newline_of_dropWhile {c : Char} {cs ds : List Char}
    (h : cs.dropWhile (· != '\n') = c :: ds) : c = '\n' := by
  have hhead := not_of_head?_dropWhile (· != '\n') cs c (by rw [h]; rfl)
  simpa using hhead

/-- Every script that is split into tokens is a row of lexemes, up to a comment at its end. -/
theorem exists_lexes_of_scan {line : Nat} {cs : List Char} {ps : List Placed}
    (h : scan line depth cs = .ok ps) : ∃ pre rest, cs = pre ++ rest ∧ Unclosed rest ∧
      Lexes rest depth pre (ps.map (·.token)) := by
  have hcons {depth : Nat} (w : List Char) (ts : List Token) {cs : List Char} {ps : List Placed}
      (hw : ∀ next, cs.head? = next → Lexeme depth next w ts)
      (ih : ∃ pre rest, cs = pre ++ rest ∧ Unclosed rest ∧
        Lexes rest (depthBehind depth ts) pre (ps.map (·.token))) :
      ∃ pre rest, w ++ cs = pre ++ rest ∧ Unclosed rest ∧
        Lexes rest depth pre (ts ++ ps.map (·.token)) := by
    obtain ⟨pre, rest, rfl, hrest, hlexes⟩ := ih
    exact ⟨w ++ pre, rest, (List.append_assoc ..).symm, hrest, .lexeme (hw _ rfl) hlexes⟩
  fun_induction scan line depth cs generalizing ps with
  | case1 =>
      cases h
      exact ⟨[], [], rfl, .inl rfl, .done⟩
  | case2 line cs ih =>
      obtain ⟨qs, hqs, rfl⟩ := map_cons_eq_ok h
      exact hcons ['\n'] [.newline] (fun _ _ => .lineEnd) (ih hqs)
  | case3 line depth cs hdepth ih =>
      have hlexeme (next : Option Char) : Lexeme depth next ['\n'] (lineBreak depth) := .lineEnd
      rw [lineBreak, if_neg hdepth] at hlexeme
      exact hcons ['\n'] [] (fun next _ => hlexeme next) (ih h)
  | case4 line depth cs ih =>
      have htext := mem_takeWhile_comment cs
      have hcs := List.takeWhile_append_dropWhile (p := (· != '\n')) (l := cs)
      cases hdrop : cs.dropWhile (· != '\n') with
      | nil =>
          rw [hdrop, List.append_nil] at hcs
          rw [hdrop, scan] at h
          cases h
          exact ⟨[], _, rfl, .inr ⟨cs, hcs ▸ htext, rfl⟩, .done⟩
      | cons c ds =>
          obtain ⟨pre, rest, hpre, hrest, hlexes⟩ := ih h
          rw [hdrop] at hpre hcs
          obtain rfl := eq_newline_of_dropWhile hdrop
          cases pre with
          | nil =>
              rcases hrest with rfl | ⟨text, -, rfl⟩ <;> cases hpre
          | cons c pre =>
              obtain ⟨rfl, rfl⟩ := List.cons.inj hpre
              refine ⟨_, rest, ?_, hrest, hlexes.comment htext⟩
              conv_lhs => rw [← hcs]
              simp
  | case5 line depth cs hslash ih =>
      obtain ⟨qs, hqs, rfl⟩ := map_cons_eq_ok h
      refine hcons ['/'] [.slash] (fun next hnext => .slash ?_) (ih hqs)
      rintro rfl
      obtain ⟨ds, rfl⟩ := List.head?_eq_some_iff.mp hnext
      exact hslash ds rfl
  | case6 line depth c cs hline hslashes hslash hblank ih =>
      exact hcons [c] [] (fun _ _ => .blank hblank hline) (ih h)
  | case7 => cases h
  | case8 line depth c cs hline hslashes hslash hblank hnumber literal value hvalue =>
      rename_i ih
      obtain ⟨qs, hqs, rfl⟩ := map_cons_eq_ok h
      have hrow := hcons (c :: cs.takeWhile isNumberChar) [.number value]
        (fun next (hnext : (cs.dropWhile isNumberChar).head? = next) => .number hnumber
          (fun d hd => List.mem_takeWhile_imp hd) (hnext ▸ not_of_head?_dropWhile _ cs) hvalue)
        (ih hqs)
      rwa [List.cons_append, List.takeWhile_append_dropWhile] at hrow
  | case9 line depth c cs hline hslashes hslash hblank hnumber hname text =>
      rename_i ih
      obtain ⟨qs, hqs, rfl⟩ := map_cons_eq_ok h
      have hrow := hcons (c :: cs.takeWhile isNameChar) [.name text]
        (fun next (hnext : (cs.dropWhile isNameChar).head? = next) => .name hname
          (fun d hd => List.mem_takeWhile_imp hd) (hnext ▸ not_of_head?_dropWhile _ cs))
        (ih hqs)
      rwa [List.cons_append, List.takeWhile_append_dropWhile] at hrow
  | case10 line depth c cs hline hslashes hslash hblank hnumber hname t ht ih =>
      obtain ⟨qs, hqs, rfl⟩ := map_cons_eq_ok h
      exact hcons [c] [t] (fun _ _ => .symbol ht) (ih hqs)
  | case11 => cases h

theorem scan_of_unclosed (h : Unclosed rest) (line depth : Nat) : scan line depth rest = .ok [] := by
  rcases h with rfl | ⟨text, htext, rfl⟩
  · rw [scan]
  · rw [scan_comment, ← List.append_nil text, dropWhile_comment htext, List.dropWhile_nil, scan]

/-- The tokens of a text, on whatever line it begins. -/
def Scans (depth : Nat) (cs : List Char) (ts : List Token) : Prop :=
  ∃ line ps, scan line depth cs = .ok ps ∧ ps.map (·.token) = ts

theorem Scans.exists_scan {cs : List Char} (h : Scans depth cs ts) (line : Nat) :
    ∃ ps, scan line depth cs = .ok ps ∧ ps.map (·.token) = ts := by
  obtain ⟨_, qs, hqs, rfl⟩ := h
  obtain ⟨pre, rest, rfl, hrest, hlexes⟩ := exists_lexes_of_scan hqs
  obtain ⟨_, ps, hps, hscan⟩ := hlexes.reads line
  refine ⟨ps, ?_, hps⟩
  rw [hscan, scan_of_unclosed hrest, Except.map, List.append_nil]

/-- The tokens of a row of lexemes stand before those of the text that follows. -/
theorem Lexes.scans_append_iff {vs : List Token} (h : Lexes rest depth pre ts) :
    Scans depth (pre ++ rest) vs ↔
      ∃ us, Scans (depthBehind depth ts) rest us ∧ vs = ts ++ us := by
  constructor
  · rintro ⟨line, ps, hps, rfl⟩
    obtain ⟨line', front, rfl, hscan⟩ := h.reads line
    rw [hscan] at hps
    cases hrest : scan line' (depthBehind depth (front.map (·.token))) rest with
    | error => simp [hrest, Except.map] at hps
    | ok qs =>
        rw [hrest] at hps
        obtain rfl := Except.ok.inj hps
        exact ⟨_, ⟨line', qs, hrest, rfl⟩, List.map_append⟩
  · rintro ⟨us, hrest, rfl⟩
    obtain ⟨line', front, hfront, hscan⟩ := h.reads 1
    obtain ⟨qs, hqs, rfl⟩ := hrest.exists_scan line'
    refine ⟨1, front ++ qs, ?_, ?_⟩
    · rw [hscan, hqs, Except.map]
    · rw [List.map_append, hfront]

/-- That the next character ends what stands before it. -/
def Parts (before : List Char) (next next' : Option Char) : Prop :=
  ∀ c ∈ next', next = some c ∨ isBlank c ∨ ∃ d ∈ before.getLast?, isBlank d

theorem not_isBlank_of_isNumberChar {c : Char} (h : isNumberChar c) : isBlank c = false := by
  have := range_of_isNumberChar h
  exact not_isBlank (by omega) (by omega)

theorem not_isBlank_of_isNameChar {c : Char} (h : isNameChar c) : isBlank c = false := by
  rw [isNameChar, Bool.or_eq_true] at h
  rcases h with h | h
  · have := range_of_isNameStart h
    exact not_isBlank (by omega) (by omega)
  · exact not_isBlank_of_isNumberChar (by rw [isNumberChar, h, Bool.true_or])

theorem Lexeme.of_parts (h : Lexeme depth next w ts) (hnext : Parts w next next') :
    Lexeme depth next' w ts := by
  -- A word ends with no blank, so it is parted from what follows by the next character.
  have hword {p : Char → Bool} {c : Char} {cs : List Char} (hp : ∀ d, p d → isBlank d = false)
      (hw : ∀ d ∈ c :: cs, p d) (hparts : Parts (c :: cs) next next')
      (hstop : ∀ d ∈ next, ¬p d) : ∀ d ∈ next', ¬p d := by
    intro d hd hpd
    rcases hparts d hd with rfl | hblank | ⟨last, hlast, hblank⟩
    · exact hstop d rfl hpd
    · simp [hp d hpd] at hblank
    · simp [hp last (hw last (List.mem_of_getLast? hlast))] at hblank
  cases h with
  | lineEnd => exact .lineEnd
  | comment htext => exact .comment htext
  | blank hc hne => exact .blank hc hne
  | symbol ht => exact .symbol ht
  | slash hne =>
      refine .slash ?_
      rintro rfl
      rcases hnext '/' rfl with h | h | ⟨d, hd, h⟩
      · exact hne h
      · exact absurd h (by decide)
      · cases hd
        exact absurd h (by decide)
  | number hc hcs hstop hvalue =>
      exact .number hc hcs (hword (fun _ => not_isBlank_of_isNumberChar)
        (List.forall_mem_cons.mpr ⟨hc, hcs⟩) hnext hstop) hvalue
  | name hc hcs hstop =>
      refine .name hc hcs (hword (fun _ => not_isBlank_of_isNameChar)
        (List.forall_mem_cons.mpr ⟨?_, hcs⟩) hnext hstop)
      rw [isNameChar, hc, Bool.true_or]

/-- A row of lexemes is one in front of any text that is parted from it. -/
theorem Lexes.of_parts (h : Lexes rest depth pre ts) (hrest : Parts pre rest.head? rest'.head?) :
    Lexes rest' depth pre ts := by
  induction h with
  | done => exact .done
  | @lexeme _ w cs _ _ h hmore ih =>
      cases cs with
      | nil =>
          obtain rfl := hmore.of_nil
          rw [List.append_nil] at hrest
          exact .lexeme (h.of_parts hrest) .done
      | cons c cs =>
          refine .lexeme h (ih ?_)
          rwa [Parts, List.getLast?_append] at hrest

end Rows

end Token

theorem parseScript_eq_ok_iff_scans {script : String} {ss : List Statement} :
    parseScript script = .ok ss ↔
      ∃ ts, Token.Scans 0 script.toList ts ∧ Grammar.Lists ss ts := by
  rw [parseScript_eq_ok_iff]
  constructor
  · rintro ⟨ps, hps, hlists⟩
    exact ⟨_, ⟨1, ps, hps, rfl⟩, hlists⟩
  · rintro ⟨_, hscans, hlists⟩
    obtain ⟨ps, hps, rfl⟩ := hscans.exists_scan 1
    exact ⟨ps, hps, hlists⟩

end Paydesk.Rates

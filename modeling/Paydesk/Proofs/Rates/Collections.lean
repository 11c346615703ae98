import Paydesk.Proofs.Rates.Updates

/-!
What updates make of the quotes that are held. Each has a place of its own, and from there it
is replaced but never taken away.
-/

namespace Paydesk.Rates

namespace Quotes

/-- Quotes that come of any number of updates. What they are extended by has come of updates
as well. -/
inductive Assembled : Quotes → Prop
  | empty : Assembled .empty
  | add {qs : Quotes} (q : Quote) : Assembled qs → Assembled (qs.add q)
  | set {qs : Quotes} (exchange : String) (pair : Pair) (spread : Spread) :
      Assembled qs → Assembled (qs.set exchange pair spread)
  | extend {qs other : Quotes} : Assembled qs → Assembled other → Assembled (qs.extend other)
  | fetch {qs : Quotes} (source : String → Pair → Option Spread) :
      Assembled qs → Assembled (qs.fetchFrom source)

theorem assembled_ofList (quotes : List Quote) : (ofList quotes).Assembled :=
  List.foldlRecOn quotes _ .empty fun _ hqs q _ => hqs.add q

/-- Entries under keys that are written as keys are, none of them for a currency and itself. -/
structure Filed (entries : Table QuoteKey (Option Spread)) : Prop where
  sorted : entries.Sorted
  written : ∀ key ∈ entries.keys, QuoteKey.of key.exchange key.pair = key
  proper : ∀ key ∈ entries.keys, key.pair.isIdentity = false

namespace Filed

variable {qs : Quotes}

theorem empty : Filed Quotes.empty.table where
  sorted := Table.sorted_nil
  written := fun _ hkey => nomatch hkey
  proper := fun _ hkey => nomatch hkey

theorem add (h : Filed qs.table) (q : Quote) : Filed (qs.add q).table where
  sorted := by
    rw [Quotes.add]
    split
    · exact h.sorted
    · exact h.sorted.insert _ _
  written := by
    intro key hkey
    rw [Quotes.add] at hkey
    split at hkey
    · exact h.written key hkey
    · obtain ⟨entry, hentry, rfl⟩ := List.mem_map.mp hkey
      rcases Table.key_of_mem_insert hentry with hnew | hold
      · rw [hnew]
        exact QuoteKey.of_lower _ _
      · exact h.written _ hold
  proper := Proper.add h.proper q

theorem extend (h : Filed qs.table) (other : Quotes) : Filed (qs.extend other).table := by
  refine List.foldlRecOn (motive := fun qs : Quotes => Filed qs.table) other.toList _ h fun qs hqs q _ => ?_
  split
  · exact hqs
  · exact hqs.add q

theorem fetchFrom (h : Filed qs.table) (source : String → Pair → Option Spread) :
    Filed (qs.fetchFrom source).table := by
  refine List.foldlRecOn (motive := fun qs : Quotes => Filed qs.table) qs.toList _ h fun qs hqs q _ => ?_
  split
  · exact hqs.add _
  · exact hqs

/-- Only the keys count. -/
theorem of_keys_eq {entries entries' : Table QuoteKey (Option Spread)} (h : Filed entries)
    (hkeys : entries'.keys = entries.keys) : Filed entries' where
  sorted := Table.sorted_iff_keys.mpr (hkeys ▸ Table.sorted_iff_keys.mp h.sorted)
  written := hkeys ▸ h.written
  proper := hkeys ▸ h.proper

end Filed

theorem Assembled.filed {qs : Quotes} (h : qs.Assembled) : Filed qs.table := by
  induction h with
  | empty => exact .empty
  | add q _ ih => exact ih.add q
  | set exchange pair spread _ ih => exact ih.add _
  | extend _ _ ih _ => exact ih.extend _
  | fetch source _ ih => exact ih.fetchFrom source

theorem find?_add (qs : Quotes) (q : Quote) (key : QuoteKey) :
    (qs.add q).table.find? key =
      if q.pair.isIdentity = false ∧ key = .of q.exchange q.pair then some q.spread
      else qs.table.find? key := by
  cases hidentity : q.pair.isIdentity with
  | true => simp [add, hidentity]
  | false => simp [add, hidentity, Table.find?_insert]

/-- An entry of a table as a quote. -/
def ofEntry (entry : QuoteKey × Option Spread) : Quote := ⟨entry.1.exchange, entry.1.pair, entry.2⟩

/-- One quote of another collection is taken over, or it is left out because its spread is
unknown and there is one already. -/
def takeOver (qs : Quotes) (q : Quote) : Quotes :=
  if q.spread.isNone && qs.contains q.exchange q.pair then qs else qs.add q

theorem extend_eq_foldl (qs other : Quotes) :
    qs.extend other = (other.table.map ofEntry).foldl takeOver qs := rfl

theorem find?_takeOver {key : QuoteKey} (hkey : QuoteKey.of key.exchange key.pair = key)
    (hproper : key.pair.isIdentity = false) (qs : Quotes) (spread : Option Spread)
    (key' : QuoteKey) :
    (qs.takeOver (ofEntry (key, spread))).table.find? key' =
      if key' = key then some (spread.or (qs.table.find? key).join)
      else qs.table.find? key' := by
  have hcontains : qs.contains key.exchange key.pair = (qs.table.find? key).isSome := by
    rw [contains, Table.contains, hkey]
  have hadd : (qs.add (ofEntry (key, spread))).table.find? key' =
      if key' = key then some spread else qs.table.find? key' := by
    simp [find?_add, ofEntry, hkey, hproper]
  rw [takeOver]
  cases spread with
  | some v => exact hadd
  | none =>
      cases hfind : qs.table.find? key with
      | none => simpa [ofEntry, hcontains, hfind] using hadd
      | some old =>
          rw [if_pos (by simp [ofEntry, hcontains, hfind])]
          split
          · next hsame => rw [hsame, hfind]; rfl
          · rfl

theorem find?_foldl_takeOver {entries : Table QuoteKey (Option Spread)} (h : Filed entries)
    (qs : Quotes) (key : QuoteKey) :
    ((entries.map ofEntry).foldl takeOver qs).table.find? key =
      (entries.find? key).elim (qs.table.find? key) fun spread =>
        some (spread.or (qs.table.find? key).join) := by
  induction entries generalizing qs with
  | nil => rfl
  | cons entry entries ih =>
      obtain ⟨key₀, spread⟩ := entry
      obtain ⟨hhead, hsorted⟩ := List.pairwise_cons.mp h.sorted
      obtain ⟨hwritten, hwrittens⟩ := List.forall_mem_cons.mp h.written
      obtain ⟨hproper, hpropers⟩ := List.forall_mem_cons.mp h.proper
      rw [List.map_cons, List.foldl_cons, ih ⟨hsorted, hwrittens, hpropers⟩,
        find?_takeOver hwritten hproper, Table.find?]
      by_cases hsame : key = key₀
      · have hself : compare key₀ key₀ = .eq := Std.ReflCmp.compare_self
        rw [hsame, Table.find?_eq_none_of_lt hhead, if_pos rfl, hself]
        rfl
      · have hother : compare key key₀ ≠ .eq := fun heq =>
          hsame (Std.LawfulEqCmp.eq_of_compare heq)
        rw [if_neg hsame, if_neg (by simpa using hother)]

/-- What a source knows takes the place of what was known. -/
def refresh (source : String → Pair → Option Spread) (entry : QuoteKey × Option Spread) :
    QuoteKey × Option Spread :=
  (entry.1, (source entry.1.exchange entry.1.pair).or entry.2)

theorem find?_map_refresh (source : String → Pair → Option Spread)
    (entries : Table QuoteKey (Option Spread)) (key : QuoteKey) :
    Table.find? key (entries.map (refresh source)) =
      (entries.find? key).map (source key.exchange key.pair).or := by
  induction entries with
  | nil => rfl
  | cons entry entries ih =>
      rw [List.map_cons, refresh, Table.find?, Table.find?, ih]
      split
      · next hsame =>
          obtain rfl : key = entry.1 := Std.LawfulEqCmp.eq_of_compare (eq_of_beq hsame)
          rfl
      · rfl

/-- One quote is asked for and replaced where it stands. -/
def renew (source : String → Pair → Option Spread) (qs : Quotes) (q : Quote) : Quotes :=
  match source q.exchange q.pair with
  | some spread => qs.set q.exchange q.pair spread
  | none => qs

theorem fetchFrom_eq_foldl (qs : Quotes) (source : String → Pair → Option Spread) :
    qs.fetchFrom source = (qs.table.map ofEntry).foldl (renew source) qs := rfl

theorem renew_append {front back : Table QuoteKey (Option Spread)}
    {entry : QuoteKey × Option Spread} (h : Filed (front ++ entry :: back))
    (source : String → Pair → Option Spread) :
    renew source ⟨front ++ entry :: back⟩ (ofEntry entry) =
      ⟨front ++ refresh source entry :: back⟩ := by
  obtain ⟨key, spread⟩ := entry
  have hmem : key ∈ Table.keys (front ++ (key, spread) :: back) :=
    List.mem_map_of_mem (List.mem_append_right _ List.mem_cons_self)
  rw [renew, refresh]
  dsimp only [ofEntry]
  cases source key.exchange key.pair with
  | none => rfl
  | some v =>
      dsimp only
      rw [set, add, if_neg (Bool.eq_false_iff.mp (h.proper key hmem)), h.written key hmem]
      exact congrArg Quotes.mk (h.sorted.insert_append _)

theorem foldl_renew {front back : Table QuoteKey (Option Spread)} (h : Filed (front ++ back))
    (source : String → Pair → Option Spread) :
    (back.map ofEntry).foldl (renew source) ⟨front ++ back⟩ =
      ⟨front ++ back.map (refresh source)⟩ := by
  induction back generalizing front with
  | nil => rfl
  | cons entry back ih =>
      rw [List.map_cons, List.foldl_cons, renew_append h, List.append_cons, ih, List.map_cons,
        List.append_assoc]
      · rfl
      · refine h.of_keys_eq ?_
        simp [Table.keys, refresh]

theorem table_fetchFrom {qs : Quotes} (h : Filed qs.table)
    (source : String → Pair → Option Spread) :
    (qs.fetchFrom source).table = qs.table.map (refresh source) := by
  have hwhole : Filed ([] ++ qs.table) := h
  rw [fetchFrom_eq_foldl]
  exact congrArg table (foldl_renew hwhole source)

section Lookups

variable {qs other : Quotes} {exchange : String} {pair : Pair}

theorem find?_extend (h : Filed other.table) (qs : Quotes) (key : QuoteKey) :
    (qs.extend other).table.find? key =
      (other.table.find? key).elim (qs.table.find? key) fun spread =>
        some (spread.or (qs.table.find? key).join) := by
  rw [extend_eq_foldl]
  exact find?_foldl_takeOver h qs key

theorem contains_extend (h : Filed other.table) :
    (qs.extend other).contains exchange pair ↔
      qs.contains exchange pair ∨ other.contains exchange pair := by
  rw [contains, Table.contains, find?_extend h, contains, contains, Table.contains,
    Table.contains]
  cases other.table.find? (.of exchange pair) <;> simp

theorem get?_extend (h : Filed other.table) :
    (qs.extend other).get? exchange pair =
      (other.get? exchange pair).or (qs.get? exchange pair) := by
  rw [get?, find?_extend h, get?, get?]
  cases other.table.find? (.of exchange pair) <;> rfl

theorem toList_fetchFrom (h : Filed qs.table) (source : String → Pair → Option Spread) :
    (qs.fetchFrom source).toList =
      qs.toList.map fun q => { q with spread := (source q.exchange q.pair).or q.spread } := by
  rw [toList, toList, table_fetchFrom h, List.map_map, List.map_map]
  rfl

theorem contains_fetchFrom (h : Filed qs.table) (source : String → Pair → Option Spread) :
    (qs.fetchFrom source).contains exchange pair ↔ qs.contains exchange pair := by
  rw [contains, Table.contains, table_fetchFrom h, find?_map_refresh, Option.isSome_map]
  rfl

theorem get?_fetchFrom (h : Filed qs.table) (source : String → Pair → Option Spread)
    (hcontains : qs.contains exchange pair) :
    (qs.fetchFrom source).get? exchange pair =
      (source (Text.lower exchange) pair).or (qs.get? exchange pair) := by
  obtain ⟨spread, hspread⟩ := contains_iff.mp hcontains
  rw [get?, table_fetchFrom h, find?_map_refresh, get?, hspread]
  rfl

/-- A quote is found in whatever case its exchange is written. -/
theorem find?_of_mem_toList (h : Filed qs.table) {q : Quote} (hq : q ∈ qs.toList)
    (hexchange : Text.lower exchange = Text.lower q.exchange) :
    qs.table.find? (.of exchange q.pair) = some q.spread := by
  obtain ⟨entry, hentry, rfl⟩ := List.mem_map.mp hq
  have hkey : QuoteKey.of exchange entry.1.pair = entry.1 := by
    rw [QuoteKey.of, hexchange]
    exact h.written _ (List.mem_map_of_mem hentry)
  dsimp only
  rw [hkey]
  exact Table.find?_of_mem h.sorted hentry

theorem pairwise_toList (h : Filed qs.table) : qs.toList.Pairwise fun q q' =>
    ¬(Text.lower q.exchange = Text.lower q'.exchange ∧ q.pair = q'.pair) := by
  have hapart : ∀ {a b : QuoteKey × Option Spread}, a ∈ qs.table → b ∈ qs.table →
      compare a.1 b.1 = .lt →
      ¬(Text.lower a.1.exchange = Text.lower b.1.exchange ∧ a.1.pair = b.1.pair) := by
    rintro a b ha hb hlt ⟨hexchange, hpair⟩
    have hkeys : a.1 = b.1 := by
      rw [← h.written _ (List.mem_map_of_mem ha), ← h.written _ (List.mem_map_of_mem hb),
        QuoteKey.of, QuoteKey.of, hexchange, hpair]
    have hself : compare b.1 b.1 = .eq := Std.ReflCmp.compare_self
    rw [hkeys, hself] at hlt
    cases hlt
  exact List.pairwise_map.mpr (h.sorted.imp_of_mem hapart)

end Lookups

end Quotes

theorem Rule.assembled_after (book : RuleBook) (pair : Pair) (events : List Rule.Event)
    (h : ∀ other, .update (.extend other) ∈ events → other.Assembled) :
    ((book.ruleFor pair).after events).quotes.Assembled := by
  rw [quotes_after]
  refine List.foldlRecOn _ _ ?_ fun qs hqs u hu => ?_
  · obtain ⟨resolved, -, hrule⟩ := book.ruleFor_eq_ofResolved pair
    rw [hrule]
    exact Quotes.assembled_ofList _
  · obtain ⟨event, hevent, hupdate⟩ := List.mem_filterMap.mp hu
    cases event with
    | evaluation => cases hupdate
    | update u' =>
        obtain rfl := Option.some.inj hupdate
        cases u' with
        | set exchange pair spread => exact hqs.set exchange pair spread
        | add q => exact hqs.add q
        | extend other => exact hqs.extend (h other hevent)
        | fetch source => exact hqs.fetch source

/-- Quotes that come of updates, those of a rule among them, are one for each exchange, in
whatever case it is written, and pair, and never for a currency and itself. Those of another
collection are added or take the place of what is there, except for unknown ones, and a source
replaces the quotes it knows. Neither makes a known quote unknown. -/
theorem Quotes.updates_keep_quotes :
    (∀ (book : RuleBook) (pair : Pair) (events : List Rule.Event),
      (∀ other, .update (.extend other) ∈ events → other.Assembled) →
      ((book.ruleFor pair).after events).quotes.Assembled) ∧
    ∀ qs : Quotes, qs.Assembled →
      (qs.toList.Pairwise fun q q' =>
        ¬(Text.lower q.exchange = Text.lower q'.exchange ∧ q.pair = q'.pair)) ∧
      (∀ q ∈ qs.toList, q.pair.isIdentity = false ∧
        ∀ exchange, Text.lower exchange = Text.lower q.exchange →
          qs.contains exchange q.pair ∧ qs.get? exchange q.pair = q.spread) ∧
      (∀ exchange pair, qs.contains exchange pair →
        ∃ spread, ⟨Text.lower exchange, pair, spread⟩ ∈ qs.toList) ∧
      (∀ other : Quotes, other.Assembled → ∀ exchange pair,
        ((qs.extend other).contains exchange pair ↔
          qs.contains exchange pair ∨ other.contains exchange pair) ∧
        (qs.extend other).get? exchange pair =
          (other.get? exchange pair).or (qs.get? exchange pair) ∧
        ((qs.get? exchange pair).isSome → ((qs.extend other).get? exchange pair).isSome)) ∧
      ∀ source : String → Pair → Option Spread,
        (qs.fetchFrom source).toList =
          qs.toList.map (fun q => { q with spread := (source q.exchange q.pair).or q.spread }) ∧
        ∀ exchange pair,
          ((qs.fetchFrom source).contains exchange pair ↔ qs.contains exchange pair) ∧
          (qs.contains exchange pair → (qs.fetchFrom source).get? exchange pair =
            (source (Text.lower exchange) pair).or (qs.get? exchange pair)) ∧
          ((qs.get? exchange pair).isSome → ((qs.fetchFrom source).get? exchange pair).isSome) := by
  refine ⟨Rule.assembled_after, fun qs hqs => ?_⟩
  have hfiled : Filed qs.table := hqs.filed
  refine ⟨pairwise_toList hfiled, fun q hq => ⟨?proper, fun exchange hexchange => ?found⟩,
    fun exchange pair => mem_toList_of_contains, fun other hother exchange pair => ?extend,
    fun source => ⟨toList_fetchFrom hfiled source, fun exchange pair => ?fetch⟩⟩
  case proper =>
    obtain ⟨entry, hentry, rfl⟩ := List.mem_map.mp hq
    exact hfiled.proper _ (List.mem_map_of_mem hentry)
  case found =>
    have hfind := find?_of_mem_toList hfiled hq hexchange
    refine ⟨contains_iff.mpr ⟨_, hfind⟩, ?_⟩
    rw [get?, hfind, Option.join_some]
  case extend =>
    have hget : (qs.extend other).get? exchange pair =
        (other.get? exchange pair).or (qs.get? exchange pair) := get?_extend hother.filed
    refine ⟨contains_extend hother.filed, hget, fun hknown => ?_⟩
    rw [hget, Option.isSome_or, hknown, Bool.or_true]
  case fetch =>
    refine ⟨contains_fetchFrom hfiled source, get?_fetchFrom hfiled source, fun hknown => ?_⟩
    rw [get?_fetchFrom hfiled source (contains_of_get? hknown), Option.isSome_or, hknown,
      Bool.or_true]

/-- An unknown quote in another case leaves the known one, and a quote that a source does not
know stays unknown. -/
theorem Quotes.known_in_any_case :
    let held := empty.set "Kraken" ⟨"BTC", "USD"⟩ (.point .one)
    let asked := ofList [⟨"KRAKEN", ⟨"BTC", "USD"⟩, none⟩, ⟨"bitstamp", ⟨"BTC", "EUR"⟩, none⟩]
    held.Assembled ∧ asked.Assembled ∧
      (held.extend asked).get? "kraKen" ⟨"BTC", "USD"⟩ = some (.point .one) ∧
      (held.extend asked).contains "Bitstamp" ⟨"BTC", "EUR"⟩ ∧
      ((held.extend asked).fetchFrom fun exchange _ =>
        if exchange = "kraken" then some (.point .zero) else none).toList =
        [⟨"bitstamp", ⟨"BTC", "EUR"⟩, none⟩,
          ⟨"kraken", ⟨"BTC", "USD"⟩, some (.point .zero)⟩] := by
  intro held asked
  have hheld : held.Assembled := .set _ _ _ .empty
  have hasked : asked.Assembled := assembled_ofList _
  obtain ⟨-, -, -, hextend, -⟩ := updates_keep_quotes.2 held hheld
  obtain ⟨-, -, -, -, hfetch⟩ := updates_keep_quotes.2 _ (hheld.extend hasked)
  have hknown : held.get? "kraKen" ⟨"BTC", "USD"⟩ = some (.point .one) := by decide +kernel
  have hunknown : asked.get? "kraKen" ⟨"BTC", "USD"⟩ = none := by decide +kernel
  refine ⟨hheld, hasked, ?_, ?_, ?_⟩
  · rw [(hextend asked hasked _ _).2.1, hunknown, hknown, Option.none_or]
  · exact (hextend asked hasked _ _).1.mpr (.inr (by decide +kernel))
  · rw [(hfetch _).1]
    decide +kernel

end Paydesk.Rates

import LogRules.Assembly
import LogRules.Proofs.Table
import LogRules.Proofs.Text.Split
import Mathlib.Data.List.Induction

/-! # The pairs of a value map

A pair is written as a key, an equals sign and the text of a value (`WritesPair`, `pair?_eq_some_iff`).
The segments of a value map are judged from first to last (`Accounted`): one that writes no pair is
malformed, and a pair either brings a new key or repeats one, with the value that the key has so far or
with another. Adding the segments does this, and the table that comes of it has the keys in the order of
their first pairs and for each key the value of its last pair (`accounted_addPairs`). -/

namespace LogRules.Assembly

/-! ### What segments write -/

/-- The text writes a value: a constant in single quotes or a field behind a star. Other text is the name
of a field where `bareField` holds, and a constant elsewhere. -/
inductive WritesValue (bareField : Bool) : List Char → Value → Prop
  | quoted (text : List Char) :
      WritesValue bareField ('\'' :: text ++ ['\'']) (.constant (String.ofList text))
  | starred {name : List Char} (hname : isFieldName (String.ofList name) = true) :
      WritesValue bareField ('*' :: name) (.field (String.ofList name))
  | bareName {name : List Char} (hbare : bareField = true)
      (hname : isFieldName (String.ofList name) = true) :
      WritesValue bareField name (.field (String.ofList name))
  | bareText {text : List Char} (hbare : bareField = false) (hquote : text.head? ≠ some '\'')
      (hstar : text.head? ≠ some '*') : WritesValue bareField text (.constant (String.ofList text))

/-- The segment writes a pair: the key, an equals sign, which the key does not hold, and the text of the
value. -/
def WritesPair (segment : List Char) (key : String) (value : Value) : Prop :=
  ∃ text, '=' ∉ key.toList ∧ segment = key.toList ++ '=' :: text ∧ WritesValue true text value

theorem head?_of_isFieldName {name : List Char} (h : isFieldName (String.ofList name) = true) :
    ∃ c rest, name = c :: rest ∧ isFieldChar c = true := by
  cases name with
  | nil => simp [isFieldName] at h
  | cons c rest =>
      simp only [isFieldName, String.toList_ofList, List.all_cons, Bool.and_eq_true] at h
      exact ⟨c, rest, rfl, h.2.1⟩

theorem mapValue?_of_writesValue {bareField : Bool} {cs : List Char} {value : Value}
    (h : WritesValue bareField cs value) : mapValue? bareField cs = some value := by
  cases h with
  | quoted text => simp [mapValue?]
  | starred hname => simp [mapValue?, hname]
  | bareName hbare hname =>
      obtain ⟨c, rest, rfl, hc⟩ := head?_of_isFieldName hname
      have hquote : c ≠ '\'' := by rintro rfl; exact absurd hc (by decide)
      have hstar : c ≠ '*' := by rintro rfl; exact absurd hc (by decide)
      simp only [mapValue?, hbare]
      split
      · next heq => exact absurd (List.cons.inj heq).1 hquote
      · next heq => exact absurd (List.cons.inj heq).1 hstar
      · simp only [hname, Bool.not_true, Bool.false_eq_true, if_true, if_false]
  | bareText hbare hquote hstar =>
      cases cs with
      | nil => simp [mapValue?, hbare]
      | cons c rest =>
          have hquote : c ≠ '\'' := by simpa using hquote
          have hstar : c ≠ '*' := by simpa using hstar
          simp [mapValue?, hquote, hstar, hbare]

theorem mapValue?_eq_some_iff {bareField : Bool} {cs : List Char} {value : Value} :
    mapValue? bareField cs = some value ↔ WritesValue bareField cs value := by
  refine ⟨fun h => ?_, mapValue?_of_writesValue⟩
  unfold mapValue? at h
  split at h
  · next rest =>
      split at h
      · next text hreverse =>
          cases h
          rw [← List.reverse_reverse rest, hreverse, List.reverse_cons]
          exact .quoted text.reverse
      · cases h
  · next name =>
      split at h
      · next hname =>
          cases h
          exact .starred hname
      · cases h
  · next hquote hstar =>
      have hhead : ∀ c, (∀ rest, cs ≠ c :: rest) → cs.head? ≠ some c := by
        rintro c hne hhead
        obtain ⟨rest, rfl⟩ := List.head?_eq_some_iff.mp hhead
        exact hne rest rfl
      split at h
      · next hbare =>
          cases h
          exact .bareText (by simpa using hbare) (hhead _ hquote) (hhead _ hstar)
      · next hbare =>
          dsimp only at h
          split at h
          · next hname =>
              cases h
              exact .bareName (by simpa using hbare) hname
          · cases h

/-- A segment is read as the pair that it writes. -/
theorem pair?_eq_some_iff {segment : List Char} {key : String} {value : Value} :
    pair? segment = some (key, value) ↔ WritesPair segment key value := by
  simp only [pair?, Option.bind_eq_bind, Option.bind_eq_some_iff, Prod.exists,
    Text.splitFirst?_eq_some_iff, mapValue?_eq_some_iff, WritesPair]
  constructor
  · rintro ⟨name, text, ⟨hname, rfl⟩, v, hv, heq⟩
    cases heq
    exact ⟨text, by simpa using hname, by simp, hv⟩
  · rintro ⟨text, hkey, rfl, hv⟩
    exact ⟨key.toList, text, ⟨hkey, rfl⟩, value, hv, by simp⟩

theorem pair?_eq_none_iff {segment : List Char} :
    pair? segment = none ↔ ∀ key value, ¬ WritesPair segment key value := by
  simp [← pair?_eq_some_iff, Option.eq_none_iff_forall_ne_some]

/-! ### The account of the segments -/

/-- The value that the last of some pairs gives to a key. -/
def lastValue? (key : String) (pairs : List (String × Value)) : Option Value :=
  ((pairs.filter (·.1 = key)).getLast?).map Prod.snd

theorem lastValue?_append (key key' : String) (value : Value) (pairs : List (String × Value)) :
    lastValue? key' (pairs ++ [(key, value)]) =
      if key = key' then some value else lastValue? key' pairs := by
  by_cases h : key = key' <;> simp [lastValue?, h]

theorem lastValue?_eq_none_iff {key : String} {pairs : List (String × Value)} :
    lastValue? key pairs = none ↔ key ∉ pairs.map Prod.fst := by
  rw [lastValue?, Option.map_eq_none_iff, List.getLast?_eq_none_iff, List.filter_eq_nil_iff]
  simp only [decide_eq_true_eq, List.mem_map, not_exists, not_and]

/-- The account of some segments: the pairs that they write and what is reported about them. Each segment
is judged by the pairs in front of it. -/
inductive Accounted (loc : SourceLoc) :
    List (List Char) → List (String × Value) → List Diagnostic → Prop
  | nil : Accounted loc [] [] []
  | malformed {segments pairs reports} {segment : List Char} (h : Accounted loc segments pairs reports)
      (hnone : ∀ key value, ¬ WritesPair segment key value) :
      Accounted loc (segments ++ [segment]) pairs
        (reports ++ [.about .malformedValueMapPair loc ("`" ++ String.ofList segment ++ "`")])
  | new {segments pairs reports segment key value} (h : Accounted loc segments pairs reports)
      (hpair : WritesPair segment key value) (hnew : lastValue? key pairs = none) :
      Accounted loc (segments ++ [segment]) (pairs ++ [(key, value)]) reports
  | duplicate {segments pairs reports segment key value} (h : Accounted loc segments pairs reports)
      (hpair : WritesPair segment key value) (hold : lastValue? key pairs = some value) :
      Accounted loc (segments ++ [segment]) (pairs ++ [(key, value)])
        (reports ++ [.about .duplicateValueMapKey loc key])
  | conflicting {segments pairs reports segment key value old} (h : Accounted loc segments pairs reports)
      (hpair : WritesPair segment key value) (hold : lastValue? key pairs = some old)
      (hne : old ≠ value) :
      Accounted loc (segments ++ [segment]) (pairs ++ [(key, value)])
        (reports ++ [.about .conflictingValueMapKey loc key])

/-- The table has the keys of the pairs in the order of their first pairs, and for each key the value of its
last pair. -/
structure HoldsLast (entries : Table Value) (pairs : List (String × Value)) : Prop where
  keys : entries.keys = (pairs.map Prod.fst).eraseDups
  values : ∀ key, entries.get? key = lastValue? key pairs

theorem eraseDups_map_append (key : String) (value : Value) (pairs : List (String × Value)) :
    ((pairs ++ [(key, value)]).map Prod.fst).eraseDups =
      if lastValue? key pairs = none then (pairs.map Prod.fst).eraseDups ++ [key]
      else (pairs.map Prod.fst).eraseDups := by
  simp only [List.map_append, List.map_singleton, List.eraseDups_append, lastValue?_eq_none_iff]
  by_cases h : key ∈ pairs.map Prod.fst
  · simp [List.removeAll, h]
  · simp [List.removeAll, h, List.eraseDups_cons]

theorem HoldsLast.insert {entries : Table Value} {pairs : List (String × Value)}
    (h : HoldsLast entries pairs) (key : String) (value : Value) :
    HoldsLast (entries.insert key value) (pairs ++ [(key, value)]) := by
  refine ⟨?_, fun key' => ?_⟩
  · simp only [Table.keys_insert, eraseDups_map_append, h.keys, lastValue?_eq_none_iff,
      List.mem_eraseDups]
    by_cases hkey : key ∈ pairs.map Prod.fst <;> simp [hkey]
  · rw [Table.get?_insert, lastValue?_append, h.values]

/-- A pair that says what the table says changes nothing. -/
theorem HoldsLast.append_self {entries : Table Value} {pairs : List (String × Value)} {key : String}
    {value : Value} (h : HoldsLast entries pairs) (hold : lastValue? key pairs = some value) :
    HoldsLast entries (pairs ++ [(key, value)]) := by
  rw [← h.values] at hold
  simpa only [Table.insert_eq_self hold] using h.insert key value

/-- One more segment: it is accounted for, and the table still holds the last values. -/
theorem accounted_addPair {loc : SourceLoc} {segments : List (List Char)}
    {pairs : List (String × Value)} {reports : List Diagnostic} {entries : Table Value}
    (h : Accounted loc segments pairs reports) (hholds : HoldsLast entries pairs) (segment : List Char) :
    ∃ pairs', Accounted loc (segments ++ [segment]) pairs' (reports ++ (addPair loc entries segment).2) ∧
      HoldsLast (addPair loc entries segment).1 pairs' := by
  unfold addPair
  split
  · next hpair => exact ⟨pairs, h.malformed (pair?_eq_none_iff.mp hpair), hholds⟩
  · next key value hpair =>
      have hwrites : WritesPair segment key value := pair?_eq_some_iff.mp hpair
      refine ⟨pairs ++ [(key, value)], ?_⟩
      rw [hholds.values]
      split
      · next hnew => exact ⟨by simpa using h.new hwrites hnew, hholds.insert key value⟩
      · next old hold =>
          split
          · next heq =>
              subst heq
              exact ⟨h.duplicate hwrites hold, hholds.append_self hold⟩
          · next hne => exact ⟨h.conflicting hwrites hold hne, hholds.insert key value⟩

theorem addPairs_append (loc : SourceLoc) (entries : Table Value) (front behind : List (List Char)) :
    addPairs loc entries (front ++ behind) =
      ((addPairs loc (addPairs loc entries front).1 behind).1,
        (addPairs loc entries front).2 ++ (addPairs loc (addPairs loc entries front).1 behind).2) := by
  induction front generalizing entries with
  | nil => simp [addPairs]
  | cons segment rest ih => simp [addPairs, ih]

/-- All segments are accounted for, and the table that they give holds the last values. -/
theorem accounted_addPairs (loc : SourceLoc) (segments : List (List Char)) :
    ∃ pairs, Accounted loc segments pairs (addPairs loc .empty segments).2 ∧
      HoldsLast (addPairs loc .empty segments).1 pairs := by
  induction segments using List.reverseRecOn with
  | nil => exact ⟨[], .nil, rfl, fun key => rfl⟩
  | append_singleton segments segment ih =>
      obtain ⟨pairs, haccounted, hholds⟩ := ih
      obtain ⟨pairs', haccounted', hholds'⟩ := accounted_addPair haccounted hholds segment
      refine ⟨pairs', ?_, ?_⟩
      · simpa [addPairs_append, addPairs] using haccounted'
      · simpa [addPairs_append, addPairs] using hholds'

/-- Every segment adds a key or is reported, and none does both. -/
theorem Accounted.length_eq {loc : SourceLoc} {segments : List (List Char)}
    {pairs : List (String × Value)} {reports : List Diagnostic}
    (h : Accounted loc segments pairs reports) :
    segments.length = (pairs.map Prod.fst).eraseDups.length + reports.length := by
  induction h with
  | nil => rfl
  | malformed h hnone ih =>
      simp only [List.length_append, List.length_singleton, ih]
      omega
  | new h hpair hnew ih =>
      rw [eraseDups_map_append, if_pos hnew]
      simp only [List.length_append, List.length_singleton, ih]
      omega
  | duplicate h hpair hold ih =>
      rw [eraseDups_map_append, hold, if_neg nofun]
      simp only [List.length_append, List.length_singleton, ih]
      omega
  | conflicting h hpair hold hne ih =>
      rw [eraseDups_map_append, hold, if_neg nofun]
      simp only [List.length_append, List.length_singleton, ih]
      omega

/-- What is reported about segments are warnings. -/
theorem Accounted.isWarning {loc : SourceLoc} {segments : List (List Char)}
    {pairs : List (String × Value)} {reports : List Diagnostic}
    (h : Accounted loc segments pairs reports) : ∀ report ∈ reports, report.isWarning = true := by
  induction h with
  | nil => simp
  | new h hpair hnew ih => exact ih
  | malformed h _ ih | duplicate h _ _ ih | conflicting h _ _ _ ih =>
      simp only [List.forall_mem_append, List.forall_mem_singleton]
      exact ⟨ih, rfl⟩

end LogRules.Assembly

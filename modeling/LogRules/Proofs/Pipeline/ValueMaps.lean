import LogRules.Proofs.Assembly.Faults
import LogRules.Proofs.Assembly.Pairs
import LogRules.Proofs.Pipeline.Rewriting

/-! # Value maps from their records to look-ups

The first record of a name gives the value map of the name (`get?_valueMaps`). Assembly reports on the records
in turn, and in the turn of that record on its value map (`exists_reportsInTurn`). All passes leave the value maps alone
(`valueMaps_of_build`). A look-up writes the value that its map has for the key, or else the default, or
else nothing (`run_lookup`). Together: every pair of a record is accounted for, and look-ups find the last
value of a key (`valueMaps_keep_last`). -/

namespace LogRules

namespace Assembly

/-! ### Where reports point to -/

theorem loc_of_fault? {loc : SourceLoc} {a : Attribute} {report : Diagnostic}
    (h : a.fault? loc = some report) : report.loc = some loc := by
  have hunreadable : ∀ {α : Type} {kind : DiagnosticKind} {text : String} {reading : Except LexError α},
      Attribute.unreadable? kind loc text reading = some report → report.loc = some loc := by
    intro α kind text reading h
    cases reading with
    | ok a => cases h
    | error e =>
        cases h
        rfl
  cases a with
  | content text =>
      rw [Attribute.fault?] at h
      split at h
      · cases h
        rfl
      · exact hunreadable h
  | messageId text =>
      rw [Attribute.fault?] at h
      split at h
      · cases h
      · exact hunreadable h
  | functions text => exact hunreadable h

theorem Accounted.loc_eq {loc : SourceLoc} {segments : List (List Char)}
    {pairs : List (String × Value)} {reports : List Diagnostic}
    (h : Accounted loc segments pairs reports) : ∀ report ∈ reports, report.loc = some loc := by
  induction h with
  | nil => simp
  | new h hpair hnew ih => exact ih
  | malformed h _ ih | duplicate h _ _ ih | conflicting h _ _ _ ih =>
      simp only [List.forall_mem_append, List.forall_mem_singleton]
      exact ⟨ih, rfl⟩

theorem loc_of_mem_mapDefault {loc : SourceLoc} {text : String} :
    ∀ report ∈ (mapDefault loc text).2, report.loc = some loc := by
  unfold mapDefault
  split
  · simp
  · split
    · simp
    · simp only [List.forall_mem_singleton]
      rfl

theorem loc_of_mem_valueMap {loc : SourceLoc} {record : ValueMapRecord} :
    ∀ report ∈ (valueMap loc record).2, report.loc = some loc := by
  obtain ⟨pairs, haccounted, -⟩ := accounted_addPairs loc (pairSegments record.keyvaluepairs)
  exact List.forall_mem_append.mpr ⟨loc_of_mem_mapDefault, haccounted.loc_eq⟩

end Assembly

/-! ### Reports in turn -/

/-- The places of all records, in the order in which assembly reads them. -/
def Device.places (d : Device) : List SourceLoc :=
  d.valueMaps.zipIdx.map (fun e => e.1.place e.2) ++
    (d.headers.zipIdx.map (fun e => e.1.place e.2) ++ d.messages.zipIdx.map fun e => e.1.place e.2)

/-- All reports are about the record at this place. -/
def SourceLoc.Owns (loc : SourceLoc) (reports : List Diagnostic) : Prop :=
  ∀ report ∈ reports, report.loc = some loc

/-- The reports of assembly, taken apart by the records they are about: one list for each record, in order. -/
structure Device.ReportsInTurn (d : Device) (turns : List (List Diagnostic)) : Prop where
  owned : List.Forall₂ SourceLoc.Owns d.places turns
  flatten_eq : turns.flatten = (assemble d).2

namespace SourceLoc.Owns

variable {loc : SourceLoc} {places : List SourceLoc} {turns : List (List Diagnostic)}

theorem filter_eq_self {reports : List Diagnostic} (h : loc.Owns reports) :
    reports.filter (·.loc = some loc) = reports :=
  List.filter_eq_self.mpr fun report hmem => by simp [h report hmem]

theorem filter_eq_nil {other : SourceLoc} {reports : List Diagnostic} (h : other.Owns reports)
    (hne : other ≠ loc) : reports.filter (·.loc = some loc) = [] := by
  rw [List.filter_eq_nil_iff]
  intro report hmem
  simp [h report hmem, hne]

theorem filter_flatten_eq_nil (h : List.Forall₂ Owns places turns) (hloc : loc ∉ places) :
    turns.flatten.filter (·.loc = some loc) = [] := by
  induction h with
  | nil => rfl
  | cons howns _ ih =>
      obtain ⟨hne, hrest⟩ := not_or.mp (mt List.mem_cons.mpr hloc)
      rw [List.flatten_cons, List.filter_append, howns.filter_eq_nil (Ne.symm hne), ih hrest, List.nil_append]

theorem filter_flatten (h : List.Forall₂ Owns places turns) (hplaces : places.Nodup) {index : Nat}
    {reports : List Diagnostic} (hloc : places[index]? = some loc) (hturn : turns[index]? = some reports) :
    turns.flatten.filter (·.loc = some loc) = reports := by
  induction h generalizing index with
  | nil => cases hloc
  | cons howns hrest ih =>
      obtain ⟨hnew, hplaces⟩ := List.nodup_cons.mp hplaces
      rw [List.flatten_cons, List.filter_append]
      cases index with
      | zero =>
          cases hloc
          cases hturn
          rw [howns.filter_eq_self, filter_flatten_eq_nil hrest hnew, List.append_nil]
      | succ index =>
          rw [List.getElem?_cons_succ] at hloc hturn
          have hmem := List.mem_of_getElem? hloc
          rw [howns.filter_eq_nil (fun heq => hnew (heq ▸ hmem)), List.nil_append]
          exact ih hplaces hloc hturn

end SourceLoc.Owns

/-- Where no two records share a place, the turn of a record is what is reported at its place. -/
theorem Device.ReportsInTurn.filter_eq {d : Device} {turns : List (List Diagnostic)} (h : d.ReportsInTurn turns)
    (hplaces : d.places.Nodup) {index : Nat} {loc : SourceLoc} {reports : List Diagnostic}
    (hloc : d.places[index]? = some loc) (hturn : turns[index]? = some reports) :
    (assemble d).2.filter (·.loc = some loc) = reports := by
  rw [← h.flatten_eq]
  exact SourceLoc.Owns.filter_flatten h.owned hplaces hloc hturn

namespace Assembly

/-! ### The records one after the other -/

/-- Adds the value map of the record at a place. A name that is taken is an error. -/
def addValueMap (index : Nat) (maps : Table ValueMap) (record : ValueMapRecord) :
    Reported (Table ValueMap) :=
  let loc := record.place index
  if maps.contains record.name then (maps, [.about .duplicateValueMap loc record.name])
  else (maps.insert record.name (valueMap loc record).1, (valueMap loc record).2)

theorem addValueMaps_cons (index : Nat) (maps : Table ValueMap) (record : ValueMapRecord)
    (rest : List ValueMapRecord) :
    addValueMaps index maps (record :: rest) =
      ((addValueMaps (index + 1) (addValueMap index maps record).1 rest).1,
        (addValueMap index maps record).2 ++
          (addValueMaps (index + 1) (addValueMap index maps record).1 rest).2) := by
  rw [addValueMaps, addValueMap]

theorem addValueMaps_append (index : Nat) (maps : Table ValueMap) (front behind : List ValueMapRecord) :
    addValueMaps index maps (front ++ behind) =
      ((addValueMaps (index + front.length) (addValueMaps index maps front).1 behind).1,
        (addValueMaps index maps front).2 ++
          (addValueMaps (index + front.length) (addValueMaps index maps front).1 behind).2) := by
  induction front generalizing index maps with
  | nil => simp [addValueMaps]
  | cons record rest ih =>
      simp only [List.cons_append, addValueMaps_cons, ih, List.length_cons, List.append_assoc,
        Nat.add_assoc, Nat.add_comm 1]

theorem get?_addValueMap (index : Nat) (maps : Table ValueMap) (record : ValueMapRecord) (name : String) :
    (addValueMap index maps record).1.get? name =
      (maps.get? name).or
        (if record.name = name then some (valueMap (record.place index) record).1
          else none) := by
  unfold addValueMap
  by_cases hname : record.name = name
  · subst hname
    cases htaken : maps.get? record.name <;> simp [Table.contains, htaken]
  · split <;> simp [hname]

/-- A name that is taken keeps its value map. -/
theorem get?_addValueMaps_of_some {maps : Table ValueMap} {name : String} {map : ValueMap}
    (h : maps.get? name = some map) (index : Nat) (records : List ValueMapRecord) :
    (addValueMaps index maps records).1.get? name = some map := by
  induction records generalizing index maps with
  | nil => exact h
  | cons record rest ih =>
      rw [addValueMaps_cons]
      apply ih
      rw [get?_addValueMap, h, Option.some_or]

/-- A name that no record has stays free. -/
theorem get?_addValueMaps_of_none {maps : Table ValueMap} {name : String} (h : maps.get? name = none)
    (index : Nat) {records : List ValueMapRecord} (hrecords : name ∉ records.map ValueMapRecord.name) :
    (addValueMaps index maps records).1.get? name = none := by
  induction records generalizing index maps with
  | nil => exact h
  | cons record rest ih =>
      simp only [List.map_cons, List.mem_cons, not_or] at hrecords
      rw [addValueMaps_cons]
      refine ih ?_ (index + 1) hrecords.2
      rw [get?_addValueMap, h, if_neg (Ne.symm hrecords.1), Option.none_or]

/-- The records of value maps report in turn. -/
theorem exists_turns_addValueMaps (index : Nat) (maps : Table ValueMap) (records : List ValueMapRecord) :
    ∃ turns, List.Forall₂ SourceLoc.Owns ((records.zipIdx index).map fun e => e.1.place e.2) turns ∧
      turns.flatten = (addValueMaps index maps records).2 := by
  induction records generalizing index maps with
  | nil => exact ⟨[], .nil, rfl⟩
  | cons record rest ih =>
      obtain ⟨turns, howned, hflatten⟩ := ih (index + 1) (addValueMap index maps record).1
      have howns : (record.place index).Owns (addValueMap index maps record).2 := by
        unfold addValueMap
        split
        · exact List.forall_mem_singleton.mpr rfl
        · exact loc_of_mem_valueMap
      refine ⟨(addValueMap index maps record).2 :: turns, .cons howns howned, ?_⟩
      rw [addValueMaps_cons, List.flatten_cons, hflatten]

/-- Records whose attributes are read report in turn. -/
theorem owned_faults {ρ : Type} (place : ρ → Nat → SourceLoc) (attributes : ρ → List Attribute)
    (records : List (ρ × Nat)) :
    List.Forall₂ SourceLoc.Owns (records.map fun e => place e.1 e.2)
      (records.map fun e => (attributes e.1).filterMap (Attribute.fault? (place e.1 e.2))) := by
  rw [List.forall₂_map_left_iff, List.forall₂_map_right_iff, List.forall₂_same]
  intro e _ report h
  obtain ⟨a, -, hfault⟩ := List.mem_filterMap.mp h
  exact loc_of_fault? hfault

section Records

variable {d : Device} {before behind : List ValueMapRecord} {record : ValueMapRecord}

/-- What the records in front leave, what the record adds, and what the records behind it add. -/
theorem addValueMaps_record (behind : List ValueMapRecord) (hname : record.name ∉ before.map ValueMapRecord.name) :
    ∃ maps : Table ValueMap, addValueMaps 0 .empty (before ++ record :: behind) =
      ((addValueMaps (before.length + 1)
          (maps.insert record.name (valueMap (record.place before.length) record).1) behind).1,
        (addValueMaps 0 .empty before).2 ++ ((valueMap (record.place before.length) record).2 ++
          (addValueMaps (before.length + 1) (maps.insert record.name
            (valueMap (record.place before.length) record).1) behind).2)) := by
  refine ⟨(addValueMaps 0 .empty before).1, ?_⟩
  have hfree : (addValueMaps 0 .empty before).1.get? record.name = none :=
    get?_addValueMaps_of_none rfl 0 hname
  have hadd : addValueMap before.length (addValueMaps 0 .empty before).1 record =
      ((addValueMaps 0 .empty before).1.insert record.name
          (valueMap (record.place before.length) record).1,
        (valueMap (record.place before.length) record).2) := by
    simp [addValueMap, Table.contains, hfree]
  rw [addValueMaps_append, Nat.zero_add, addValueMaps_cons, hadd]

/-- The first record of a name gives the value map of the name. -/
theorem get?_valueMaps (hmaps : d.valueMaps = before ++ record :: behind)
    (hname : record.name ∉ before.map ValueMapRecord.name) :
    (assemble d).1.valueMaps.get? record.name =
      some (valueMap (record.place before.length) record).1 := by
  obtain ⟨maps, hadd⟩ := addValueMaps_record behind hname
  change (addValueMaps 0 .empty d.valueMaps).1.get? record.name = _
  rw [hmaps, hadd]
  apply get?_addValueMaps_of_some
  simp

/-- In its turn, the first record of a name has what its value map reports. -/
theorem exists_reportsInTurn (hmaps : d.valueMaps = before ++ record :: behind)
    (hname : record.name ∉ before.map ValueMapRecord.name) :
    ∃ turns, d.ReportsInTurn turns ∧
      turns[before.length]? = some (valueMap (record.place before.length) record).2 := by
  obtain ⟨maps, hadd⟩ := addValueMaps_record behind hname
  obtain ⟨front, hfront, hfrontEq⟩ := exists_turns_addValueMaps 0 .empty before
  obtain ⟨back, hback, hbackEq⟩ := exists_turns_addValueMaps (before.length + 1)
    (maps.insert record.name (valueMap (record.place before.length) record).1) behind
  have hheaders := owned_faults HeaderRecord.place HeaderRecord.attributes d.headers.zipIdx
  have hmessages := owned_faults MessageRecord.place MessageRecord.attributes d.messages.zipIdx
  refine ⟨(front ++ (valueMap (record.place before.length) record).2 :: back) ++
    (d.headers.zipIdx.map (fun e => e.1.faults e.2) ++ d.messages.zipIdx.map fun e => e.1.faults e.2),
    ⟨?_, ?_⟩, ?_⟩
  · refine List.rel_append ?_ (List.rel_append hheaders hmessages)
    rw [hmaps, List.zipIdx_append, List.map_append, Nat.zero_add, List.zipIdx_cons, List.map_cons]
    exact List.rel_append hfront (.cons loc_of_mem_valueMap hback)
  · rw [assemble_reports, hmaps, hadd]
    simp only [List.flatten_append, List.flatten_cons, hfrontEq, hbackEq, Device.headerFaults,
      Device.messageFaults, List.flatMap, List.append_assoc]
  · have hlength : front.length = before.length := by
      rw [← hfront.length_eq, List.length_map, List.length_zipIdx]
    rw [← hlength, List.append_assoc, List.getElem?_append_right le_rfl, Nat.sub_self]
    rfl

end Records

theorem mapDefault_eq_some_iff {loc : SourceLoc} {text : String} {value : Value} :
    (mapDefault loc text).1 = some value ↔
      text ∉ nullDefaults ∧ WritesValue false text.toList value := by
  rw [← mapValue?_eq_some_iff]
  unfold mapDefault
  split
  · next h => simp [h]
  · next h => cases hvalue : mapValue? false text.toList <;> simp [h]

end Assembly

/-! ### Look-ups -/

/-- The outcome of writing a value to a field: a constant is written as it is, and of a field its content.
A field that is not set is an error, and nothing is written. -/
inductive Program.Writes (target : String) (s : State) : Value → Outcome → Prop
  | constant (text : String) :
      Writes target s (.constant text) (.succeed { s with fields := s.fields.insert target text })
  | content {name text : String} (h : s.fields.get? name = some text) :
      Writes target s (.field name) (.succeed { s with fields := s.fields.insert target text })
  | unset {name : String} (h : s.fields.get? name = none) :
      Writes target s (.field name) (.fail (.fieldNotFound name) s)

namespace Program

/-- A look-up writes the value of the key, or else the default of the map, or else nothing. -/
theorem run_lookup {settings : Settings} {target : String} {map : ValueMap} {key : Value} {s : State}
    {k : String} (hkey : s.fields.readValue key = .ok k)
    (hvalues : ∀ v, (map.entries.get? k).or map.default? = some v → v.isPayload = false) :
    match (map.entries.get? k).or map.default? with
    | some v => Writes target s v ((operation ⟨target, .lookup map key⟩).run settings s)
    | none => (operation ⟨target, .lookup map key⟩).run settings s = .succeed s := by
  have happly : ∀ v, (map.entries.get? k).or map.default? = some v →
      (operation ⟨target, .lookup map key⟩).run settings s =
        match s.fields.readValue v with
        | .ok text => .succeed { s with fields := s.fields.insert target text }
        | .error e => .fail e s := by
    intro v hv
    simp only [run, Operation.apply, Operation.compute, hkey]
    simp only [bind, Except.bind, hv]
    cases s.fields.readValue v <;> rfl
  split
  · next v hv =>
      rw [happly v hv]
      cases v with
      | constant text => exact .constant text
      | field name =>
          simp only [Fields.readValue, Fields.read]
          cases hname : s.fields.get? name with
          | none => exact .unset hname
          | some text => exact .content hname
      | payload alias? => exact absurd (hvalues _ hv) (by simp [Value.isPayload])
  · next hv =>
      simp only [run, Operation.apply, Operation.compute, hkey]
      simp only [bind, Except.bind, hv]
      rfl

end Program

/-- The tree of a parser has the value maps that assembly read. -/
theorem Parser.valueMaps_of_build {config : Config} {d : Device} {parser : Parser}
    (hbuild : build config d = .ok parser) : parser.tree.valueMaps = (assemble d).1.valueMaps := by
  obtain ⟨t, more, hbefore, -, -, htree, -⟩ := exists_run_of_build hbuild
  rw [htree, (Sharing.extractShared_frame config _).1]
  exact (Pipeline.rewrites_beforeSharing config config _ t more hbefore).1

namespace Assembly

theorem WritesValue.isPayload_eq_false {bareField : Bool} {text : List Char} {value : Value}
    (h : WritesValue bareField text value) : value.isPayload = false := by
  cases h <;> rfl

theorem Accounted.isPayload_eq_false {loc : SourceLoc} {segments : List (List Char)}
    {pairs : List (String × Value)} {reports : List Diagnostic}
    (h : Accounted loc segments pairs reports) : ∀ pair ∈ pairs, pair.2.isPayload = false := by
  have hwrites : ∀ {segment key value}, WritesPair segment key value → value.isPayload = false :=
    fun ⟨_, _, _, hvalue⟩ => hvalue.isPayload_eq_false
  induction h with
  | nil => simp
  | malformed h hnone ih => exact ih
  | new h hpair _ ih | duplicate h hpair _ ih | conflicting h hpair _ _ ih =>
      simp only [List.forall_mem_append, List.forall_mem_singleton]
      exact ⟨ih, hwrites hpair⟩

theorem mem_of_lastValue? {key : String} {value : Value} {pairs : List (String × Value)}
    (h : lastValue? key pairs = some value) : (key, value) ∈ pairs := by
  obtain ⟨⟨key', value'⟩, hlast, rfl⟩ := Option.map_eq_some_iff.mp h
  have hmem := List.mem_filter.mp (List.mem_of_getLast? hlast)
  have hkey : key' = key := by simpa using hmem.2
  exact hkey ▸ hmem.1

end Assembly

open Assembly

/-- What becomes of the record of a value map that stands in this place: the segments of its pairs, the value
map, the pairs that the segments write and what is reported about them. -/
structure ValueMapRecord.Keeps (record : ValueMapRecord) (d : Device) (index : Nat)
    (segments : List (List Char)) (map : ValueMap) (pairs : List (String × Value))
    (reports : List Diagnostic) : Prop where
  /-- The segments are the pieces between the bars that are not blank. -/
  segments_eq : ∃ pieces, pieces ≠ [] ∧ (∀ piece ∈ pieces, '|' ∉ piece) ∧
    ['|'].intercalate pieces = record.keyvaluepairs.toList ∧
    segments = pieces.filter fun piece => !piece.all Text.isBlank
  /-- Each segment is malformed, or adds a key, or repeats or contradicts the pair of a key so far. -/
  accounted : Accounted (record.place index) segments pairs reports
  /-- In the turn of the record, assembly reports on the default and then the segments that add no key, each
  once. -/
  reported : ∃ turns, d.ReportsInTurn turns ∧
    turns[index]? = some ((mapDefault (record.place index) (record.default?.getD "")).2 ++ reports)
  isWarning : ∀ report ∈ reports, report.isWarning = true
  length_eq : segments.length = map.entries.size + reports.length
  /-- The keys stand in the order of their first pairs, and each has the value of its last pair. -/
  holdsLast : HoldsLast map.entries pairs
  default_iff : ∀ value, map.default? = some value ↔
    record.default?.getD "" ∉ nullDefaults ∧ WritesValue false (record.default?.getD "").toList value
  /-- Assembly, and so every parser, has the value map under its name. -/
  assembled : (assemble d).1.valueMaps.get? record.name = some map
  built : ∀ config parser, Parser.build config d = .ok parser →
    parser.tree.valueMaps.get? record.name = some map
  /-- A look-up writes the value of the last pair of the key, or else the default, or else nothing. -/
  looksUp : ∀ (settings : Settings) (a : Action) (target : String) (key : Value),
    a.effect = .lookup target record.name key →
    Node.compileAction settings (assemble d).1.valueMaps a = .ok ⟨target, .lookup map key⟩ ∧
    ∀ (s : State) (k : String), s.fields.readValue key = .ok k →
      match (lastValue? k pairs).or map.default? with
      | some v => Program.Writes target s v
          ((Program.operation ⟨target, .lookup map key⟩).run settings s)
      | none => (Program.operation ⟨target, .lookup map key⟩).run settings s = .succeed s

/-- **Value maps keep the last definition and account for every pair.** The first record of a name becomes
the value map of the name: each of its segments adds a key or is reported, once, and the last pair of a key
gives the value that look-ups of the key write. -/
theorem valueMaps_keep_last {d : Device} {before behind : List ValueMapRecord} {record : ValueMapRecord}
    (hmaps : d.valueMaps = before ++ record :: behind)
    (hname : record.name ∉ before.map ValueMapRecord.name) :
    ∃ segments map pairs reports, record.Keeps d before.length segments map pairs reports := by
  obtain ⟨pairs, haccounted, hholds⟩ := accounted_addPairs (record.place before.length)
    (pairSegments record.keyvaluepairs)
  have hassembled := get?_valueMaps hmaps hname
  have hdefault : ∀ value,
      (valueMap (record.place before.length) record).1.default? = some value ↔
        record.default?.getD "" ∉ nullDefaults ∧
          WritesValue false (record.default?.getD "").toList value := fun value => mapDefault_eq_some_iff
  refine ⟨pairSegments record.keyvaluepairs,
    (valueMap (record.place before.length) record).1, pairs, _,
    { segments_eq := ⟨Text.splitAll '|' record.keyvaluepairs.toList, Text.splitAll_ne_nil _ _,
        fun piece => Text.not_mem_of_mem_splitAll, Text.intercalate_splitAll _ _, rfl⟩
      accounted := haccounted
      reported := exists_reportsInTurn hmaps hname
      isWarning := haccounted.isWarning
      length_eq := ?_
      holdsLast := hholds
      default_iff := hdefault
      assembled := hassembled
      built := ?_
      looksUp := ?_ }⟩
  · refine haccounted.length_eq.trans (congrArg (· + _) ?_)
    rw [← hholds.keys, Table.length_keys]
    rfl
  · intro config parser hbuild
    rw [Parser.valueMaps_of_build hbuild, hassembled]
  · intro settings a target key ha
    refine ⟨by simp [Node.compileAction, ha, hassembled], fun s k hk => ?_⟩
    have hvalues : (valueMap (record.place before.length) record).1.entries.get? k =
        lastValue? k pairs := hholds.values k
    rw [← hvalues]
    refine Program.run_lookup hk fun v hv => ?_
    -- pairs and defaults are written as constants and fields, never as payload markers
    rcases Option.or_eq_some_iff.mp hv with hlast | ⟨-, hlast⟩
    · rw [hvalues] at hlast
      exact haccounted.isPayload_eq_false _ (mem_of_lastValue? hlast)
    · exact ((hdefault v).mp hlast).2.isPayload_eq_false

/-- Pairs that repeat a key, contradict one and cannot be read, and a field for all other keys. -/
def levels : ValueMapRecord where
  name := "levels"
  default? := some "*level"
  keyvaluepairs := "1='low'|2='mid'| |1='low'|1='high'|junk|3='x|4=level|2=*level"

def levelsDevice : Device where
  valueMaps := [{ name := "other", keyvaluepairs := "1='one'" }, levels, { name := "levels" }]

theorem valueMaps_keep_last_levels :
    levelsDevice.valueMaps = [{ name := "other", keyvaluepairs := "1='one'" }] ++ levels :: [{ name := "levels" }] ∧
    levels.name ∉ ["other"] ∧
    ∃ segments map pairs reports, levels.Keeps levelsDevice 1 segments map pairs reports ∧
      map.entries.entries = [("1", .constant "high"), ("2", .field "level"), ("4", .field "level")] ∧
      map.default? = some (.field "level") ∧
      reports = [.about .duplicateValueMapKey ⟨.valueMap, 1, none⟩ "1",
        .about .conflictingValueMapKey ⟨.valueMap, 1, none⟩ "1",
        .about .malformedValueMapPair ⟨.valueMap, 1, none⟩ "`junk`",
        .about .malformedValueMapPair ⟨.valueMap, 1, none⟩ "`3='x`",
        .about .conflictingValueMapKey ⟨.valueMap, 1, none⟩ "2"] := by
  have hname : levels.name ∉ ["other"] := by decide
  have hmaps : levelsDevice.valueMaps =
      [{ name := "other", keyvaluepairs := "1='one'" }] ++ levels :: [{ name := "levels" }] := rfl
  obtain ⟨segments, map, pairs, reports, h⟩ := valueMaps_keep_last hmaps hname
  have hassembled : ((assemble levelsDevice).1.valueMaps.get? "levels").map
      (fun map => (map.entries.entries, map.default?)) =
      some ([("1", .constant "high"), ("2", .field "level"), ("4", .field "level")],
        some (.field "level")) := by decide +kernel
  have hreported : (assemble levelsDevice).2.filter (·.loc = some (levels.place 1)) =
      [.about .duplicateValueMapKey ⟨.valueMap, 1, none⟩ "1",
        .about .conflictingValueMapKey ⟨.valueMap, 1, none⟩ "1",
        .about .malformedValueMapPair ⟨.valueMap, 1, none⟩ "`junk`",
        .about .malformedValueMapPair ⟨.valueMap, 1, none⟩ "`3='x`",
        .about .conflictingValueMapKey ⟨.valueMap, 1, none⟩ "2"] := by decide +kernel
  have hmap := h.assembled
  rw [show levels.name = "levels" from rfl] at hmap
  rw [hmap, Option.map_some, Option.some.injEq, Prod.mk.injEq] at hassembled
  obtain ⟨turns, hturns, hturn⟩ := h.reported
  rw [hturns.filter_eq (by decide) rfl hturn] at hreported
  exact ⟨hmaps, hname, segments, map, pairs, reports, h, hassembled.1, hassembled.2, hreported⟩

end LogRules

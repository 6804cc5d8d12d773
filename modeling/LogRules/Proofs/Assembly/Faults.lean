import LogRules.Assembly
import LogRules.Proofs.Result

/-! # What assembly reports

Every text of a record that assembly reads is an `Attribute`, and `fault?` is the error that a broken one
deserves. Assembly reports the faults of all attributes, in the order of the records and of the attributes
of each, however many of them are broken, and behind the repeated names of value maps
(`errors_assemble`). -/

namespace LogRules

/-- A text of a record that assembly reads. -/
inductive Attribute where
  | content (text : String)
  | messageId (text : String)
  | functions (text : String)

namespace Attribute

/-- The error about a text that cannot be read. -/
def unreadable? {α : Type} (kind : DiagnosticKind) (loc : SourceLoc) (text : String) :
    Except LexError α → Option Diagnostic
  | .ok _ => none
  | .error e => some (.unreadable kind loc text e)

/-- The error about an attribute, when it is broken. -/
def fault? (loc : SourceLoc) : Attribute → Option Diagnostic
  | content text =>
    if text = "" then some (.about .invalidContent loc "empty content")
    else unreadable? .invalidContent loc text (Pattern.read text)
  | messageId text =>
    if Text.isBlankText text then none
    else unreadable? .invalidMessageId loc text (Invocation.readAction text.toList)
  | functions text => unreadable? .invalidFunctions loc text (Invocation.readFunctions text.toList)

/-- The attribute cannot be used: its text cannot be read, or it is an empty content. A blank message id
counts as none. -/
def IsBroken : Attribute → Prop
  | content text => text = "" ∨ ∃ e, Pattern.read text = .error e
  | messageId text => Text.isBlankText text = false ∧ ∃ e, Invocation.readAction text.toList = .error e
  | functions text => ∃ e, Invocation.readFunctions text.toList = .error e

theorem isSome_unreadable? {α : Type} (kind : DiagnosticKind) (loc : SourceLoc) (text : String)
    (reading : Except LexError α) :
    (unreadable? kind loc text reading).isSome = true ↔ ∃ e, reading = .error e := by
  cases reading with
  | ok a => simp [unreadable?]
  | error e => simp [unreadable?]

/-- There is an error about an attribute exactly when it is broken. -/
theorem isSome_fault?_iff (loc : SourceLoc) (a : Attribute) :
    (a.fault? loc).isSome = true ↔ a.IsBroken := by
  cases a with
  | content text =>
      by_cases h : text = ""
      · simp [fault?, IsBroken, h]
      · simp [fault?, IsBroken, h, isSome_unreadable?]
  | messageId text =>
      cases h : Text.isBlankText text with
      | true => simp [fault?, IsBroken, h]
      | false => simp [fault?, IsBroken, h, isSome_unreadable?]
  | functions text => exact isSome_unreadable? _ loc text _

theorem isError_of_unreadable? {α : Type} {kind : DiagnosticKind} {loc : SourceLoc} {text : String}
    {reading : Except LexError α} {d : Diagnostic} (hkind : kind.severity = .error)
    (h : unreadable? kind loc text reading = some d) : d.isError = true := by
  cases reading with
  | ok a => cases h
  | error e =>
      cases h
      exact beq_iff_eq.mpr hkind

theorem isError_of_fault? {loc : SourceLoc} {a : Attribute} {d : Diagnostic}
    (h : a.fault? loc = some d) : d.isError = true := by
  cases a with
  | content text =>
      rw [fault?] at h
      split at h
      · cases h
        rfl
      · exact isError_of_unreadable? rfl h
  | messageId text =>
      rw [fault?] at h
      split at h
      · cases h
      · exact isError_of_unreadable? rfl h
  | functions text => exact isError_of_unreadable? rfl h

end Attribute

/-- The texts of a header record that assembly reads, in the order in which it does. -/
def HeaderRecord.attributes (record : HeaderRecord) : List Attribute :=
  .content record.content :: (record.messageid.map .messageId).toList
    ++ (record.functions.map .functions).toList

/-- The texts of a message record that assembly reads, in the order in which it does. -/
def MessageRecord.attributes (record : MessageRecord) : List Attribute :=
  .content record.content :: (record.functions.map .functions).toList

/-- The errors about a header record: one for every broken attribute, in order. -/
def HeaderRecord.faults (record : HeaderRecord) (index : Nat) : List Diagnostic :=
  record.attributes.filterMap (Attribute.fault? (record.place index))

/-- The errors about a message record: one for every broken attribute, in order. -/
def MessageRecord.faults (record : MessageRecord) (index : Nat) : List Diagnostic :=
  record.attributes.filterMap (Attribute.fault? (record.place index))

/-- The error about the record at this place, if an earlier one has its name. -/
def ValueMapRecord.repeatedName? (records : List ValueMapRecord) (e : ValueMapRecord × Nat) :
    Option Diagnostic :=
  if e.1.name ∈ (records.take e.2).map ValueMapRecord.name then
    some (.about .duplicateValueMap (e.1.place e.2) e.1.name)
  else none

namespace Device

variable (d : Device)

/-- The errors about value maps: one for every record with the name of an earlier one. -/
def repeatedNames : List Diagnostic :=
  d.valueMaps.zipIdx.filterMap (ValueMapRecord.repeatedName? d.valueMaps)

/-- The errors about header records, in the order of the records. -/
def headerFaults : List Diagnostic := d.headers.zipIdx.flatMap fun e => e.1.faults e.2

/-- The errors about message records, in the order of the records. -/
def messageFaults : List Diagnostic := d.messages.zipIdx.flatMap fun e => e.1.faults e.2

end Device

namespace Assembly

open Attribute ValueMapRecord

/-! ### Attributes -/

theorem content_reports (loc : SourceLoc) (text : String) :
    (content loc text).2 = [Attribute.content text].filterMap (fault? loc) := by
  simp only [content, String.isEmpty_iff, List.filterMap_cons, List.filterMap_nil, fault?]
  split
  · rfl
  · cases Pattern.read text with
    | ok pattern => rfl
    | error e => rfl

theorem messageId_reports (loc : SourceLoc) (text? : Option String) :
    (messageId loc text?).2 = (text?.map .messageId).toList.filterMap (fault? loc) := by
  cases text? with
  | none => rfl
  | some text =>
      simp only [messageId, Option.map_some, Option.toList_some, List.filterMap_cons,
        List.filterMap_nil, fault?]
      split
      · rfl
      · cases Invocation.readAction text.toList with
        | ok inv => rfl
        | error e => rfl

theorem functions_reports (loc : SourceLoc) (text? : Option String) :
    (functions loc text?).2 = (text?.map .functions).toList.filterMap (fault? loc) := by
  cases text? with
  | none => rfl
  | some text =>
      simp only [functions, Option.map_some, Option.toList_some, List.filterMap_cons,
        List.filterMap_nil, fault?]
      cases Invocation.readFunctions text.toList with
      | ok calls => rfl
      | error e => rfl

/-! ### Records -/

theorem headerNode_reports (index : Nat) (record : HeaderRecord) :
    (headerNode index record).2 = record.faults index := by
  simp only [headerNode, content_reports, messageId_reports, functions_reports,
    HeaderRecord.faults, HeaderRecord.attributes, ← List.filterMap_append]
  rfl

theorem messageNode_reports (index : Nat) (record : MessageRecord) :
    (messageNode index record).2 = record.faults index := by
  simp only [messageNode, content_reports, functions_reports, MessageRecord.faults,
    MessageRecord.attributes, ← List.filterMap_append]
  rfl

theorem headerNodes_reports (index : Nat) (records : List HeaderRecord) :
    (headerNodes index records).2 = (records.zipIdx index).flatMap fun e => e.1.faults e.2 := by
  induction records generalizing index with
  | nil => rfl
  | cons record rest ih =>
      rw [List.zipIdx_cons, List.flatMap_cons, ← ih, ← headerNode_reports]
      rfl

theorem messageNodes_reports (index : Nat) (records : List MessageRecord) :
    (messageNodes index records).2 = (records.zipIdx index).flatMap fun e => e.1.faults e.2 := by
  induction records generalizing index with
  | nil => rfl
  | cons record rest ih =>
      rw [List.zipIdx_cons, List.flatMap_cons, ← ih, ← messageNode_reports]
      rfl

/-! ### Value maps -/

/-- The report is a warning, and points into no text. -/
structure IsRemark (report : Diagnostic) : Prop where
  isWarning : report.isError = false
  span_eq : report.span = none

theorem isRemark_about {kind : DiagnosticKind} (h : kind.severity = .warning) (loc : SourceLoc)
    (detail : String) : IsRemark (.about kind loc detail) :=
  ⟨by rw [Diagnostic.isError, Diagnostic.severity, Diagnostic.about, Diagnostic.make, h]; rfl, rfl⟩

theorem isRemark_mapDefault {loc : SourceLoc} {text : String} :
    ∀ report ∈ (mapDefault loc text).2, IsRemark report := by
  unfold mapDefault
  split
  · exact fun _ h => nomatch h
  · split
    · exact fun _ h => nomatch h
    · rintro report hreport
      rw [List.mem_singleton.mp hreport]
      exact isRemark_about rfl ..

theorem isRemark_addPair {loc : SourceLoc} {entries : Table Value} {segment : List Char} :
    ∀ report ∈ (addPair loc entries segment).2, IsRemark report := by
  unfold addPair
  intro report hreport
  split at hreport
  · rw [List.mem_singleton.mp hreport]
    exact isRemark_about rfl ..
  · split at hreport
    · cases hreport
    · split at hreport
      · rw [List.mem_singleton.mp hreport]
        exact isRemark_about rfl ..
      · rw [List.mem_singleton.mp hreport]
        exact isRemark_about rfl ..

theorem isRemark_addPairs {loc : SourceLoc} (entries : Table Value) (segments : List (List Char)) :
    ∀ report ∈ (addPairs loc entries segments).2, IsRemark report := by
  induction segments generalizing entries with
  | nil => exact fun _ h => nomatch h
  | cons segment rest ih =>
      intro report hreport
      rcases List.mem_append.mp hreport with hreport | hreport
      · exact isRemark_addPair report hreport
      · exact ih _ report hreport

theorem isRemark_valueMap {loc : SourceLoc} {record : ValueMapRecord} :
    ∀ report ∈ (valueMap loc record).2, IsRemark report := by
  intro report hreport
  rcases List.mem_append.mp hreport with hreport | hreport
  · exact isRemark_mapDefault report hreport
  · exact isRemark_addPairs _ _ report hreport

/-- What is reported about the pairs and the default of a value map are warnings. -/
theorem errors_valueMap (loc : SourceLoc) (record : ValueMapRecord) :
    (valueMap loc record).2.filter Diagnostic.isError = [] := by
  rw [List.filter_eq_nil_iff]
  intro report hreport
  rw [Bool.not_eq_true]
  exact (isRemark_valueMap report hreport).isWarning

/-- No report about value maps points into a text. -/
theorem span_addValueMaps {index : Nat} {maps : Table ValueMap} {records : List ValueMapRecord} :
    ∀ report ∈ (addValueMaps index maps records).2, report.span = none := by
  induction records generalizing index maps with
  | nil => exact fun _ h => nomatch h
  | cons record rest ih =>
      intro report hreport
      by_cases hname : maps.contains record.name = true
      · rw [addValueMaps, if_pos hname] at hreport
        rcases List.mem_append.mp hreport with hreport | hreport
        · rw [List.mem_singleton.mp hreport]
          rfl
        · exact ih report hreport
      · rw [addValueMaps, if_neg hname] at hreport
        rcases List.mem_append.mp hreport with hreport | hreport
        · exact (isRemark_valueMap report hreport).span_eq
        · exact ih report hreport

/-- The errors about the records `rest` behind the records `seen`, whose names are in the table. -/
theorem errors_addValueMaps (seen rest : List ValueMapRecord) (maps : Table ValueMap)
    (hmaps : ∀ name, maps.contains name = true ↔ name ∈ seen.map ValueMapRecord.name) :
    (addValueMaps seen.length maps rest).2.filter Diagnostic.isError =
      (rest.zipIdx seen.length).filterMap (repeatedName? (seen ++ rest)) := by
  induction rest generalizing seen maps with
  | nil => rfl
  | cons record rest ih =>
      have hsplit : seen ++ record :: rest = (seen ++ [record]) ++ rest := by simp
      have hlength : seen.length + 1 = (seen ++ [record]).length := by simp
      have htake : (seen ++ record :: rest).take seen.length = seen := List.take_left
      -- a repeated record leaves the table as it is, which holds its name already
      by_cases hmem : record.name ∈ seen.map ValueMapRecord.name
      · have hnames : ∀ name, maps.contains name = true ↔
            name ∈ (seen ++ [record]).map ValueMapRecord.name := by
          intro name
          rw [hmaps, List.map_append, List.mem_append, List.map_singleton, List.mem_singleton]
          exact ⟨.inl, fun h => h.elim id fun heq => heq ▸ hmem⟩
        have hrepeated : repeatedName? (seen ++ record :: rest) (record, seen.length) =
            some (.about .duplicateValueMap (record.place seen.length) record.name) := by
          rw [repeatedName?, htake, if_pos hmem]
        rw [List.zipIdx_cons, List.filterMap_cons, hrepeated, hsplit, hlength,
          ← ih (seen ++ [record]) maps hnames, addValueMaps, if_pos ((hmaps _).mpr hmem), hlength]
        rfl
      · have hnames : ∀ name, (maps.insert record.name
            (valueMap (record.place seen.length) record).1).contains name = true ↔
            name ∈ (seen ++ [record]).map ValueMapRecord.name := by
          intro name
          rw [Table.contains, Table.get?_insert, List.map_append, List.mem_append, ← hmaps,
            List.map_singleton, List.mem_singleton]
          by_cases heq : record.name = name
          · simp [heq]
          · simp [heq, Ne.symm heq, Table.contains]
        have hrepeated : repeatedName? (seen ++ record :: rest) (record, seen.length) = none := by
          rw [repeatedName?, htake, if_neg hmem]
        rw [List.zipIdx_cons, List.filterMap_cons, hrepeated, hsplit, hlength,
          ← ih (seen ++ [record]) _ hnames, addValueMaps,
          if_neg (fun h => hmem ((hmaps _).mp h)), hlength]
        change ((valueMap _ record).2 ++ (addValueMaps _ _ rest).2).filter _ = _
        rw [List.filter_append, errors_valueMap, List.nil_append]

theorem isError_of_mem_faults {loc : SourceLoc} {attributes : List Attribute} {report : Diagnostic}
    (h : report ∈ attributes.filterMap (fault? loc)) : report.isError = true := by
  obtain ⟨a, -, ha⟩ := List.mem_filterMap.mp h
  exact isError_of_fault? ha

/-- Assembly reports on the value maps, then the faults of the header records, then those of the message
records. -/
theorem assemble_reports (d : Device) :
    (assemble d).2 = (addValueMaps 0 .empty d.valueMaps).2 ++ d.headerFaults ++ d.messageFaults := by
  have hheaders : (headerNodes 0 d.headers).2 = d.headerFaults := headerNodes_reports 0 d.headers
  have hmessages : (messageNodes 0 d.messages).2 = d.messageFaults := messageNodes_reports 0 d.messages
  rw [← hheaders, ← hmessages]
  rfl

/-- Assembly reports the repeated names of value maps, then the faults of the header records, then those of
the message records. Everything else that it reports is a warning. -/
theorem errors_assemble (d : Device) :
    (assemble d).2.filter Diagnostic.isError = d.repeatedNames ++ d.headerFaults ++ d.messageFaults := by
  have hmaps : (addValueMaps 0 .empty d.valueMaps).2.filter Diagnostic.isError = d.repeatedNames :=
    errors_addValueMaps [] d.valueMaps .empty (by simp [Table.contains])
  have hheaderErrors : ∀ report ∈ d.headerFaults, report.isError = true := by
    intro report hreport
    obtain ⟨e, -, hmem⟩ := List.mem_flatMap.mp hreport
    exact isError_of_mem_faults hmem
  have hmessageErrors : ∀ report ∈ d.messageFaults, report.isError = true := by
    intro report hreport
    obtain ⟨e, -, hmem⟩ := List.mem_flatMap.mp hreport
    exact isError_of_mem_faults hmem
  rw [assemble_reports, List.filter_append, List.filter_append, hmaps,
    List.filter_eq_self.mpr hheaderErrors, List.filter_eq_self.mpr hmessageErrors]

end Assembly

end LogRules

import LogRules.Device
import LogRules.Json.Reader

/-! # Rule files

A rule file holds the records of one device. Names that mean nothing are skipped. `toJson` writes
the records with all of their fields. -/

namespace LogRules

open Json.Reader

/-- The fields of a header record. -/
def HeaderRecord.fields : List (Member HeaderRecord) := [
  field "id1" text fun r v => { r with id1 := v },
  field "id2" text fun r v => { r with id2 := v },
  field "content" text fun r v => { r with content := v },
  field "messageid" (option text) fun r v => { r with messageid := v },
  field "functions" (option text) fun r v => { r with functions := v },
  field "line" (option nat32) fun r v => { r with line := v }]

/-- The fields of a message record. -/
def MessageRecord.fields : List (Member MessageRecord) := [
  field "id1" text fun r v => { r with id1 := v },
  field "id2" text fun r v => { r with id2 := v },
  field "eventcategory" (option text) fun r v => { r with eventcategory := v },
  field "content" text fun r v => { r with content := v },
  field "functions" (option text) fun r v => { r with functions := v },
  field "line" (option nat32) fun r v => { r with line := v }]

/-- The fields of a value map record. -/
def ValueMapRecord.fields : List (Member ValueMapRecord) := [
  field "name" text fun r v => { r with name := v },
  field "default" (option text) fun r v => { r with default? := v },
  field "keyvaluepairs" text fun r v => { r with keyvaluepairs := v },
  field "line" (option nat32) fun r v => { r with line := v }]

namespace Device

/-- The fields of a device. -/
def fields : List (Member Device) := [
  field "name" text fun d v => { d with name := v },
  field "headers" (list (record false HeaderRecord.fields {})) fun d v => { d with headers := v },
  field "messages" (list (record false MessageRecord.fields {}))
    fun d v => { d with messages := v },
  field "valuemaps" (list (record false ValueMapRecord.fields {}))
    fun d v => { d with valueMaps := v }]

/-- Reads the records of a device. -/
def reader : Json.Reader Device := record false fields {}

/-- Reads a rule file. -/
def ofText (s : String) : Except Json.Fault Device := reader.ofText s

/-! ### Writing -/

/-- An optional text. -/
def textJson (s : Option String) : Json := .ofOption .string s

/-- An optional line number. -/
def lineJson (line : Option Nat) : Json := .ofOption .ofNat line

/-- The value of a header record. -/
def headerJson (r : HeaderRecord) : Json :=
  .object [("id1", .string r.id1), ("id2", .string r.id2), ("content", .string r.content),
    ("messageid", textJson r.messageid), ("functions", textJson r.functions),
    ("line", lineJson r.line)]

/-- The value of a message record. -/
def messageJson (r : MessageRecord) : Json :=
  .object [("id1", .string r.id1), ("id2", .string r.id2),
    ("eventcategory", textJson r.eventcategory), ("content", .string r.content),
    ("functions", textJson r.functions), ("line", lineJson r.line)]

/-- The value of a value map record. -/
def valueMapJson (r : ValueMapRecord) : Json :=
  .object [("name", .string r.name), ("default", textJson r.default?),
    ("keyvaluepairs", .string r.keyvaluepairs), ("line", lineJson r.line)]

/-- The records of a device as a value. -/
def toJson (d : Device) : Json :=
  .object [("name", .string d.name), ("headers", .ofList headerJson d.headers),
    ("messages", .ofList messageJson d.messages),
    ("valuemaps", .ofList valueMapJson d.valueMaps)]

end Device

end LogRules

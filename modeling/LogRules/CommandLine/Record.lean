import LogRules.Json.Basic
import LogRules.Processing.Processor

/-! # Records of log lines

Logs are bytes with a line feed behind every line; the last one may lack it, and a carriage return
in front of it does not belong to the line. Every line that is not empty yields one record: the
time of the event, the fields and the errors. -/

namespace LogRules.CommandLine

/-- Puts a byte in front of pieces: into the first piece, or a line feed between pieces. -/
def consByte (b : UInt8) (ps : List (List UInt8)) : List (List UInt8) :=
  if b = 0x0A then [] :: ps
  else match ps with
    | [] => [[b]]
    | piece :: more => (b :: piece) :: more

/-- The pieces of logs between line feeds. -/
def pieces (logs : List UInt8) : List (List UInt8) := logs.foldr consByte [[]]

/-- A line without the carriage return behind it. -/
def withoutReturn (line : List UInt8) : List UInt8 :=
  if line.getLast? = some 0x0D then line.dropLast else line

/-- The lines of logs that are not empty. -/
def logLines (logs : List UInt8) : List (List UInt8) :=
  ((pieces logs).map withoutReturn).filter fun line => !line.isEmpty

/-- The record of a result. Time and errors are left out when there are none. -/
def record (timestampField : Option String) (r : Result) : Json :=
  let timestamp := (timestampField.bind r.fields.get?).map fun t => ("timestamp", Json.string t)
  let errors := r.errors.map fun e => Json.string e.message
  .object (timestamp.toList
    ++ [("fields", .object (r.fields.entries.map fun (name, value) => (name, .string value)))]
    ++ (if errors.isEmpty then [] else [("errors", .array errors)]))

/-- The text of a record, with a line feed behind it. -/
def recordText (pretty : Bool) (timestampField : Option String) (r : Result) : String :=
  let json := record timestampField r
  (if pretty then json.pretty else json.compact) ++ "\n"

end LogRules.CommandLine

import LogRules.CommandLine.Execute
import LogRules.Proofs.Json.Decoding
import LogRules.Proofs.Result

/-! # Records of logs

A run prints one record for every line of its logs that is not empty, and nothing else
(`run_prints_records`). A record is one JSON object on one line, which decodes to what the processor yields for
that line. -/

namespace LogRules.CommandLine

/-! ### Lines -/

/-- The logs are these lines with a line feed behind each, and the last line. -/
structure HasLines (logs : List UInt8) (lines : List (List UInt8)) (last : List UInt8) : Prop where
  eq : logs = lines.flatMap (· ++ [0x0A]) ++ last
  apart : ∀ line ∈ lines ++ [last], 0x0A ∉ line

/-- A line without the carriage return at its end. Only one is taken away. -/
inductive Stripped : List UInt8 → List UInt8 → Prop
  | crlf (content : List UInt8) : Stripped (content ++ [0x0D]) content
  | bare {line : List UInt8} (h : line.getLast? ≠ some 0x0D) : Stripped line line

theorem stripped_withoutReturn (line : List UInt8) : Stripped line (withoutReturn line) := by
  unfold withoutReturn
  split
  · next h =>
      have hline := List.dropLast_append_getLast? _ h
      have hstripped := Stripped.crlf line.dropLast
      rwa [hline] at hstripped
  · next h => exact .bare h

/-- A byte in front of the logs stands in front of the first line, or ends an empty one. -/
theorem exists_pieces (logs : List UInt8) :
    ∃ lines last, pieces logs = lines ++ [last] ∧ HasLines logs lines last := by
  induction logs with
  | nil => exact ⟨[], [], rfl, rfl, by simp⟩
  | cons b logs ih =>
      obtain ⟨lines, last, hpieces, heq, hapart⟩ := ih
      have hcons : pieces (b :: logs) = consByte b (pieces logs) := rfl
      rw [hcons, hpieces]
      by_cases hb : b = 0x0A
      · refine ⟨[] :: lines, last, by simp [consByte, hb], ?_, ?_⟩
        · rw [heq, hb]
          rfl
        · exact List.forall_mem_cons.mpr ⟨List.not_mem_nil, hapart⟩
      · cases lines with
        | nil =>
            refine ⟨[], b :: last, by simp [consByte, hb], ?_, ?_⟩
            · rw [heq]
              rfl
            · simpa [Ne.symm hb] using hapart
        | cons line lines =>
            refine ⟨(b :: line) :: lines, last, by simp [consByte, hb], ?_, ?_⟩
            · rw [heq]
              rfl
            · obtain ⟨hline, hothers⟩ := List.forall_mem_cons.mp hapart
              exact List.forall_mem_cons.mpr ⟨by simpa [Ne.symm hb] using hline, hothers⟩

/-! ### Records -/

/-- The text is a JSON object on one line that tells the fields, the errors and the time of a result. -/
structure Tells (timestampField : Option String) (r : Result) (text : String) : Prop where
  one_line : '\n' ∉ text.toList
  decodes : ∃ members, Json.decode? text = some (.object members) ∧
    (members.map Prod.fst).Sublist ["timestamp", "fields", "errors"] ∧
    Json.get? "fields" (.object members) =
      some (.object (r.fields.entries.map fun (name, value) => (name, .string value))) ∧
    Json.get? "errors" (.object members) =
      (if r.errors = [] then none else some (.array (r.errors.map fun e => .string e.message))) ∧
    Json.get? "timestamp" (.object members) = (timestampField.bind r.fields.get?).map .string

theorem numberFree_record (timestampField : Option String) (r : Result) :
    Json.NumberFree (record timestampField r) := by
  refine .object fun m hm => ?_
  simp only [List.mem_append, Option.mem_toList, List.mem_singleton] at hm
  rcases hm with (hm | rfl) | hm
  · obtain ⟨t, -, rfl⟩ := Option.map_eq_some_iff.mp hm
    exact .string t
  · exact .object (List.forall_mem_map.mpr fun e _ => .string e.2)
  · split at hm
    · cases hm
    · obtain rfl := List.mem_singleton.mp hm
      exact .array (List.forall_mem_map.mpr fun e _ => .string e.message)

/-- The record of a result tells it. -/
theorem tells_compact_record (timestampField : Option String) (r : Result) :
    Tells timestampField r (record timestampField r).compact := by
  have hfree := numberFree_record timestampField r
  refine ⟨Json.newline_not_mem_compact hfree, _, Json.decode?_compact hfree, ?_⟩
  cases timestampField.bind r.fields.get? with
  | none => cases r.errors <;> simp [Json.get?, List.lookup_cons]
  | some t => cases r.errors <;> simp [Json.get?, List.lookup_cons]

/-- The record of a line. -/
def recordLine (p : Processor) (line : List UInt8) : String :=
  (record p.timestampField (p.process line)).compact

/-! ### Runs -/

/-- The logs of a run: those of its file, or of the input. -/
def readLogs (env : Environment) : Option String → Except FileError (List UInt8)
  | none => .ok env.stdin
  | some path => env.files path

theorem config_of_build {config : Config} {device : Device} {parser : Parser}
    (h : Parser.build config device = .ok parser) : parser.config = config := by
  unfold Parser.build Parser.buildWith at h
  dsimp only at h
  split at h
  · cases h
  · split at h
    · cases h
    · cases h
      rfl

/-- The lines of logs, each without its return, are those that are not empty. -/
theorem exists_logLines (logs : List UInt8) :
    ∃ lines last contents, HasLines logs lines last ∧ List.Forall₂ Stripped (lines ++ [last]) contents ∧
      logLines logs = contents.filter (· ≠ []) := by
  obtain ⟨lines, last, hpieces, hlines⟩ := exists_pieces logs
  refine ⟨lines, last, (lines ++ [last]).map withoutReturn, hlines, ?_, ?_⟩
  · rw [List.forall₂_map_right_iff, List.forall₂_same]
    exact fun line _ => stripped_withoutReturn line
  · rw [logLines, hpieces]
    refine List.filter_congr fun line _ => ?_
    cases line <;> rfl

theorem execute_run {env : Environment} {c : Command} {logs? : Option String} {device : Device}
    {config : Config} {parser : Parser} {p : Processor} {logs : List UInt8}
    (htask : c.task = .run logs? false false) (hdevice : readDevice env c.device = .ok device)
    (hconfig : readConfig env c.config? = .ok config) (hbuild : Parser.build config device = .ok parser)
    (hcompile : Processor.ofTree env.currentYear config parser.tree = .ok p)
    (hlogs : readLogs env logs? = .ok logs) : c.execute env = runLines p none false (logLines logs) := by
  rw [← config_of_build hbuild] at hcompile
  have hparser (colored : Bool) : buildParser env colored c = .ok parser := by
    unfold buildParser
    rw [hdevice, hconfig]
    simp only [bind, Except.bind, pure, Except.pure, Except.mapError, hbuild]
  unfold Command.execute
  simp only [hparser, htask, run, hcompile]
  cases logs? with
  | none =>
      cases hlogs
      rfl
  | some path =>
      have hfile : env.files path = .ok logs := hlogs
      simp only [hfile]
      rfl

/-- A run without a trace prints one record for each line that is not empty, in order. What it prints for a line
tells what the processor yields for that line alone. -/
theorem run_prints_records (env : Environment) (c : Command) {logs? : Option String}
    {device : Device} {config : Config} {parser : Parser} {p : Processor} {logs : List UInt8}
    (htask : c.task = .run logs? false false) (hdevice : readDevice env c.device = .ok device)
    (hconfig : readConfig env c.config? = .ok config) (hbuild : Parser.build config device = .ok parser)
    (hcompile : Processor.ofTree env.currentYear config parser.tree = .ok p)
    (hlogs : readLogs env logs? = .ok logs) :
    (c.execute env).exit = 0 ∧
    (∃ lines last contents, HasLines logs lines last ∧ List.Forall₂ Stripped (lines ++ [last]) contents ∧
      (c.execute env).stdout =
        String.join ((contents.filter (· ≠ [])).map fun line => recordLine p line ++ "\n")) ∧
    ∀ line, Tells p.timestampField (p.process line) (recordLine p line) := by
  have hrun := execute_run htask hdevice hconfig hbuild hcompile hlogs
  obtain ⟨lines, last, contents, hlines, hstripped, hcontents⟩ := exists_logLines logs
  rw [hrun]
  refine ⟨rfl, ⟨lines, last, contents, hlines, hstripped, ?_⟩, fun line => tells_compact_record _ _⟩
  rw [← hcontents]
  show String.join (((logLines logs).map p.process).map _) = _
  rw [List.map_map]
  rfl

/-- Rules for lines of a number and a message id. -/
def numberedText : String :=
  "\x7b\"headers\":[\x7b\"id1\":\"H\",\"id2\":\"H\",\"content\":\"<number> <messageid>\"\x7d],"
    ++ "\"messages\":[\x7b\"id1\":\"m\",\"id2\":\"m\",\"content\":\"<a>\"\x7d]\x7d"

def numberedDevice : Device where
  headers := [.ofId "H" "<number> <messageid>"]
  messages := [{ id1 := "m", id2 := "m", content := "<a>" }]

/-- The input has a line with a carriage return, an empty one and one without a line feed. -/
def numberedEnvironment : Environment where
  files path := if path = "rules.json" then .ok (Text.encode numberedText) else .error .missing
  stdin := Text.encode "1 m\r\n\n2 x"
  isTerminal := false
  currentYear := 2024

def numberedRun : Command where
  task := .run none false false
  device := "rules.json"
  config? := none
  color := .never
  verbose := 0

theorem run_prints_records_numbered :
    ∃ p : Processor, (numberedRun.execute numberedEnvironment).exit = 0 ∧
      (∃ lines last contents, HasLines numberedEnvironment.stdin lines last ∧
        List.Forall₂ Stripped (lines ++ [last]) contents ∧
        (numberedRun.execute numberedEnvironment).stdout =
          String.join ((contents.filter (· ≠ [])).map fun line => recordLine p line ++ "\n")) ∧
      ∀ line, Tells p.timestampField (p.process line) (recordLine p line) := by
  have hdevice : readDevice numberedEnvironment "rules.json" = .ok numberedDevice :=
    eq_ok_of_toOption (by decide +kernel)
  have hsome : ((Parser.build {} numberedDevice).toOption.bind fun parser =>
      (Processor.ofTree 2024 {} parser.tree).toOption).isSome = true := by decide +kernel
  obtain ⟨p, hp⟩ := Option.isSome_iff_exists.mp hsome
  obtain ⟨parser, hbuild, hcompile⟩ := Option.bind_eq_some_iff.mp hp
  exact ⟨p, run_prints_records numberedEnvironment numberedRun rfl hdevice rfl
    (eq_ok_of_toOption hbuild) (eq_ok_of_toOption hcompile) rfl⟩

end LogRules.CommandLine

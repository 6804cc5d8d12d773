import LogRules.Build
import LogRules.CommandLine.Arguments
import LogRules.CommandLine.Directory
import LogRules.CommandLine.Record
import LogRules.Config.Reader
import LogRules.Device.Reader
import LogRules.Diagnostic.Snippet
import LogRules.Processing.Tracer

/-! # Executing commands

A command reads its files and yields what it prints and its exit code. Reading is a function from
paths to bytes here, so that commands are functions of their inputs. -/

namespace LogRules.CommandLine

/-- What commands get from outside. -/
structure Environment where
  files : String → Except FileError (List UInt8)
  stdin : List UInt8
  /-- The output is a terminal. -/
  isTerminal : Bool
  currentYear : Int

/-- What a command prints, and its exit code. -/
structure Execution where
  exit : Nat
  stdout : String
  stderr : String
  deriving DecidableEq, Repr, Inhabited

namespace Execution

/-- A command that prints an error and fails. -/
def failed (message : String) : Execution := ⟨1, "", "error: " ++ message ++ "\n"⟩

/-- A command that is aborted since a diagnostic cannot be shown. -/
def aborted (e : Snippet.Fault) : Execution := ⟨101, "", e.message ++ "\n"⟩

/-- Prints something to the error output first. -/
def afterErrors (text : String) (e : Execution) : Execution := { e with stderr := text ++ e.stderr }

end Execution

/-! ### Files -/

/-- A file that cannot be used, in words. -/
def unreadable (path : String) (reason : String) : String :=
  "failed to read '" ++ path ++ "': " ++ reason

/-- The text of a file. -/
def readText (env : Environment) (path : String) : Except String String :=
  match env.files path with
  | .error e => .error (unreadable path e.reason)
  | .ok bytes => match Text.decode? bytes with
    | none => .error (unreadable path "stream did not contain valid UTF-8")
    | some text => .ok text

/-- The device of a rule file. -/
def readDevice (env : Environment) (path : String) : Except String Device := do
  let text ← readText env path
  (Device.ofText text).mapError fun _ => "invalid device file '" ++ path ++ "'"

/-- The options of an option file, or the default options. -/
def readConfig (env : Environment) : Option String → Except String Config
  | none => .ok {}
  | some path => do
    let text ← readText env path
    (Config.ofText text).mapError fun _ => "invalid config file '" ++ path ++ "'"

/-! ### Commands -/

/-- Prints diagnostics first, if there are any. -/
def Execution.afterDiagnostics (colored : Bool) (ds : List Diagnostic) (e : Execution) : Execution :=
  if ds.isEmpty then e
  else match Diagnostic.renderAll colored true ds with
    | .ok text => e.afterErrors (text ++ "\n")
    | .error fault => .aborted fault

/-- The parser of a command, or what is printed when there is none. -/
def buildParser (env : Environment) (colored : Bool) (c : Command) : Except Execution Parser := do
  let files : Except String (Device × Config) := do
    let device ← readDevice env c.device
    let config ← readConfig env c.config?
    return (device, config)
  let (device, config) ← files.mapError .failed
  match Parser.build config device with
  | .ok parser => return parser
  | .error e =>
    let diagnostics := match e with
      | .ruleSyntax ds => ds
      | .pass _ => []
    throw ((Execution.failed e.message).afterDiagnostics colored diagnostics)

/-- Prints the diagnostics of a build, and the size of the tree when it is asked for. -/
def check (strict colored : Bool) (verbose : Nat) (p : Parser) : Execution :=
  let warnings := Diagnostic.warningCount p.diagnostics
  let ending : Execution :=
    if strict && Diagnostic.hasWarnings p.diagnostics then
      .failed (toString warnings ++ " warnings treated as errors")
    else if verbose = 0 then ⟨0, "", ""⟩
    else ⟨0, "", "ok: " ++ toString p.tree.root.count ++ " nodes, "
      ++ toString p.tree.bindings.size ++ " bindings, "
      ++ toString p.tree.valueMaps.size ++ " value maps\n"⟩
  ending.afterDiagnostics colored p.diagnostics

/-- Prints the tree, and the diagnostics when they are asked for. -/
def dump (colored : Bool) (verbose : Nat) (p : Parser) : Execution :=
  let tree : Execution := ⟨0, p.tree.dump, ""⟩
  if verbose = 0 then tree else tree.afterDiagnostics colored p.diagnostics

/-- The verbosity of a trace: that of the options unless it is given. -/
def traceVerbosity (verbose : Nat) (config : Config) : Verbosity :=
  match verbose with
  | 0 => config.verbosity
  | 1 => .verbose
  | _ => .veryVerbose

/-- Prints a record for every line, and a trace when it is asked for. -/
def runLines (p : Processor) (verbosity? : Option Verbosity) (pretty : Bool)
    (lines : List (List UInt8)) : Execution :=
  match verbosity? with
  | none => ⟨0, String.join ((lines.map p.process).map (recordText pretty p.timestampField)), ""⟩
  | some v =>
    let traced := lines.map (p.traced v)
    ⟨0, String.join (traced.map fun (r, _) => recordText pretty p.timestampField r),
      String.join (traced.map fun (_, trace) => Trace.ofLines trace)⟩

/-- Processes logs. -/
def run (env : Environment) (logs? : Option String) (pretty trace : Bool) (verbose : Nat)
    (parser : Parser) : Execution :=
  match Processor.ofTree env.currentYear parser.config parser.tree with
  | .error e => .failed e.message
  | .ok p =>
    let verbosity? := if trace then some (traceVerbosity verbose parser.config) else none
    match logs? with
    | none => runLines p verbosity? pretty (logLines env.stdin)
    | some path =>
      match env.files path with
      | .ok logs => runLines p verbosity? pretty (logLines logs)
      | .error .isDirectory => .failed ("failed to read line 1: " ++ FileError.isDirectory.reason)
      | .error e => .failed (unreadable path e.reason)

namespace Command

/-- Executes a command. -/
def execute (env : Environment) (c : Command) : Execution :=
  let colored := match c.color with
    | .auto => env.isTerminal
    | .always => true
    | .never => false
  match buildParser env colored c with
  | .error e => e
  | .ok parser =>
    match c.task with
    | .check strict => CommandLine.check strict colored c.verbose parser
    | .dump => CommandLine.dump colored c.verbose parser
    | .run logs? pretty trace => CommandLine.run env logs? pretty trace c.verbose parser

end Command

/-- Executes the command of arguments. Arguments that are not understood have an exit code of their
own. -/
def execute (env : Environment) (arguments : List String) : Execution :=
  match Command.ofArguments arguments with
  | .error .help => ⟨0, UsageError.help.message ++ "\n", ""⟩
  | .error e => ⟨2, "", "error: " ++ e.message ++ "\n"⟩
  | .ok c => c.execute env

end LogRules.CommandLine

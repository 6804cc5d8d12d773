import LogRules.CommandLine.Execute
import LogRules.Time.Moment

/-! # The program

Reads the arguments, the files that they name and the standard input, and prints what the command
yields. -/

namespace LogRules.CommandLine

/-- The bytes of a file, or the reason of the system. -/
def readFile (path : String) : IO (Except FileError (List UInt8)) := do
  try
    let bytes ← IO.FS.readBinFile path
    return .ok bytes.toList
  catch
    | .noFileOrDirectory .. => return .error .missing
    | .permissionDenied .. => return .error .denied
    | .inappropriateType _ 21 _ => return .error .isDirectory
    | .inappropriateType .. => return .error .notDirectory
    | .invalidArgument _ _ "name too long" => return .error .tooLong
    | e => return .error (.other (toString e))

/-- The current year, from the time of a fresh file. -/
def currentYear : IO Int := do
  let (_, path) ← IO.FS.createTempFile
  let time := (← path.metadata).modified
  IO.FS.removeFile path
  return (Time.Moment.ofSeconds time.sec).date.year

/-- The standard input, when the command reads it. -/
def readInput (c? : Except UsageError Command) : IO (List UInt8) := do
  match c? with
  | .ok { task := .run none _ _, .. } => return (← (← IO.getStdin).readBinToEnd).toList
  | _ => return []

end LogRules.CommandLine

open LogRules.CommandLine

/-- Runs the command of the arguments. -/
def main (arguments : List String) : IO UInt32 := do
  let c? := Command.ofArguments arguments
  let paths := match c? with
    | .ok c => c.paths
    | .error _ => []
  let contents ← paths.mapM fun path => return (path, ← readFile path)
  let stdin ← readInput c?
  let stdout ← IO.getStdout
  let stderr ← IO.getStderr
  let files (path : String) : Except FileError (List UInt8) :=
    ((contents.find? (·.1 == path)).map Prod.snd).getD (.error .missing)
  let isTerminal := (← stdout.isTty) && (← stderr.isTty)
  let e := execute { files, stdin, isTerminal, currentYear := ← currentYear } arguments
  stderr.putStr e.stderr
  stdout.putStr e.stdout
  return e.exit.toUInt32

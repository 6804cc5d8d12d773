import LogRules.Text.Split
import LogRules.Text.Utf8

/-! # Files by path

A path leads from a directory from name to name. `Directory.read` follows a path in a directory that
holds files and nothing else, and says why a path leads nowhere. -/

namespace LogRules.CommandLine

/-- Why a file cannot be read. -/
inductive FileError where
  /-- There is no such file. -/
  | missing
  | denied
  /-- The path goes on behind a file. -/
  | notDirectory
  /-- The path leads to a directory. It can be opened, but reading it fails. -/
  | isDirectory
  /-- A name or the whole path is too long. -/
  | tooLong
  | other (reason : String)
  deriving DecidableEq, Repr, Inhabited

/-- The reason in the words of the system. -/
def FileError.reason : FileError → String
  | missing => "No such file or directory (os error 2)"
  | denied => "Permission denied (os error 13)"
  | notDirectory => "Not a directory (os error 20)"
  | isDirectory => "Is a directory (os error 21)"
  | tooLong => "File name too long (os error 36)"
  | other reason => reason

/-- A directory that holds files with these names. -/
structure Directory where
  files : List (String × List UInt8)

namespace Directory

/-- Where a path has led so far. -/
inductive Position where
  /-- To the directory itself. -/
  | inside
  /-- To a directory outside, of which nothing is known. -/
  | outside
  | file (bytes : List UInt8)

/-- The most bytes of a name. -/
def maxName : Nat := 255

/-- The most bytes of a path. -/
def maxPath : Nat := 4095

/-- Follows one part of a path. -/
def step (d : Directory) : Position → List Char → Except FileError Position
  | .file _, _ => .error .notDirectory
  | position, [] => .ok position
  | position, ['.'] => .ok position
  | _, ['.', '.'] => .ok .outside
  | position, name =>
    if maxName < Text.byteLength name then .error .tooLong
    else match position, d.files.lookup (String.ofList name) with
      | .inside, some bytes => .ok (.file bytes)
      | _, _ => .error .missing

/-- The bytes of the file at the end of a path. -/
def read (d : Directory) (path : String) : Except FileError (List UInt8) := do
  if path.isEmpty then throw .missing
  if maxPath < Text.byteLength path.toList then throw .tooLong
  let start : Position := if path.startsWith "/" then .outside else .inside
  match ← (Text.splitAll '/' path.toList).foldlM d.step start with
  | .file bytes => return bytes
  | _ => throw .isDirectory

end Directory

end LogRules.CommandLine

import LogRules.LexError
import LogRules.Text.Utf8

/-! # Formats of dates and durations

A format is a sequence of literals and one-letter specifiers. In text a specifier stands after a
percent sign, and a doubled percent sign is one percent sign of a literal. A literal of nothing but
spaces has no meaning and is dropped. -/

namespace LogRules

/-- A part of a format. -/
inductive FormatPart where
  | literal (text : String)
  /-- The letter after the percent sign. -/
  | spec (letter : Char)
  deriving DecidableEq, Repr, Inhabited

/-- A format of a date or a duration. -/
abbrev TimeFormat := List FormatPart

namespace TimeFormat

/-- The letters of the specifiers. -/
def specifiers : List Char := "CRBMGDFHINTUJPSOYWZAQKLEX".toList

/-! ### Writing -/

/-- One character of a literal. -/
def literalChar (c : Char) : List Char := if c = '%' then ['%', '%'] else [c]

/-- The text of a part. -/
def renderPart : FormatPart → List Char
  | .literal text => text.toList.flatMap literalChar
  | .spec letter => ['%', letter]

/-- The text of a format. -/
def render (f : TimeFormat) : String := String.ofList (f.flatMap renderPart)

/-! ### Reading -/

/-- One unit of format text. -/
inductive Lexeme where
  | char (c : Char)
  | spec (letter : Char)
  deriving DecidableEq, Repr

/-- The units of a text whose first byte is at `offset`. -/
def lexemes (offset : Nat) : List Char → Except LexError (List Lexeme)
  | [] => .ok []
  | ['%'] => .error ⟨.trailingPercent, offset⟩
  | '%' :: '%' :: rest => (.char '%' :: ·) <$> lexemes (offset + 2) rest
  | '%' :: c :: rest =>
    if c ∈ specifiers then (.spec c :: ·) <$> lexemes (offset + 1 + c.utf8Size) rest
    else .error ⟨.unknownSpecifier, offset + 1⟩
  | c :: rest => (.char c :: ·) <$> lexemes (offset + c.utf8Size) rest

/-- Parts behind a run of characters. The run is one literal, unless it is empty. -/
def behindRun : List Char → TimeFormat → TimeFormat
  | [], parts => parts
  | run, parts => .literal (String.ofList run) :: parts

/-- The run of characters at the front of units, and the parts behind it. -/
def runAndParts : List Lexeme → List Char × TimeFormat
  | [] => ([], [])
  | .char c :: rest =>
    let (run, parts) := runAndParts rest
    (c :: run, parts)
  | .spec letter :: rest =>
    let (run, parts) := runAndParts rest
    ([], .spec letter :: behindRun run parts)

/-- The parts of units: every run of characters is one literal. -/
def ofLexemes (ls : List Lexeme) : TimeFormat :=
  let (run, parts) := runAndParts ls
  behindRun run parts

/-- The part is a specifier or a literal with more in it than spaces. -/
def isMeaningful : FormatPart → Bool
  | .literal text => text.toList.any (· != ' ')
  | .spec _ => true

/-- Reads a format. -/
def read (source : String) : Except LexError TimeFormat :=
  (fun ls => (ofLexemes ls).filter isMeaningful) <$> lexemes 0 source.toList

end TimeFormat

end LogRules

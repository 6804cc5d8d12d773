/-! # Errors of the readers

Every reader of rule text reports a cause and the byte offset, in the text it was given, where it
stopped. -/

namespace LogRules

/-- Why a text could not be read. -/
inductive LexCause where
  | malformedTag
  | unterminatedQuote
  | expectedParen
  | expectedArgument
  | expectedSeparator
  | unexpectedCharacter
  | trailingCharacters
  | unexpectedEnd
  | unterminatedTarget
  | emptyAction
  | expectedAngle
  | unclosedAngle
  | unterminatedGroup
  | nestedAlternatives
  | emptyAlternative
  | unknownSpecifier
  | trailingPercent
  deriving DecidableEq, Repr, Inhabited

/-- The wording of a cause. -/
def LexCause.message : LexCause → String
  | malformedTag => "malformed pattern"
  | unterminatedQuote => "unterminated quote"
  | expectedParen => "expected `(` right after the function name"
  | expectedArgument => "expected an argument"
  | expectedSeparator => "expected `,` or `)`"
  | unexpectedCharacter => "unexpected character"
  | trailingCharacters => "trailing characters after call"
  | unexpectedEnd => "unexpected end of input"
  | unterminatedTarget => "target not terminated by `:`"
  | emptyAction => "empty action"
  | expectedAngle => "expected `<`"
  | unclosedAngle => "missing closing `>`"
  | unterminatedGroup => "unterminated alternatives group"
  | nestedAlternatives => "nested alternatives"
  | emptyAlternative => "empty alternative"
  | unknownSpecifier => "unknown format specifier"
  | trailingPercent => "format ends in `%`"

/-- A cause at a byte offset of the text that was read. -/
structure LexError where
  cause : LexCause
  offset : Nat
  deriving DecidableEq, Repr, Inhabited

namespace LexError

/-- The same error seen from a text in which the piece that was read starts at byte `n`. -/
def shift (e : LexError) (n : Nat) : LexError := ⟨e.cause, e.offset + n⟩

/-- The place that a report of the error points to. Reports keep places in 32 bits. -/
def place (e : LexError) : Nat := e.offset % 0x100000000

/-- The cause and where it was found. -/
def message (e : LexError) : String :=
  e.cause.message ++ " at position " ++ toString e.offset

theorem shift_shift (e : LexError) (m n : Nat) : (e.shift m).shift n = e.shift (m + n) := by
  simp [shift, Nat.add_assoc]

theorem place_le (e : LexError) : e.place ≤ e.offset := Nat.mod_le _ _

theorem place_of_lt {e : LexError} (h : e.offset < 0x100000000) : e.place = e.offset := Nat.mod_eq_of_lt h

end LexError

end LogRules

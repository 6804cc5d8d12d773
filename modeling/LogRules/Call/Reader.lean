import LogRules.LexError
import LogRules.Text.Utf8
import LogRules.Value

/-! # Function calls

A call is written `NAME(argument, …)`. The name stands directly before the parenthesis and at least
one argument is needed. An argument in single quotes is a constant; a bare argument is a field when
it is a field name and a constant otherwise. -/

namespace LogRules

/-- A function with its arguments and the field that takes the result; the field is empty when the
text names none. -/
structure Invocation where
  target : String
  function : String
  args : List Value
  deriving DecidableEq, Repr, Inhabited

namespace Invocation

/-- The reserved function whose value is its only argument. -/
def constantFunction : String := "$CONSTANT"

/-- A token of a call. A quoted token holds the text between its quotes as it is written. -/
inductive Token where
  | openParen
  | closeParen
  | comma
  | quoted (body : List Char)
  | bare (text : List Char)
  deriving DecidableEq, Repr

/-- A token with the bytes it covers. The text of a call is taken to stay below 4 GiB: its places are kept in 32
bits, and are the numbers here as long as they fit. -/
structure Lexeme where
  token : Token
  start : Nat
  stop : Nat
  deriving DecidableEq, Repr

/-- White space between the tokens of a call. -/
def isGap (c : Char) : Bool := c == ' ' || c == '\t' || c == '\r' || c == '\n'

/-- A character of a bare token. -/
def isBareChar (c : Char) : Bool :=
  !(isGap c || c == ',' || c == '(' || c == ')' || c == '\'')

/-- The text up to the closing quote, and what follows it. A backslash takes the next character
with it, and that character is no line feed. -/
def quotedBody? : List Char → Option (List Char × List Char)
  | [] => none
  | '\'' :: rest => some ([], rest)
  | ['\\'] => none
  | '\\' :: c :: rest =>
    if c = '\n' then none
    else (quotedBody? rest).map fun (body, after) => ('\\' :: c :: body, after)
  | c :: rest => (quotedBody? rest).map fun (body, after) => (c :: body, after)

/-- The closing quote ends the body. -/
theorem eq_append_of_quotedBody? {cs body after : List Char}
    (h : quotedBody? cs = some (body, after)) : cs = body ++ '\'' :: after := by
  fun_induction quotedBody? cs generalizing body with
  | case1 => simp at h
  | case2 rest =>
    obtain ⟨rfl, rfl⟩ := Prod.mk.inj (Option.some.inj h)
    rfl
  | case3 => simp at h
  | case4 => simp at h
  | case5 c rest hc ih =>
    obtain ⟨⟨body', after'⟩, hrest, hpair⟩ := Option.map_eq_some_iff.1 h
    obtain ⟨rfl, rfl⟩ := Prod.mk.inj hpair
    rw [ih hrest]
    rfl
  | case6 c rest _ _ _ ih =>
    obtain ⟨⟨body', after'⟩, hrest, hpair⟩ := Option.map_eq_some_iff.1 h
    obtain ⟨rfl, rfl⟩ := Prod.mk.inj hpair
    rw [ih hrest]
    rfl

/-- The tokens of a text whose first byte is at `offset`. -/
def lexemes (offset : Nat) : List Char → Except LexError (List Lexeme)
  | [] => .ok []
  | c :: rest =>
    if isGap c then lexemes (offset + 1) rest
    else if c = '(' then (⟨.openParen, offset, offset + 1⟩ :: ·) <$> lexemes (offset + 1) rest
    else if c = ')' then (⟨.closeParen, offset, offset + 1⟩ :: ·) <$> lexemes (offset + 1) rest
    else if c = ',' then (⟨.comma, offset, offset + 1⟩ :: ·) <$> lexemes (offset + 1) rest
    else if c = '\'' then
      match h : quotedBody? rest with
      | none => .error ⟨.unterminatedQuote, offset⟩
      | some (body, after) =>
        have : after.length < rest.length := by
          rw [eq_append_of_quotedBody? h]
          simp
          omega
        let stop := offset + Text.byteLength body + 2
        (⟨.quoted body, offset, stop⟩ :: ·) <$> lexemes stop after
    else
      let text := c :: rest.takeWhile isBareChar
      let stop := offset + Text.byteLength text
      have : (rest.dropWhile isBareChar).length ≤ rest.length :=
        (List.dropWhile_suffix isBareChar).length_le
      (⟨.bare text, offset, stop⟩ :: ·) <$> lexemes stop (rest.dropWhile isBareChar)
termination_by cs => cs.length
decreasing_by all_goals simp only [List.length_cons]; omega

/-- Undoes the escapes of a quoted argument: a doubled backslash and a backslash before a quote.
Every other backslash stays. -/
def unescape : List Char → List Char
  | '\\' :: '\\' :: rest => '\\' :: unescape rest
  | '\\' :: '\'' :: rest => '\'' :: unescape rest
  | '\\' :: c :: rest => '\\' :: c :: unescape rest
  | c :: rest => c :: unescape rest
  | [] => []

/-- The value of a bare argument. -/
def bareValue (text : String) : Value :=
  if isFieldName text then .field text else .constant text

/-- The value of a token that can be an argument. -/
def argument? : Token → Option Value
  | .quoted body => some (.constant (String.ofList (unescape body)))
  | .bare text => some (bareValue (String.ofList text))
  | _ => none

/-- Reads the arguments after the opening parenthesis of a call. The text ends at byte `size`. -/
def readArgs (size : Nat) : List Lexeme → Except LexError (List Value)
  | [] => .error ⟨.unexpectedEnd, size⟩
  | arg :: rest =>
    match argument? arg.token with
    | none => .error ⟨.expectedArgument, arg.start⟩
    | some value =>
      match rest with
      | [] => .error ⟨.unexpectedEnd, size⟩
      | ⟨.comma, _, _⟩ :: rest => (value :: ·) <$> readArgs size rest
      | [⟨.closeParen, _, _⟩] => .ok [value]
      | ⟨.closeParen, _, _⟩ :: extra :: _ => .error ⟨.trailingCharacters, extra.start⟩
      | separator :: _ => .error ⟨.expectedSeparator, separator.start⟩

/-- Reads a call from its tokens. The text ends at byte `size`. -/
def ofLexemes (size : Nat) : List Lexeme → Except LexError Invocation
  | [] => .error ⟨.unexpectedEnd, size⟩
  | ⟨.bare name, _, stop⟩ :: rest =>
    match rest with
    | ⟨.openParen, start, _⟩ :: args =>
      if start = stop then (⟨"", String.ofList name, ·⟩) <$> readArgs size args
      else .error ⟨.expectedParen, stop⟩
    | _ => .error ⟨.expectedParen, stop⟩
  | first :: _ => .error ⟨.unexpectedCharacter, first.start⟩

/-- Reads a call. -/
def readCall (cs : List Char) : Except LexError Invocation := do
  ofLexemes (Text.byteLength cs) (← lexemes 0 cs)

end Invocation

end LogRules

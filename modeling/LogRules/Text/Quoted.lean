import LogRules.Text.Unprintable

/-! # Quoted text

A quoted text stands between double quotes. Quote, backslash and the usual controls are written
with a backslash, and every other character that does not print as its code point in braces. -/

namespace LogRules.Text

/-- The code point of a character in hexadecimal digits. -/
def hexDigits (c : Char) : List Char := Nat.toDigits 16 c.toNat

/-- One character of a quoted text. -/
def quotedChar (c : Char) : List Char :=
  if c = '"' then ['\\', '"']
  else if c = '\\' then ['\\', '\\']
  else if c = '\n' then ['\\', 'n']
  else if c = '\r' then ['\\', 'r']
  else if c = '\t' then ['\\', 't']
  else if c = '\x00' then ['\\', '0']
  else if isUnprintable c then ['\\', 'u', '\x7b'] ++ hexDigits c ++ ['\x7d']
  else [c]

/-- The text between double quotes, with escapes for what does not print. -/
def quoted (s : String) : String :=
  String.ofList ('"' :: s.toList.flatMap quotedChar ++ ['"'])

/-- A list of quoted texts in brackets. -/
def quotedList (texts : List String) : String :=
  "[" ++ String.intercalate ", " (texts.map quoted) ++ "]"

/-- An optional text: `None`, or the quoted text in `Some( )`. -/
def quotedOption : Option String → String
  | none => "None"
  | some text => "Some(" ++ quoted text ++ ")"

end LogRules.Text

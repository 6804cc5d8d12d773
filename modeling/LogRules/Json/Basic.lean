/-! # JSON values and their text

A `Json` value keeps the members of an object in order and the literal of a number. `compact` writes
a value without white space, `pretty` with one member or element on a line and two spaces for every
level. In a string only the quote, the backslash and the controls below U+0020 are escaped. -/

namespace LogRules

/-- A JSON value. -/
inductive Json where
  | null
  | bool (b : Bool)
  /-- A number with its literal. -/
  | number (literal : String)
  | string (s : String)
  | array (elements : List Json)
  | object (members : List (String × Json))
  deriving Inhabited

namespace Json

/-- An integer. -/
def ofInt (n : Int) : Json := number (toString n)

/-- A natural number. -/
def ofNat (n : Nat) : Json := number (toString n)

/-- An optional value; `null` stands for none. -/
def ofOption {α : Type} (f : α → Json) : Option α → Json
  | none => null
  | some a => f a

/-- An array of values. -/
def ofList {α : Type} (f : α → Json) (l : List α) : Json := array (l.map f)

/-- The member of an object with this name. -/
def get? (name : String) : Json → Option Json
  | object members => List.lookup name members
  | _ => none

/-! ### Writing -/

/-- A control character by its code point. -/
def controlEscape (c : Char) : List Char :=
  let digits := Nat.toDigits 16 c.toNat
  ['\\', 'u'] ++ List.replicate (4 - digits.length) '0' ++ digits

/-- One character of a string. -/
def escapedChar (c : Char) : List Char :=
  if c = '"' then ['\\', '"']
  else if c = '\\' then ['\\', '\\']
  else if c = '\x08' then ['\\', 'b']
  else if c = '\t' then ['\\', 't']
  else if c = '\n' then ['\\', 'n']
  else if c = '\x0c' then ['\\', 'f']
  else if c = '\r' then ['\\', 'r']
  else if c.toNat < 0x20 then controlEscape c
  else [c]

/-- The text of a string. -/
def stringText (s : String) : String :=
  String.ofList ('"' :: s.toList.flatMap escapedChar ++ ['"'])

mutual
/-- The text of a value without white space. -/
def compact : Json → String
  | null => "null"
  | bool true => "true"
  | bool false => "false"
  | number literal => literal
  | string s => stringText s
  | array elements => "[" ++ String.intercalate "," (compactElements elements) ++ "]"
  | object members => "\x7b" ++ String.intercalate "," (compactMembers members) ++ "\x7d"

/-- The texts of the elements of an array. -/
def compactElements : List Json → List String
  | [] => []
  | v :: rest => compact v :: compactElements rest

/-- The texts of the members of an object. -/
def compactMembers : List (String × Json) → List String
  | [] => []
  | (name, v) :: rest => (stringText name ++ ":" ++ compact v) :: compactMembers rest
end

/-- The start of a line at a level of nesting. -/
def newLine (level : Nat) : String := "\n" ++ String.ofList (List.replicate (2 * level) ' ')

/-- Parts in brackets on lines of their own; nothing stands between brackets without parts. -/
def block (level : Nat) (opening closing : String) (parts : List String) : String :=
  if parts.isEmpty then opening ++ closing
  else
    opening ++ newLine (level + 1) ++ String.intercalate ("," ++ newLine (level + 1)) parts
      ++ newLine level ++ closing

mutual
/-- The text of a value at a level of nesting, one part on a line. -/
def prettyAt (level : Nat) : Json → String
  | array elements => block level "[" "]" (prettyElements (level + 1) elements)
  | object members => block level "\x7b" "\x7d" (prettyMembers (level + 1) members)
  | null => "null"
  | bool true => "true"
  | bool false => "false"
  | number literal => literal
  | string s => stringText s

/-- The texts of the elements of an array. -/
def prettyElements (level : Nat) : List Json → List String
  | [] => []
  | v :: rest => prettyAt level v :: prettyElements level rest

/-- The texts of the members of an object. -/
def prettyMembers (level : Nat) : List (String × Json) → List String
  | [] => []
  | (name, v) :: rest => (stringText name ++ ": " ++ prettyAt level v) :: prettyMembers level rest
end

/-- The text of a value, one part on a line. -/
def pretty (v : Json) : String := prettyAt 0 v

end Json

end LogRules

/-! # White space

`isBlank` is the Unicode property `White_Space`; `trim` removes it from both ends of a text. The
rule languages skip ASCII white space only. -/

namespace LogRules.Text

/-- White space of Unicode. -/
def isBlank (c : Char) : Bool :=
  let n := c.toNat
  (0x9 ≤ n && n ≤ 0xD) || n == 0x20 || n == 0x85 || n == 0xA0 || n == 0x1680
    || (0x2000 ≤ n && n ≤ 0x200A) || n == 0x2028 || n == 0x2029 || n == 0x202F || n == 0x205F
    || n == 0x3000

/-- White space of ASCII: space, tab, line feed, form feed and carriage return. -/
def isAsciiBlank (c : Char) : Bool :=
  c == ' ' || c == '\t' || c == '\n' || c == '\x0c' || c == '\r'

/-- Removes white space in front. -/
def trimStart (cs : List Char) : List Char := cs.dropWhile isBlank

/-- Removes white space behind. -/
def trimEnd (cs : List Char) : List Char := (cs.reverse.dropWhile isBlank).reverse

/-- Removes white space on both sides. -/
def trim (cs : List Char) : List Char := trimEnd (trimStart cs)

/-- Removes white space on both sides of a text. -/
def trimmed (s : String) : String := String.ofList (trim s.toList)

/-- The text holds nothing but white space. -/
def isBlankText (s : String) : Bool := s.toList.all isBlank

end LogRules.Text

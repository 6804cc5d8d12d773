import LogRules.Diagnostic.Basic

/-! # Rows

A row of a terminal is a list of cells, and a cell is a character in a style. Text is put at a
column and covers what stands there, whatever the widths of the characters are. Styles become
terminal colours or are dropped when a row is rendered. -/

namespace LogRules

/-! ### Styles -/

/-- How a character is shown. -/
inductive Style where
  | plain
  /-- Line numbers, frame and dots for what is left out. -/
  | frame
  /-- The message after the label. -/
  | title
  /-- The label and the marks. -/
  | level (s : Severity)
  deriving DecidableEq, Repr, Inhabited

/-- The escape sequence of a terminal with this code. -/
def terminalCode (code : String) : String := "\x1b[" ++ code ++ "m"

namespace Style

/-- The codes that switch a style on. -/
def codes : Style → String
  | plain => ""
  | frame => terminalCode "1" ++ terminalCode "94"
  | title => terminalCode "1"
  | level .error => terminalCode "1" ++ terminalCode "91"
  | level .warning => terminalCode "1" ++ terminalCode "33"

/-- A text in a style. -/
def wrap (colored : Bool) (style : Style) (text : String) : String :=
  if !colored || style == .plain || text.isEmpty then text
  else style.codes ++ text ++ terminalCode "0"

end Style

/-! ### Cells -/

/-- A character in a style. -/
structure Cell where
  char : Char
  style : Style
  deriving DecidableEq, Repr, Inhabited

/-- The cell of a column that nothing is put into. -/
def Cell.blank : Cell := ⟨' ', .plain⟩

/-- The cells of a row from left to right. -/
abbrev Row := List Cell

namespace Row

/-- Text in a style. -/
def ofText (style : Style) (text : List Char) : Row := text.map fun c => ⟨c, style⟩

/-- Puts cells at a column. They cover what stands there, and blanks fill a gap in front of them. -/
def put (row : Row) (column : Nat) (cells : Row) : Row :=
  if cells.isEmpty then row
  else
    row.take column ++ List.replicate (column - row.length) Cell.blank
      ++ cells ++ row.drop (column + cells.length)

/-- The dots for what is left out. -/
def dots : Row := ofText .frame ['.', '.', '.']

/-- Replaces the cells between two columns by dots. Nothing happens in a row that does not reach as
far as that. -/
def elide (row : Row) (start stop : Nat) : Row :=
  if start = stop || row.length < start || row.length < stop then row
  else row.take start ++ dots ++ row.drop stop

/-! ### Rendering -/

/-- The longest runs of cells in one style. -/
def runs : Row → List (Style × List Char)
  | [] => []
  | cell :: rest =>
    match runs rest with
    | [] => [(cell.style, [cell.char])]
    | (style, chars) :: more =>
      if style = cell.style then (style, cell.char :: chars) :: more
      else (cell.style, [cell.char]) :: (style, chars) :: more

/-- The text of a row. -/
def render (colored : Bool) (row : Row) : String :=
  String.join (row.runs.map fun (style, chars) => style.wrap colored (String.ofList chars))

end Row

end LogRules

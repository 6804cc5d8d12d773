import LogRules.Diagnostic.Window

/-! # Snippets

A diagnostic that points into a text is shown with the lines it points to and marks under them. A
range within one line is underlined. A range over several lines has a bar on the left that joins
its first line to its last. The text is taken apart at the ends of the range, so nothing is shown
for a range that starts or ends inside of a character. -/

namespace LogRules.Snippet

open Excerpt

/-- The columns of a terminal. -/
def terminalWidth : Nat := 140

/-! ### Columns

A row starts with the digits of a line number and the frame. The bar of a range over several lines
and the text stand behind them. -/

/-- Puts characters in a style at a column. -/
def draw (column : Nat) (style : Style) (text : List Char) (row : Row) : Row :=
  row.put column (Row.ofText style text)

/-- The column of the bar. -/
def barColumn (digits : Nat) : Nat := digits + 3

/-- The frame to the left of a row without a line number. -/
def frameRow (digits : Nat) : Row := draw (digits + 1) .frame ['|'] []

/-- The frame to the left of a line. Numbers stand on the right of their columns; a number with one
digit more takes the place of the blank behind them. -/
def numberRow (digits number : Nat) : Row :=
  let text := (toString number).toList
  let padded := List.replicate (digits - text.length) ' ' ++ text
  draw (digits + 1) .frame ['|'] (draw 0 .frame padded [])

/-- The column of a label behind marks that end at a column. -/
def labelColumn (stop left : Nat) : Nat := (if stop = 0 then 2 else stop + 1) - left

/-! ### A range within one line -/

/-- Replaces the middle of a row by dots when the marks are wider than two windows. A third of a
window is kept on both sides. -/
def elideMarks (column start stop left space : Nat) (row : Row) : Row :=
  if stop - start > 2 * space then
    let kept := max (space / 3) 5
    row.elide (column + start + kept - left) (column + stop - kept - left)
  else row

/-- The rows of a range within one line. -/
def lineRows (s : Severity) (label : String) (digits : Nat) (start stop : Place) : List Row :=
  let column := digits + 3
  let space := terminalWidth - column
  let line := start.line.chars
  let last := if stop.column = start.column then start.column + 1 else stop.column
  let window := Window.ofMarks [line] [start.column, last]
    (last + widthOf label.toList + 1) space
  let left := window.cutLeft line
  let source := window.putLine column line (numberRow digits start.line.number)
  let marks := draw (column + start.column - left) (.level s)
    (List.replicate (last - start.column) '^') (frameRow digits)
  let marks := draw (column + labelColumn last left) (.level s) label.toList marks
  [source, marks].map (elideMarks column start.column last left space)

/-! ### A range over several lines -/

/-- Puts the bar of a range over several lines. -/
def drawBar (s : Severity) (digits : Nat) (row : Row) : Row :=
  draw (barColumn digits) (.level s) ['|'] row

/-- Puts a corner at the bar, a line from there to a mark, and the mark. -/
def drawHook (s : Severity) (digits : Nat) (corner : Char) (mark : Nat) (row : Row) : Row :=
  let start := barColumn digits
  let row := draw start (.level s) (corner :: List.replicate (mark - (start + 1)) '_') row
  draw mark (.level s) ['^'] row

/-- The rows of a range over several lines. Only its first and its last line have marks. -/
def blockRows (s : Severity) (label : String) (digits : Nat) (lines : List Line)
    (start stop : Place) : List Row :=
  let column := digits + 5
  let first := start.line.number
  let last := stop.line.number
  let inner := innerLines lines first last
  let marks := [start.column, start.column + 1, stop.column - 1, stop.column]
  let window := Window.ofMarks ((start.line :: inner ++ [stop.line]).map (·.chars)) marks
    (max (start.column + 1) (stop.column + widthOf label.toList + 1)) (terminalWidth - column)
  let row (l : Line) : Row := window.putLine column l.chars (numberRow digits l.number)
  let startLeft := window.cutLeft start.line.chars
  let stopLeft := window.cutLeft stop.line.chars
  let opening : List Row :=
    if ((shown start.line.chars).take start.column).all Text.isBlank then
      [draw (barColumn digits) (.level s) ['/'] (row start.line)]
    else
      [row start.line,
        drawHook s digits ' ' (column + start.column - startLeft) (frameRow digits)]
  let parts := (joined lines first inner last).map fun
    | .line l => row l
    | .gap => Row.dots
  let closing := drawHook s digits '|' (column + (stop.column - 1) - stopLeft) (frameRow digits)
  let closing := draw (column + labelColumn stop.column stopLeft) (.level s) label.toList closing
  opening ++ (parts ++ [row stop.line]).map (drawBar s digits) ++ [closing]

/-! ### Diagnostics -/

/-- The range to mark: an empty range takes one byte if the text goes on. -/
def markedRange (span : Span) : Nat × Nat :=
  if span.start = span.stop then
    (span.start, min (span.start + 1) (Text.byteLength span.text.toList))
  else (span.start, span.stop)

/-- Why there is no snippet: a byte of the text that is not the first one of a character. -/
structure Fault where
  byte : Nat
  deriving DecidableEq, Repr, Inhabited

/-- A fault in words. -/
def Fault.message (e : Fault) : String :=
  "byte index " ++ toString e.byte ++ " is not a char boundary"

/-- The ends of the marked range have to be ends of characters. -/
def checkRange (span : Span) : Except Fault Unit :=
  let (first, last) := markedRange span
  match [first, last].find? fun byte => !canCut byte span.text.toList with
  | some byte => .error ⟨byte⟩
  | none => .ok ()

/-- The rows of the label and the message. Further lines of a message are indented, empty ones
too. -/
def titleRows (d : Diagnostic) : List Row :=
  let label := d.severity.label.toList
  let lines := (String.ofList (shown d.message.toList)).splitOn "\n"
  match lines with
  | [] => []
  | first :: rest =>
    (Row.ofText (.level d.severity) label ++ Row.ofText .title (": " ++ first).toList) ::
      rest.map fun line =>
        List.replicate (label.length + 2) Cell.blank ++ Row.ofText .title line.toList

/-- The row of the place that a diagnostic points to. -/
def placeRow (digits : Nat) (loc : SourceLoc) (start : Place) : Row :=
  let place := loc.render ++ ":" ++ toString start.line.number ++ ":" ++ toString (start.char + 1)
  draw (digits + 4) .plain place.toList (draw digits .frame "--> ".toList [])

/-- The rows of a diagnostic that points into a text. The digits are those of the number of lines
up to the end of the range; a line that starts there does not count. -/
def rows (d : Diagnostic) (span : Span) : List Row :=
  let text := span.text.toList
  let lines := linesOf text
  let (first, last) := markedRange span
  let start := startPlace lines first
  let stop := if first = last then start else stopPlace lines start.line last
  let digits := (toString (linesOf (takeBytes last text)).length).length
  let label := d.kind.summary
  let marked :=
    if start.line.number = stop.line.number then lineRows d.severity label digits start stop
    else blockRows d.severity label digits lines start stop
  titleRows d ++ (d.loc.toList.map (placeRow digits · start)) ++ frameRow digits :: marked

end LogRules.Snippet

namespace LogRules.Diagnostic

/-- A diagnostic with its snippet, if it has one and snippets are asked for. -/
def renderSnippet (colored snippets : Bool) (d : Diagnostic) : Except Snippet.Fault String :=
  match d.span with
  | some span =>
    if snippets then do
      Snippet.checkRange span
      return String.intercalate "\n" ((Snippet.rows d span).map (Row.render colored))
    else .ok d.render
  | none => .ok d.render

/-- Diagnostics one after the other. -/
def renderAll (colored snippets : Bool) (ds : List Diagnostic) : Except Snippet.Fault String := do
  return String.intercalate "\n" (← ds.mapM (renderSnippet colored snippets))

end LogRules.Diagnostic

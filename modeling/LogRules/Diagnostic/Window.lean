import LogRules.Diagnostic.Excerpt
import LogRules.Diagnostic.Row

/-! # Windows

A long line is cut so that its marks stay in view. A window holds the columns that are shown; dots
take the place of what is cut on either side. -/

namespace LogRules

open Excerpt

/-- The columns of the lines that are shown: from `left` to `right`, when a line does not fit the
space behind `left`. -/
structure Window where
  left : Nat
  right : Nat
  space : Nat
  deriving DecidableEq, Repr, Inhabited

namespace Window

/-- The columns to show, given the columns of the least indentation, of the first and the last mark,
of the end of the label, and of the longest line. White space up to a mark is not cut. -/
def fit (indentation markLeft markRight labelRight longest space : Nat) : Window :=
  let blank := min indentation markLeft - 6
  let markLeft := markLeft - 6
  let markRight := markRight + 6
  let labelRight := labelRight + 6
  let left := if blank > 20 then blank - 16 else 0
  let right := max longest left
  if right - left ≤ space then ⟨left, right, space⟩
  else if labelRight - blank ≤ space then ⟨blank, blank + space, space⟩
  else if labelRight - markLeft ≤ space then
    let left := markLeft - (space - (labelRight - markLeft)) / 2
    ⟨left, left + space, space⟩
  else if markRight - markLeft ≤ space then
    let left := markLeft - (space - (markRight - markLeft)) / 5 * 2
    ⟨left, left + space, space⟩
  else ⟨markLeft, markRight, space⟩

/-- The width of white space in front of a line, where only a tab is wider than one column; `none`
when nothing else stands there. -/
def indentation? (cs : List Char) : Option Nat :=
  if cs.all Text.isBlank then none
  else
    let spaces := cs.takeWhile Text.isBlank
    some (spaces.length + 3 * spaces.count '\t')

/-- The window for lines with marks at some columns and the end of the label at another. -/
def ofMarks (lines : List (List Char)) (marks : List Nat) (labelRight space : Nat) : Window :=
  fit ((lines.filterMap indentation?).min?.getD 0) (marks.min?.getD 0) (marks.max?.getD 0)
    labelRight ((lines.map widthOf).max?.getD 0) space

/-! ### Cutting -/

/-- Skips characters until at least `n` columns are skipped. Yields the columns that were skipped
and the other characters. -/
def skipColumns : Nat → List Char → Nat × List Char
  | 0, cs => (0, cs)
  | _, [] => (0, [])
  | n + 1, c :: cs =>
    let (skipped, rest) := skipColumns (n + 1 - width c) cs
    (width c + skipped, rest)

/-- Takes the characters of the first columns. -/
def takeColumns : Nat → List Char → List Char
  | _, [] => []
  | n, c :: cs => if width c ≤ n then c :: takeColumns (n - width c) cs else []

/-- The shortest beginning of a text that takes at least three columns, or all of it. -/
def threeColumns : Nat → List Char → List Char
  | _, [] => []
  | n, c :: cs => if n + width c ≥ 3 then [c] else c :: threeColumns (n + width c) cs

/-- The columns that are cut on the left of a line, and the text behind them. A character that is
cut in half is cut. -/
def skip (w : Window) (line : List Char) : Nat × List Char :=
  let text := shown line
  let left := min w.left (widthOf text)
  let (skipped, rest) := skipColumns left text
  (max left skipped, rest)

/-- The columns that are cut on the left of a line. -/
def cutLeft (w : Window) (line : List Char) : Nat := (w.skip line).1

/-- Puts the part of a line that is shown at a column. Dots cover the characters at a cut. -/
def putLine (w : Window) (column : Nat) (line : List Char) (row : Row) : Row :=
  let size := widthOf (shown line)
  let right := if size - w.left ≤ w.space then size else min size w.right
  let code := takeColumns (right - min w.left size) (w.skip line).2
  let hidden := if w.left > 0 then threeColumns 0 code else []
  let start := column + widthOf hidden
  let visible := code.drop hidden.length
  let row := if w.left > 0 then row.put column Row.dots else row
  let row := row.put start (Row.ofText .plain visible)
  if size > right then
    row.put (start + visible.length - (threeColumns 0 code.reverse).length) Row.dots
  else row

end Window

end LogRules

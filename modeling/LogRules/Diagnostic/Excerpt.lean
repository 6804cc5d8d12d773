import LogRules.Text.Blank
import LogRules.Text.Utf8
import LogRules.Text.Width

/-! # Excerpts

The lines of a text, the places of a range of bytes in them, and the lines that are shown for a
range. Of a long range the first lines and the last ones are shown. -/

namespace LogRules.Excerpt

/-! ### Characters -/

/-- Control characters that change the direction of text. -/
def isDirectional (c : Char) : Bool :=
  let n := c.toNat
  (0x202A ≤ n && n ≤ 0x202E) || (0x2066 ≤ n && n ≤ 0x2069)

/-- What is shown for a character: pictures of controls, four spaces for a tab, nothing for a
joiner. -/
def shownChar (c : Char) : List Char :=
  if c = '\t' then [' ', ' ', ' ', ' ']
  else if c = '\n' then ['\n']
  else if c.toNat < 0x20 then [Char.ofNat (0x2400 + c.toNat)]
  else if c = '\x7f' then ['\u2421']
  else if c = '\u200d' then []
  else if isDirectional c then [Text.replacement]
  else [c]

/-- The text as it is shown. -/
def shown (cs : List Char) : List Char := cs.flatMap shownChar

/-- The columns a character takes when it is shown. -/
def width (c : Char) : Nat :=
  if c = '\t' then 4 else if isDirectional c then 1 else Text.columns c

/-- The columns a text takes when it is shown. -/
def widthOf (cs : List Char) : Nat := cs.foldr (fun c n => width c + n) 0

/-! ### Lines -/

/-- A line of a text: its number from 1, its characters, where it starts, where the next one
starts, and how many bytes end it. -/
structure Line where
  number : Nat
  chars : List Char
  start : Nat
  stop : Nat
  ending : Nat
  deriving Repr

/-- Takes a line and its end from the front of a text. -/
def takeLine : List Char → List Char × Nat × List Char
  | [] => ([], 0, [])
  | '\n' :: rest => ([], 1, rest)
  | '\r' :: '\n' :: rest => ([], 2, rest)
  | c :: rest =>
    let (line, ending, after) := takeLine rest
    (c :: line, ending, after)

/-- At most `bound` lines of a text, from a line number and a byte offset on. -/
def linesFrom : Nat → Nat → Nat → List Char → List Line
  | 0, _, _, _ => []
  | _, _, _, [] => []
  | bound + 1, number, start, cs =>
    let (line, ending, rest) := takeLine cs
    let stop := start + Text.byteLength line + ending
    ⟨number, line, start, stop, ending⟩ :: linesFrom bound (number + 1) stop rest

/-- The lines of a text. The empty text has one empty line. -/
def linesOf (cs : List Char) : List Line :=
  if cs.isEmpty then [⟨1, [], 0, 0, 0⟩] else linesFrom cs.length 1 0 cs

/-! ### Places -/

/-- The longest beginning of a text with at most `n` bytes. -/
def takeBytes : Nat → List Char → List Char
  | _, [] => []
  | n, c :: cs => if c.utf8Size ≤ n then c :: takeBytes (n - c.utf8Size) cs else []

/-- A text can be taken apart in front of this byte: it is the first one of a character, or behind the
text. -/
def canCut : Nat → List Char → Bool
  | _, [] => true
  | 0, _ :: _ => true
  | n, c :: cs => c.utf8Size ≤ n && canCut (n - c.utf8Size) cs

/-- A place in a text: its line, its character and its column there, both from 0. -/
structure Place where
  line : Line
  char : Nat
  column : Nat
  deriving Repr

/-- The line that holds a byte; the last line for a byte behind the text. -/
def lineAt (lines : List Line) (byte : Nat) : Line :=
  match lines.find? fun l => l.start ≤ byte && byte < l.stop with
  | some l => l
  | none => lines.getLast?.getD ⟨1, [], 0, 0, 0⟩

/-- The place where a range starts. -/
def startPlace (lines : List Line) (byte : Nat) : Place :=
  let line := lineAt lines byte
  let before := takeBytes (byte - line.start) line.chars
  let behind := if byte - line.start > Text.byteLength line.chars then 1 else 0
  ⟨line, before.length + behind, widthOf before⟩

/-- The place where a range ends that started in a line. -/
def stopPlace (lines : List Line) (first : Line) (byte : Nat) : Place :=
  let line := lineAt lines byte
  let before := takeBytes (byte - line.start) line.chars
  let behind := if line.number != first.number && byte > line.stop - line.ending then 1 else 0
  ⟨line, before.length + behind, widthOf before + behind⟩

/-! ### Lines that are shown -/

/-- The line is a comment. Comments that document something do not count. -/
def isComment : List Char → Bool
  | '/' :: '/' :: '/' :: _ => false
  | '/' :: '/' :: '!' :: _ => false
  | '/' :: '/' :: _ => true
  | _ => false

/-- The line says little: it is blank, a comment or a single bracket. -/
def isMinor (line : Line) : Bool :=
  let cs := Text.trim line.chars
  isComment cs || match cs with
    | [] => true
    | [c] => ['\x7b', '\x7d', '(', ')', '[', ']'].contains c
    | _ => false

/-- The lines that are shown behind the first line of a range: at most three, less the minor lines
at their end. -/
def headLines (lines : List Line) (first last : Nat) : List Line :=
  let near := lines.filter fun l => first < l.number && l.number < min (first + 4) last
  (near.reverse.dropWhile isMinor).reverse

/-- The line in front of the last one, which is shown when it is far from the first one and not
minor. -/
def tailLines (lines : List Line) (first last : Nat) : List Line :=
  if first + 4 < last - 1 then lines.filter fun l => l.number = last - 1 && !isMinor l else []

/-- The lines between the first and the last line of a range that are shown. -/
def innerLines (lines : List Line) (first last : Nat) : List Line :=
  headLines lines first last ++ tailLines lines first last

/-- A part of an excerpt. -/
inductive Part where
  | line (l : Line)
  /-- Lines that are left out. -/
  | gap
  deriving Repr

/-- What stands between two lines: a single line is shown, more are left out. -/
def between (lines : List Line) (first last : Nat) : List Part :=
  if last - first = 2 then (lines.filter (·.number = first + 1)).map .line
  else if 2 < last - first then [.gap]
  else []

/-- Lines behind a line, with what stands between them, up to a last line. -/
def joined (lines : List Line) : Nat → List Line → Nat → List Part
  | before, [], last => between lines before last
  | before, l :: rest, last =>
    between lines before l.number ++ .line l :: joined lines l.number rest last

end LogRules.Excerpt

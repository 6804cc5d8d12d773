import LogRules.LexError
import LogRules.Text.Utf8

/-! # Groups of alternatives in pattern text

A source text is split into plain text and groups `{a|b|c}`. Outside of a group `{{` stands for one
brace. A group holds no further brace, has no empty branch and must be closed. Each piece knows its
place in the source, so that an error inside of it can be reported there. -/

namespace LogRules.Pattern

/-- A piece of text and where it starts in the source. -/
structure Chunk where
  text : String
  offset : Nat
  /-- The byte positions in `text` of the braces that were doubled in the source. -/
  escapes : List Nat
  deriving DecidableEq, Repr, Inhabited

/-- Characters side by side. The flag of a brace says that it is doubled in the source. -/
abbrev Run := List (Char × Bool)

namespace Chunk

/-- The byte positions of the braces that are doubled in the source, in a run from byte `position`
on. -/
def escapePositions (position : Nat) : Run → List Nat
  | [] => []
  | (c, isDoubled) :: rest =>
    let others := escapePositions (position + c.utf8Size) rest
    if isDoubled then position :: others else others

/-- The piece of a run that starts at a byte offset of the source. -/
def ofRun (offset : Nat) (run : Run) : Chunk :=
  ⟨String.ofList (run.map Prod.fst), offset, escapePositions 0 run⟩

/-- The place in the source of a byte position of the piece. -/
def sourceOffset (chunk : Chunk) (position : Nat) : Nat :=
  chunk.offset + position + chunk.escapes.countP (· < position)

/-- Moves an error in the piece to its place in the source. -/
def locate (chunk : Chunk) (e : LexError) : LexError := ⟨e.cause, chunk.sourceOffset e.offset⟩

end Chunk

/-- Plain text, or the branches of a group. -/
inductive Segment where
  | text (chunk : Chunk)
  | alternatives (branches : List Chunk)
  deriving DecidableEq, Repr, Inhabited

namespace Segment

/-- Segments behind a run of plain text that starts at a byte offset. The run is one segment, unless
it is empty. -/
def behindRun (offset : Nat) (run : Run) (segments : List Segment) : List Segment :=
  if run.isEmpty then segments else .text (.ofRun offset run) :: segments

/-- What is read from a place in a group on: the rest of the branch, the branches behind it, and
the segments behind the group. -/
structure GroupRest where
  run : Run
  branches : List Chunk
  segments : List Segment
  deriving Inhabited

mutual
/-- Splits the text from byte `position` on, outside of a group: the run of plain text at the front,
and the segments behind it. -/
def splitText (position : Nat) : List Char → Except LexError (Run × List Segment)
  | [] => .ok ([], [])
  | '{' :: '{' :: rest => do
    let (run, segments) ← splitText (position + 2) rest
    return (('{', true) :: run, segments)
  | '{' :: rest => do
    let group ← splitGroup position true (position + 1) rest
    let first := Chunk.ofRun (position + 1) group.run
    return ([], .alternatives (first :: group.branches) :: group.segments)
  | c :: rest => do
    let (run, segments) ← splitText (position + c.utf8Size) rest
    return ((c, false) :: run, segments)

/-- Splits the text from byte `position` on, inside of the group that opened at byte `start`. The
flag says that the branch has no character yet. -/
def splitGroup (start : Nat) (isFresh : Bool) (position : Nat) :
    List Char → Except LexError GroupRest
  | [] => .error ⟨.unterminatedGroup, start⟩
  | '{' :: _ => .error ⟨.nestedAlternatives, position⟩
  | '|' :: rest => do
    if isFresh then throw ⟨.emptyAlternative, position⟩
    let group ← splitGroup start true (position + 1) rest
    let next := Chunk.ofRun (position + 1) group.run
    return ⟨[], next :: group.branches, group.segments⟩
  | '}' :: rest => do
    if isFresh then throw ⟨.emptyAlternative, position⟩
    let (run, segments) ← splitText (position + 1) rest
    return ⟨[], [], behindRun (position + 1) run segments⟩
  | c :: rest => do
    let group ← splitGroup start false (position + c.utf8Size) rest
    return { group with run := (c, false) :: group.run }
end

/-- Splits a source text into plain text and groups. Text without braces is one segment, also when
it is empty. -/
def split (source : String) : Except LexError (List Segment) := do
  if source.isEmpty then return [.text (.ofRun 0 [])]
  let (run, segments) ← splitText 0 source.toList
  return behindRun 0 run segments

end Segment

end LogRules.Pattern

import LogRules.Matching.Basic

/-! # Running a matcher

The elements of an alternative are placed one after the other from the end of what was placed
before. A capture extends to the leftmost occurrence of the constant behind it, or to the end of
the message, and loses the spaces at its ends. In every chunk the first alternative that can be
placed is taken for good. -/

namespace LogRules

namespace Matching

/-- The bytes of a message that a field takes: from `start`, up to `stop` and without it. -/
structure Capture where
  field : String
  start : Nat
  stop : Nat
  deriving DecidableEq, Repr, Inhabited

/-- Where the elements of an alternative lie. -/
structure Placement where
  captures : List Capture
  /-- Where the payload starts, if the alternative says so. -/
  payload? : Option Nat
  /-- Where the next element may start. -/
  stop : Nat
  deriving DecidableEq, Repr, Inhabited

/-- The captured bytes of `text`, whose first byte is at `pos`. -/
def Capture.ofText (field : String) (pos : Nat) (text : List UInt8) : Capture :=
  let before := leadingSpaces text
  ⟨field, pos + before, pos + max before (text.length - trailingSpaces text)⟩

namespace Placement

/-- The placement of nothing. -/
def empty (pos : Nat) : Placement := ⟨[], none, pos⟩

/-- Puts a capture in front. -/
def consCapture (capture : Capture) (p : Placement) : Placement :=
  { p with captures := capture :: p.captures }

/-- Notes where the payload starts, unless a later element says so. -/
def consPayload (start : Nat) (p : Placement) : Placement :=
  { p with payload? := p.payload?.or (some start) }

/-- Puts the placement of the chunk before in front. The first chunk that says where the payload
starts decides. -/
def append (first second : Placement) : Placement :=
  ⟨first.captures ++ second.captures, first.payload?.or second.payload?, second.stop⟩

end Placement

/-- Notes that the payload starts with a capture and its spaces, if the capture is marked. -/
def markPayload (marked : Bool) (pos : Nat) (p : Placement) : Placement :=
  if marked then p.consPayload pos else p

/-- Places elements in front of `m`, the bytes of the message from `pos` on. The element before
ends at `exact`; the bytes from there to `pos` are spaces. -/
def place? : Elements → (pos exact : Nat) → List UInt8 → Option Placement
  | [], pos, _, _ => some (.empty pos)
  | .constant c :: rest, pos, _, m => do
    let n ← skip? c m
    place? rest (pos + n) (pos + n) (m.drop n)
  | .payload :: rest, pos, exact, m => (place? rest pos exact m).map (·.consPayload exact)
  | .capture field marked :: .constant c :: rest, pos, _, m => do
    let (start, length) ← find? c m
    let stop := start + length
    let spaces := leadingSpaces (m.drop stop)
    let p ← place? rest (pos + stop + spaces) (pos + stop) (m.drop (stop + spaces))
    return markPayload marked pos (p.consCapture (.ofText field pos (m.take start)))
  | .capture field marked :: rest, pos, _, m => do
    let stop := pos + m.length
    let p ← place? rest stop stop []
    return markPayload marked pos (p.consCapture (.ofText field pos m))

/-- The first of some alternatives that can be placed, with its number. -/
def chooseFrom? (pos : Nat) (m : List UInt8) :
    (number : Nat) → List Elements → Option (Nat × Placement)
  | _, [] => none
  | number, elements :: rest =>
    match place? elements pos pos m with
    | some p => some (number, p)
    | none => chooseFrom? pos m (number + 1) rest

/-- The first alternative of a chunk that can be placed, with its number. -/
def Chunk.choose? (chunk : Chunk) (pos : Nat) (m : List UInt8) : Option (Nat × Placement) :=
  chooseFrom? pos m 0 chunk.alternatives

/-- An alternative of a chunk that was tried. -/
structure Attempt where
  chunk : Nat
  alternative : Nat
  matched : Bool
  deriving DecidableEq, Repr, Inhabited

/-- The alternatives of a chunk that are tried before the alternative `count`. -/
def failures (chunk count : Nat) : List Attempt :=
  (List.range count).map fun i => ⟨chunk, i, false⟩

/-- Places chunks in front of `m`, the bytes of the message from `pos` on. -/
def placeChunks (number pos : Nat) (m : List UInt8) :
    List Chunk → List Attempt × Option Placement
  | [] => ([], some (.empty pos))
  | chunk :: rest =>
    match chunk.choose? pos m with
    | none => (failures number chunk.alternatives.length, none)
    | some (i, p) =>
      let (attempts, p?) := placeChunks (number + 1) p.stop (m.drop (p.stop - pos)) rest
      (failures number i ++ ⟨number, i, true⟩ :: attempts, p?.map p.append)

/-- What a matcher finds in a message. -/
structure Match where
  captures : List Capture
  /-- Where the message for the next rule starts. -/
  rest : Nat
  deriving DecidableEq, Repr, Inhabited

end Matching

namespace Matcher

open Matching

/-- The alternatives that are tried, and what the matcher finds. -/
def attempts (matcher : Matcher) (message : List UInt8) : List Attempt × Option Match :=
  let (tried, p?) := placeChunks 0 0 message matcher.chunks
  (tried, p?.map fun p =>
    ⟨p.captures, if matcher.fromStart then 0 else p.payload?.getD p.stop⟩)

/-- What the matcher finds in a message. -/
def run (matcher : Matcher) (message : List UInt8) : Option Match := (matcher.attempts message).2

end Matcher

end LogRules

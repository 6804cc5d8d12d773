import LogRules.Pattern.Lexeme
import LogRules.Pattern.Segment

/-! # Reading patterns

A pattern is read in two layers: the source is split into plain text and groups, and every piece is
read as pattern text without groups. An error in a piece is reported at its place in the source. -/

namespace LogRules.Pattern

/-- Reads one piece of a split source. -/
def readChunk (chunk : Chunk) : Except LexError Pattern :=
  (readPlain chunk.text.toList).mapError chunk.locate

/-- Reads one segment of a split source. -/
def readSegment : Segment → Except LexError Pattern
  | .text chunk => readChunk chunk
  | .alternatives branches => do
    let patterns ← branches.mapM readChunk
    return [.alternatives patterns]

/-- Reads a pattern with groups. -/
def read (source : String) : Except LexError Pattern := do
  let segments ← Segment.split source
  let patterns ← segments.mapM readSegment
  return patterns.flatten

end LogRules.Pattern

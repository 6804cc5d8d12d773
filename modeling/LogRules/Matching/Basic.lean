import LogRules.FieldName
import LogRules.Matching.Constant
import LogRules.Pattern.Basic
import LogRules.Text.Utf8

/-! # Matchers

A matcher is a pattern in the form in which it is run: chunks one after the other, each with its
alternatives. The items between two groups make a chunk with one alternative, a group makes a chunk
with one alternative for each branch. `ofPattern` refuses a pattern that no message could be cut
along. -/

namespace LogRules

namespace Matching

/-- One step of an alternative. -/
inductive Element where
  /-- A constant in normal form, never empty. -/
  | constant (bytes : List UInt8)
  /-- A capture. The payload starts with a marked capture and the spaces in front of it. -/
  | capture (field : String) (marked : Bool)
  /-- The payload starts right after the element before. -/
  | payload
  deriving DecidableEq, Repr, Inhabited

/-- The elements of one alternative. -/
abbrev Elements := List Element

/-- Alternatives that are tried in order. -/
structure Chunk where
  alternatives : List Elements
  deriving DecidableEq, Repr, Inhabited

end Matching

/-- A pattern that is ready to run. -/
structure Matcher where
  chunks : List Matching.Chunk
  /-- The payload is the whole message. -/
  fromStart : Bool
  deriving DecidableEq, Repr, Inhabited

/-- Why a pattern has no matcher. -/
inductive PatternError where
  | nestedAlternatives
  | payloadInAlternatives
  | multiplePayloads
  | payloadNotLast
  | adjacentCaptures (first second : String)
  | payloadNotCaptured (field : String)
  | payloadInSeveralChunks (field : String)
  | payloadNotInEveryAlternative (field : String)
  deriving DecidableEq, Repr, Inhabited

/-- The wording of a pattern error. -/
def PatternError.message : PatternError → String
  | nestedAlternatives => "found nested alternatives"
  | payloadInAlternatives => "found a payload definition inside alternatives"
  | multiplePayloads => "more than one payload field found"
  | payloadNotLast => "payload definition is not the last element in the pattern"
  | adjacentCaptures first second =>
    "captures `" ++ first ++ "` and `" ++ second ++ "` are not separated by a constant"
  | payloadNotCaptured field => "payload field `" ++ field ++ "` is never captured"
  | payloadInSeveralChunks field =>
    "payload field `" ++ field ++ "` appears in more than one chunk"
  | payloadNotInEveryAlternative field =>
    "not all alternatives capture payload field `" ++ field ++ "`"

namespace Matching

/-! ### Elements of a pattern -/

/-- The elements of a constant: none for an empty one. -/
def ofConstant (text : String) : Elements :=
  let bytes := normalize (Text.encode text)
  if bytes.isEmpty then [] else [.constant bytes]

/-- The elements of a value. Only a payload marker outside of the groups has a meaning. -/
def ofValue : Value → Except PatternError Elements
  | .constant text => .ok (ofConstant text)
  | .field name => .ok [.capture name false]
  | .payload _ => .error .payloadInAlternatives

/-- The elements of an item of a branch. -/
def ofBranchItem : PatternItem → Except PatternError Elements
  | .value v => ofValue v
  | .alternatives _ => .error .nestedAlternatives

/-- The elements of a branch. -/
def ofBranch (branch : Pattern) : Except PatternError Elements :=
  List.flatten <$> branch.mapM ofBranchItem

/-- A chunk for the elements between two groups; none when there are no elements. -/
def plainChunk (elements : Elements) : List Chunk :=
  if elements.isEmpty then [] else [⟨[elements]⟩]

/-- The elements in front of the first group, and the chunks from there on. -/
def layout : Pattern → Except PatternError (Elements × List Chunk)
  | [] => .ok ([], [])
  | .value (.payload alias?) :: rest =>
    if rest.isEmpty then .ok (if alias?.isNone then [.payload] else [], [])
    else .error .payloadNotLast
  | .value v :: rest => do
    let front ← ofValue v
    let (elements, chunks) ← layout rest
    return (front ++ elements, chunks)
  | .alternatives branches :: rest => do
    let alternatives ← branches.mapM ofBranch
    let (elements, chunks) ← layout rest
    return ([], ⟨alternatives⟩ :: plainChunk elements ++ chunks)

/-- The chunks of a pattern, at least one. -/
def chunksOf (p : Pattern) : Except PatternError (List Chunk) := do
  let (elements, chunks) ← layout p
  let chunks := plainChunk elements ++ chunks
  return if chunks.isEmpty then [⟨[[]]⟩] else chunks

/-! ### Checks -/

/-- The first two captures that nothing separates. -/
def adjacentCaptures? : Elements → Option (String × String)
  | .capture a _ :: .capture b _ :: _ => some (a, b)
  | _ :: rest => adjacentCaptures? rest
  | [] => none

/-- The element is a capture of a field. -/
def Element.captures (name : String) : Element → Bool
  | capture field _ => field == name
  | _ => false

/-- The number of captures of a field in the alternatives of a chunk. -/
def Chunk.countCaptures (name : String) (chunk : Chunk) : Nat :=
  chunk.alternatives.flatten.countP (Element.captures name)

/-- Marks an element that captures a field. -/
def Element.mark (name : String) : Element → Element
  | capture field marked => capture field (marked || field == name)
  | e => e

/-- Marks the captures of a field. -/
def Chunk.mark (name : String) (chunk : Chunk) : Chunk :=
  ⟨chunk.alternatives.map fun elements => elements.map (Element.mark name)⟩

/-- Why a field cannot mark where the payload starts: it has to be captured in one chunk, as often
as the chunk has alternatives. -/
def aliasError? (name : String) (chunks : List Chunk) : Option PatternError :=
  match chunks.filter fun chunk => chunk.countCaptures name != 0 with
  | [] => some (.payloadNotCaptured name)
  | chunk :: others =>
    if chunk.countCaptures name ≠ chunk.alternatives.length then
      some (.payloadNotInEveryAlternative name)
    else if others.isEmpty then none
    else some (.payloadInSeveralChunks name)

/-- The number of payload markers outside of the groups. -/
def countMarkers (p : Pattern) : Nat := p.countP fun item => item.value?.any Value.isPayload

end Matching

namespace Matcher

open Matching

/-- The matcher of a pattern. -/
def ofPattern (p : Pattern) : Except PatternError Matcher := do
  if 1 < countMarkers p then throw .multiplePayloads
  let chunks ← chunksOf p
  match (chunks.flatMap Chunk.alternatives).findSome? adjacentCaptures? with
  | some (a, b) => throw (.adjacentCaptures a b)
  | none => pure ()
  match p.payload? with
  | some (some name) =>
    if name = startAlias then return ⟨chunks, true⟩
    match aliasError? name chunks with
    | some e => throw e
    | none => return ⟨chunks.map (Chunk.mark name), false⟩
  | _ => return ⟨chunks, false⟩

end Matcher

end LogRules

import LogRules.Json.Token

/-! # Reading records from JSON

A reader takes tokens in document order and stops at the first fault. A record is read from an
object, whose members may come in any order, or from an array of its fields in order; what is left
out keeps its default. -/

namespace LogRules.Json

/-- A reader takes tokens from the front. -/
abbrev Reader := StateT (List Token) (Except Fault)

namespace Reader

variable {α σ : Type}

/-- Stops with a fault. -/
def fail (fault : Fault) : Reader α := fun _ => .error fault

/-- The fault of a value that is not of the kind that is asked for. Its text is looked at first,
unless it is an array or an object. -/
def mismatchFault : List Token → Fault
  | [] => .ended
  | .number .tooLarge :: _ => .malformed
  | .string (.error fault) :: _ => fault
  | .brokenString read _ :: _ => read
  | .broken read _ :: _ => read
  | .closeBrace :: _ | .closeBracket :: _ | .comma :: _ | .colon :: _ => .malformed
  | _ => .mismatch

/-- Stops at a value that is not of the kind that is asked for. -/
def mismatch : Reader α := fun tokens => .error (mismatchFault tokens)

/-! ### Single values -/

/-- Reads a text. -/
def text : Reader String := do
  match ← get with
  | .string (.ok s) :: rest => set rest; return s
  | _ => mismatch

/-- Reads a truth value. -/
def bool : Reader Bool := do
  match ← get with
  | .bool b :: rest => set rest; return b
  | _ => mismatch

/-- Reads an integer between two bounds. -/
def integer (least greatest : Int) : Reader Int := do
  match ← get with
  | .number (.integer n) :: rest =>
    if least ≤ n && n ≤ greatest then set rest; return n else fail .mismatch
  | _ => mismatch

/-- Reads a natural number of 32 bits. -/
def nat32 : Reader Nat := Int.toNat <$> integer 0 0xFFFFFFFF

/-- Reads a signed integer of 32 bits. -/
def int32 : Reader Int := integer (-0x80000000) 0x7FFFFFFF

/-- Reads a value, or `null` for none. -/
def option (r : Reader α) : Reader (Option α) := do
  match ← get with
  | .null :: rest => set rest; return none
  | _ => some <$> r

/-- Reads `null`. -/
def null : Reader Unit := do
  match ← get with
  | .null :: rest => set rest
  | _ => mismatch

/-- Reads the colon after a name. -/
def colon : Reader Unit := do
  match ← get with
  | .colon :: rest => set rest
  | [] => fail .ended
  | _ => fail .malformed

/-- Reads one of several names, alone or as the only member of an object with the value `null`. -/
def choice (choose : String → Option α) : Reader α := do
  let named : Reader α := do
    match choose (← text) with
    | some a => return a
    | none => fail .mismatch
  match ← get with
  | .openBrace :: rest =>
    set rest
    match rest with
    | .string _ :: _ | .brokenString _ _ :: _ => pure ()
    | [] => fail .ended
    | _ => fail .malformed
    let a ← named
    colon
    null
    match ← get with
    | .closeBrace :: rest => set rest; return a
    | [] => fail .ended
    | _ => fail .malformed
  | .string _ :: _ | .brokenString _ _ :: _ => named
  | [] => fail .ended
  | _ => fail .malformed

/-! ### Skipping -/

/-- What may come next while a value is skipped. -/
inductive Expected where
  | value
  /-- The first part of an array or an object, or its end. -/
  | first
  /-- A comma or the end of an array or an object. -/
  | separator
  | name
  | colon
  deriving DecidableEq, Repr

/-- What follows the start of a value: `none` when the value is complete. The flag says that the
value is an object. -/
def startsValue : Token → Except Fault (Option Bool)
  | .openBrace => .ok (some true)
  | .openBracket => .ok (some false)
  | .null | .bool _ | .number _ | .string _ => .ok none
  | .brokenString _ skip => .error skip
  | .broken _ skip => .error skip
  | _ => .error .malformed

/-- The token ends an object, or an array. -/
def isEnd (isObject : Bool) : Token → Bool
  | .closeBrace => isObject
  | .closeBracket => !isObject
  | _ => false

/-- The name of a member may be skipped. -/
def skipsName : Token → Except Fault Unit
  | .string _ => .ok ()
  | .brokenString _ skip => .error skip
  | _ => .error .malformed

/-- Skips tokens up to the end of a value. The list holds the arrays and objects that are open,
innermost first. -/
def skipFrom : Expected → List Bool → List Token → Except Fault (List Token)
  | _, _, [] => .error .ended
  | .value, frames, t :: rest => do
    match ← startsValue t with
    | some isObject => skipFrom .first (isObject :: frames) rest
    | none => if frames.isEmpty then return rest else skipFrom .separator frames rest
  | .first, [], _ :: _ => .error .malformed
  | .first, isObject :: frames, t :: rest => do
    if isEnd isObject t then
      if frames.isEmpty then return rest else skipFrom .separator frames rest
    else if isObject then
      skipsName t
      skipFrom .colon (isObject :: frames) rest
    else match ← startsValue t with
      | some inner => skipFrom .first (inner :: isObject :: frames) rest
      | none => skipFrom .separator (isObject :: frames) rest
  | .separator, [], _ :: _ => .error .malformed
  | .separator, isObject :: frames, t :: rest =>
    match t with
    | .comma => skipFrom (if isObject then .name else .value) (isObject :: frames) rest
    | _ =>
      if isEnd isObject t then
        if frames.isEmpty then .ok rest else skipFrom .separator frames rest
      else .error .malformed
  | .name, frames, t :: rest => do
    skipsName t
    skipFrom .colon frames rest
  | .colon, frames, t :: rest =>
    match t with
    | .colon => skipFrom .value frames rest
    | _ => .error .malformed

/-- Skips a value. -/
def skip : Reader Unit := fun tokens => ((), ·) <$> skipFrom .value [] tokens

/-! ### Arrays and records -/

/-- Goes to the next element of an array; `false` at its end, which is not taken. -/
def nextElement (first : Bool) : Reader Bool := do
  match ← get with
  | .closeBracket :: _ => return false
  | .comma :: rest =>
    if first then return true
    set rest
    match rest with
    | .closeBracket :: _ => fail .malformed
    | [] => fail .ended
    | _ => return true
  | [] => fail .ended
  | _ => if first then return true else fail .malformed

/-- Takes the end of an array. -/
def endArray : Reader Unit := do
  match ← get with
  | .closeBracket :: rest => set rest
  | [] => fail .ended
  | _ => fail .malformed

/-- Reads at most `bound` elements. -/
def elements (r : Reader α) : Nat → Bool → Reader (List α)
  | 0, _ => return []
  | bound + 1, first => do
    if ← nextElement first then
      let a ← r
      return a :: (← elements r bound false)
    else return []

/-- Reads an array. An element takes at least one token. -/
def list (r : Reader α) : Reader (List α) := do
  match ← get with
  | .openBracket :: rest =>
    set rest
    let l ← elements r rest.length true
    endArray
    return l
  | _ => mismatch

/-- A field of a record: its name, and how its value is read into the record. -/
structure Member (σ : Type) where
  name : String
  read : σ → Reader σ

/-- A field that is read by `r` and stored by `store`. -/
def field (name : String) (r : Reader α) (store : σ → α → σ) : Member σ :=
  ⟨name, fun s => store s <$> r⟩

/-- Goes to the name of the next member; `none` at the end of the object, which is taken. -/
def nextName (first : Bool) : Reader (Option String) := do
  let name : Reader (Option String) := do
    match ← get with
    | .string (.ok s) :: rest => set rest; return some s
    | .string (.error fault) :: _ => fail fault
    | .brokenString read _ :: _ => fail read
    | [] => fail .ended
    | _ => fail .malformed
  match ← get with
  | .closeBrace :: rest => set rest; return none
  | [] => fail .ended
  | .comma :: rest => if first then fail .malformed else set rest; name
  | _ => if first then name else fail .malformed

/-- Reads at most `bound` members into a record. A field may come once. A name that is no field is
skipped with its value, or refused when the record is strict. -/
def members (strict : Bool) (fields : List (Member σ)) :
    Nat → Bool → List String → σ → Reader σ
  | 0, _, _, s => return s
  | bound + 1, first, seen, s => do
    match ← nextName first with
    | none => return s
    | some name =>
      match fields.find? (·.name == name) with
      | none =>
        if strict then fail .mismatch
        colon
        skip
        members strict fields bound false seen s
      | some f =>
        if name ∈ seen then fail .mismatch
        colon
        let s ← f.read s
        members strict fields bound false (name :: seen) s

/-- Reads the fields of a record from the elements of an array. -/
def positional : Bool → List (Member σ) → σ → Reader σ
  | _, [], s => return s
  | first, f :: rest, s => do
    if ← nextElement first then
      let s ← f.read s
      positional false rest s
    else return s

/-- Reads a record that starts from its defaults. -/
def record (strict : Bool) (fields : List (Member σ)) (defaults : σ) : Reader σ := do
  match ← get with
  | .openBrace :: rest =>
    set rest
    members strict fields (rest.length + 1) true [] defaults
  | .openBracket :: rest =>
    set rest
    let s ← positional true fields defaults
    endArray
    return s
  | _ => mismatch

/-! ### Running -/

/-- Reads a value and nothing after it. -/
def run (r : Reader α) (tokens : List Token) : Except Fault α :=
  match r tokens with
  | .ok (a, []) => .ok a
  | .ok (_, _ :: _) => .error .malformed
  | .error fault => .error fault

/-- Reads a text. -/
def ofText (r : Reader α) (text : String) : Except Fault α := run r (Token.ofText text)

/-- Reads a value like its text. -/
def ofValue (r : Reader α) (v : Json) : Except Fault α := run r (Token.ofValue v)

end Reader

end LogRules.Json

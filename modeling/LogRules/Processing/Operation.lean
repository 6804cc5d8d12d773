import LogRules.Processing.Function
import LogRules.Time.Duration
import LogRules.Time.Layout
import LogRules.Tree.Node

/-! # Operations

An operation computes one value from the fields that are set and stores it in a field. An operation
that fails leaves the fields as they are. -/

namespace LogRules

/-- What goes wrong while a message is processed. -/
inductive RuntimeError where
  | noMatch
  | selectFailed
  | messageIdMissing
  | messageIdNotMapped (id : String)
  | fieldNotFound (name : String)
  | notImplemented (function : Function)
  | callFailed (target : String) (function : Function) (reason : FunctionError)
  | dateTime (target value : String)
  | duration (target value : String)
  deriving DecidableEq, Repr, Inhabited

/-- The wording of a runtime error. -/
def RuntimeError.message : RuntimeError → String
  | noMatch => "pattern didn't match"
  | selectFailed => "linear select failed"
  | messageIdMissing => "messageid not found"
  | messageIdNotMapped id => "no mapping for messageid `" ++ id ++ "`"
  | fieldNotFound name => "field `" ++ name ++ "` not found"
  | notImplemented function => "function `" ++ function.name ++ "` not implemented"
  | callFailed target function reason =>
    "running " ++ target ++ "=" ++ function.name ++ ": " ++ reason.message
  | dateTime target value => target ++ ": cannot convert date `" ++ value ++ "`"
  | duration target value => target ++ ": cannot convert duration `" ++ value ++ "`"

/-- The fields that are set, in the order in which they were first set. -/
abbrev Fields := Table String

namespace Fields

/-- The value of a field that has to be set. -/
def read (fields : Fields) (name : String) : Except RuntimeError String :=
  match fields.get? name with
  | some value => .ok value
  | none => .error (.fieldNotFound name)

/-- The values of some fields with spaces between them. -/
def readJoined (fields : Fields) (names : List String) : Except RuntimeError String :=
  String.intercalate " " <$> names.mapM fields.read

/-- The value of an argument. A payload marker stands for the field of its alias. -/
def readValue (fields : Fields) : Value → Except RuntimeError String
  | .constant text => .ok text
  | .field name => fields.read name
  | .payload alias? => fields.read (alias?.getD payloadInput)

end Fields

/-- What an operation computes. -/
inductive Computation where
  /-- The value of a constant or a field. -/
  | value (v : Value)
  | call (function : Function) (args : List Value)
  /-- The value of a key in a value map. -/
  | lookup (map : ValueMap) (key : Value)
  | dateTime (fields : List String) (layouts : List Time.Layout) (offset : Time.Offset)
  | duration (fields : List String) (formats : List (List Nat))
  deriving Inhabited

/-- A computation and the field that takes its value. -/
structure Operation where
  target : String
  computation : Computation
  deriving Inhabited

namespace Operation

/-- The value that an operation computes. A look-up has none for a key without an entry in a map
without a default. -/
def compute (settings : Settings) (fields : Fields) (op : Operation) :
    Except RuntimeError (Option String) :=
  match op.computation with
  | .value v => some <$> fields.readValue v
  | .call function args => do
    let args ← args.mapM fields.readValue
    match function.call settings args with
    | .ok value => return some value
    | .error .notImplemented => throw (.notImplemented function)
    | .error reason => throw (.callFailed op.target function reason)
  | .lookup map key => do
    let key ← fields.readValue key
    match (map.entries.get? key).or map.default? with
    | none => return none
    | some v => some <$> fields.readValue v
  | .dateTime names layouts offset => do
    let text ← fields.readJoined names
    match layouts.findSome? fun layout => layout.convert? offset (Text.trimmed text) with
    | some value => return some value
    | none => throw (.dateTime op.target text)
  | .duration names formats => do
    let text ← fields.readJoined names
    match Time.duration? formats text with
    | some seconds => return some (toString seconds)
    | none => throw (.duration op.target text)

/-- The fields after a op. -/
def apply (settings : Settings) (op : Operation) (fields : Fields) :
    Except RuntimeError Fields := do
  match ← op.compute settings fields with
  | none => return fields
  | some value => return fields.insert op.target value

end Operation

end LogRules

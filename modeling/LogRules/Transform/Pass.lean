import LogRules.Config
import LogRules.Diagnostic.Basic
import LogRules.Tree.Node

/-! # Passes

A pass checks or changes a rule tree. It may report diagnostics, and it fails with a cause and the
rule that it was found in. A pipeline runs the passes of its stages in order and stops at the first
that fails. -/

namespace LogRules

/-- Why a pass fails. -/
inductive PassCause where
  | payloadInMessage
  | payloadNotLast
  | multiplePayloads
  | payloadOverlap (field : String) (count : Nat)
  | unknownFunction (function : String)
  | arity (function expected : String) (count : Nat)
  | valueMapArity (map : String) (count : Nat)
  | expectedField (function : String)
  | noFormats (function : String)
  | noFields (function : String)
  | badFormat (function format reason : String)
  | missingTarget (function : String)
  | notReplaced (function : String)
  | unresolvedReference (name : String)
  | nodeLimit (limit : Nat)
  deriving DecidableEq, Repr, Inhabited

/-- The wording of a cause. -/
def PassCause.message : PassCause → String
  | payloadInMessage => "message rule with payload field"
  | payloadNotLast => "header payload is not the last field"
  | multiplePayloads => "more than one payload field"
  | payloadOverlap field count =>
    "payload field `" ++ field ++ "` appears " ++ toString count ++ " times, expected 1"
  | unknownFunction function => "unknown function `" ++ function ++ "`"
  | arity function expected count =>
    "`" ++ function ++ "` takes " ++ expected ++ " arguments, got " ++ toString count
  | valueMapArity map count =>
    "call to value map `" ++ map ++ "` must have exactly 1 argument, got " ++ toString count
  | expectedField function => "`" ++ function ++ "` argument is not a field"
  | noFormats function => "`" ++ function ++ "` format is not a constant"
  | noFields function => "`" ++ function ++ "` has no fields"
  | badFormat function format reason =>
    "bad `" ++ function ++ "` format `" ++ format ++ "`: " ++ reason
  | missingTarget function => "call to `" ++ function ++ "` has no target"
  | notReplaced function => "call to `" ++ function ++ "` should have been rewritten"
  | unresolvedReference name => "reference to undefined binding `" ++ name ++ "`"
  | nodeLimit limit => "tree traversal exceeded limit of " ++ toString limit ++ " nodes"

/-- A cause and the rule in which it was found. -/
structure PassError where
  cause : PassCause
  loc : Option SourceLoc
  deriving DecidableEq, Repr, Inhabited

/-- The place, when it is known, and the cause. -/
def PassError.message (e : PassError) : String :=
  match e.loc with
  | none => e.cause.message
  | some loc => "at " ++ loc.render ++ ": " ++ e.cause.message

/-- A named step on a rule tree. -/
structure Pass where
  name : String
  apply : Config → RuleTree → Except PassError (RuleTree × List Diagnostic)

namespace Pass

/-- A pass that only looks at the tree. -/
def check (name : String) (f : RuleTree → Except PassError Unit) : Pass :=
  ⟨name, fun _ t => (fun _ => (t, [])) <$> f t⟩

/-- A pass that changes every tree. -/
def change (name : String) (f : RuleTree → RuleTree) : Pass := ⟨name, fun _ t => .ok (f t, [])⟩

/-- A pass that changes a tree or fails. -/
def tryChange (name : String) (f : RuleTree → Except PassError RuleTree) : Pass :=
  ⟨name, fun _ t => (·, []) <$> f t⟩

/-- A pass that changes every tree and reports on it. -/
def report (name : String) (f : RuleTree → RuleTree × List Diagnostic) : Pass :=
  ⟨name, fun _ t => .ok (f t)⟩

end Pass

/-- A named list of passes. -/
structure Stage where
  name : String
  passes : List Pass

/-- Stages in order. -/
abbrev Pipeline := List Stage

/-- A pass of a pipeline that failed. -/
structure StageError where
  stage : String
  pass : String
  error : PassError
  deriving DecidableEq, Repr, Inhabited

/-- The stage, the pass and the error. -/
def StageError.message (e : StageError) : String :=
  "error applying " ++ e.stage ++ "/" ++ e.pass ++ ": " ++ e.error.message

namespace Stage

/-- Runs passes in order and collects their diagnostics. -/
def runPasses (stage : String) (config : Config) (t : RuleTree) :
    List Pass → Except StageError (RuleTree × List Diagnostic)
  | [] => .ok (t, [])
  | pass :: rest =>
    match pass.apply config t with
    | .error e => .error ⟨stage, pass.name, e⟩
    | .ok (t, first) => (fun (t, others) => (t, first ++ others)) <$> runPasses stage config t rest

end Stage

namespace Pipeline

/-- Runs the stages in order and collects their diagnostics. -/
def run (config : Config) (t : RuleTree) :
    Pipeline → Except StageError (RuleTree × List Diagnostic)
  | [] => .ok (t, [])
  | stage :: rest => do
    let (t, first) ← stage.passes |> Stage.runPasses stage.name config t
    let (t, others) ← run config t rest
    return (t, first ++ others)

end Pipeline

end LogRules

import LogRules.Assembly
import LogRules.Transform.Standard

/-! # Building a parser

A build assembles the records of a device and runs a pipeline on the tree. Errors about the texts of
rules stop it before the pipeline. -/

namespace LogRules

/-- A finished rule tree with the options and the warnings of its build. -/
structure Parser where
  tree : RuleTree
  config : Config
  diagnostics : List Diagnostic
  deriving Inhabited

/-- Why a build fails. -/
inductive BuildError where
  /-- Texts of rules cannot be read. -/
  | ruleSyntax (diagnostics : List Diagnostic)
  /-- A pass fails. -/
  | pass (e : StageError)
  deriving DecidableEq, Repr

/-- The wording of a build error. -/
def BuildError.message : BuildError → String
  | ruleSyntax ds =>
    "rule parsing failed with " ++ toString (Diagnostic.errorCount ds) ++ " errors"
  | pass e => e.message

namespace Parser

/-- Builds a parser with a pipeline. -/
def buildWith (pipeline : Pipeline) (config : Config) (d : Device) : Except BuildError Parser :=
  let (tree, reports) := assemble d
  if Diagnostic.hasErrors reports then .error (.ruleSyntax reports)
  else match pipeline.run config tree with
    | .error e => .error (.pass e)
    | .ok (tree, more) => .ok ⟨tree, config, reports ++ more⟩

/-- Builds a parser with the standard pipeline. -/
def build (config : Config) (d : Device) : Except BuildError Parser :=
  buildWith (.standard config) config d

end Parser

end LogRules

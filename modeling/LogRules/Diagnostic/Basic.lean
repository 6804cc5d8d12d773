import LogRules.LexError
import LogRules.Tree.Source

/-! # Diagnostics

Errors and warnings about rules. A diagnostic has a kind, which decides how severe it is and how
its message is worded, and may point to a rule and to a part of one of its texts. -/

namespace LogRules

/-- What a diagnostic is about. -/
inductive DiagnosticKind where
  | invalidContent
  | invalidFunctions
  | invalidMessageId
  | duplicateValueMap
  | malformedValueMapPair
  | duplicateValueMapKey
  | conflictingValueMapKey
  | consecutiveCaptures
  | timestampNotSelected
  deriving DecidableEq, Repr, Inhabited

/-- An error stops the build, a warning does not. -/
inductive Severity where
  | error
  | warning
  deriving DecidableEq, Repr, Inhabited

/-- The word for a severity. -/
def Severity.label : Severity → String
  | error => "error"
  | warning => "warning"

namespace DiagnosticKind

/-- How severe a diagnostic of this kind is. -/
def severity : DiagnosticKind → Severity
  | invalidContent | invalidFunctions | invalidMessageId | duplicateValueMap => .error
  | _ => .warning

/-- The message without a detail. -/
def summary : DiagnosticKind → String
  | invalidContent => "invalid content pattern"
  | invalidFunctions => "invalid function list"
  | invalidMessageId => "invalid message id call"
  | duplicateValueMap => "duplicate value map"
  | malformedValueMapPair => "malformed value map pair"
  | duplicateValueMapKey => "duplicate value map key"
  | conflictingValueMapKey => "conflicting value map key"
  | consecutiveCaptures => "consecutive captures"
  | timestampNotSelected => "no timestamp field selected"

/-- The message with a detail. -/
def detailed (kind : DiagnosticKind) (detail : String) : String :=
  match kind with
  | duplicateValueMap => "value map `" ++ detail ++ "` is already defined"
  | duplicateValueMapKey => "duplicate value map key `" ++ detail ++ "` (ignored)"
  | conflictingValueMapKey =>
    "value map key `" ++ detail ++ "` redefined with a different value (last one wins)"
  | consecutiveCaptures => "consecutive captures " ++ detail ++ " (injected space)"
  | _ => kind.summary ++ ": " ++ detail

end DiagnosticKind

/-- A range of bytes of a text. -/
structure Span where
  text : String
  start : Nat
  stop : Nat
  deriving DecidableEq, Repr, Inhabited

/-- An error or a warning about a rule. -/
structure Diagnostic where
  kind : DiagnosticKind
  loc : Option SourceLoc
  span : Option Span
  message : String
  deriving DecidableEq, Repr, Inhabited

namespace Diagnostic

/-- A diagnostic with the message that its kind gives to a detail. -/
def make (kind : DiagnosticKind) (detail : Option String) (loc : Option SourceLoc)
    (span : Option Span) : Diagnostic :=
  ⟨kind, loc, span, match detail with
    | none => kind.summary
    | some d => kind.detailed d⟩

/-- A diagnostic about a rule, with a detail. -/
def about (kind : DiagnosticKind) (loc : SourceLoc) (detail : String) : Diagnostic :=
  make kind (some detail) (some loc) none

/-- A text of a rule that cannot be read. -/
def unreadable (kind : DiagnosticKind) (loc : SourceLoc) (text : String) (e : LexError) :
    Diagnostic :=
  make kind (some e.cause.message) (some loc) (some ⟨text, e.place, e.place⟩)

/-- How severe a diagnostic is. -/
def severity (d : Diagnostic) : Severity := d.kind.severity

/-- The diagnostic is an error. -/
def isError (d : Diagnostic) : Bool := d.severity == .error

/-- The diagnostic is a warning. -/
def isWarning (d : Diagnostic) : Bool := d.severity == .warning

/-- The diagnostic on one line. -/
def render (d : Diagnostic) : String :=
  d.severity.label
    ++ (match d.loc with
        | none => ""
        | some loc => " at " ++ loc.render)
    ++ (match d.span with
        | none => ""
        | some span => " " ++ toString span.start ++ ".." ++ toString span.stop)
    ++ ": " ++ d.message

/-- The number of errors. -/
def errorCount (ds : List Diagnostic) : Nat := ds.countP isError

/-- The number of warnings. -/
def warningCount (ds : List Diagnostic) : Nat := ds.countP isWarning

/-- Some diagnostic is an error. -/
def hasErrors (ds : List Diagnostic) : Bool := ds.any isError

/-- Some diagnostic is a warning. -/
def hasWarnings (ds : List Diagnostic) : Bool := ds.any isWarning

end Diagnostic

end LogRules

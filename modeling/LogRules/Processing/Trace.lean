import LogRules.Config
import LogRules.Processing.Program
import LogRules.Text.Quoted

/-! # Traces

A trace is the text of the events of a run. Every line of an event has a level of detail, and a
verbosity shows the lines up to its own level. -/

namespace LogRules

/-- The level of detail of a verbosity. -/
def Verbosity.level : Verbosity → Nat
  | default => 0
  | verbose => 1
  | veryVerbose => 2

/-- A line of a trace. -/
structure TraceLine where
  /-- The least level of detail that shows the line. -/
  level : Nat
  text : String
  deriving DecidableEq, Repr, Inhabited

namespace Event

/-! ### Lines of events -/

/-- The line of a rule that starts. -/
def enterText (id : String) : String := "-> " ++ id

/-- A message on a line of a trace. -/
def messageText (label : String) (message : List UInt8) : String :=
  "   " ++ label ++ " " ++ Text.quoted (Text.decode message)

/-- The line of an alternative that is tried. -/
def attemptText (a : Matching.Attempt) : String :=
  "   chunk " ++ toString a.chunk ++ " alternative " ++ toString a.alternative ++ " "
    ++ (if a.matched then "matched" else "failed")

/-- The line of a captured value. -/
def captureText (field value : String) : String := "   + " ++ field ++ " = " ++ Text.quoted value

/-- The line of a rule that ends. -/
def exitText (id : String) (matched : Bool) : String :=
  "<- " ++ id ++ (if matched then " matched" else " not matched")

/-- The lines of an event. -/
def lines : Event → List TraceLine
  | enter id message => [⟨0, enterText id⟩, ⟨2, messageText "msg" message⟩]
  | attempt a => [⟨1, attemptText a⟩]
  | capture field value => [⟨1, captureText field value⟩]
  | remaining message => [⟨2, messageText "rest" message⟩]
  | exit id matched => [⟨0, exitText id matched⟩]

end Event

namespace Trace

/-- The lines of a trace. -/
def lines (verbosity : Verbosity) (events : List Event) : List String :=
  ((events.flatMap Event.lines).filter (·.level ≤ verbosity.level)).map TraceLine.text

/-- Lines one after the other. -/
def ofLines (lines : List String) : String := String.join (lines.map (· ++ "\n"))

/-- The text of a trace. -/
def render (verbosity : Verbosity) (events : List Event) : String :=
  ofLines (lines verbosity events)

end Trace

end LogRules

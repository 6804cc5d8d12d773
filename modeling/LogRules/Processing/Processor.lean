import LogRules.Processing.Compile

/-! # Processors

A processor is the program of a rule tree with the settings of its runs. It takes messages one by
one, and no message has an effect on another. -/

namespace LogRules

/-- A rule tree that is ready to take messages. -/
structure Processor where
  program : Program
  settings : Settings
  /-- The field that holds the time of the event. -/
  timestampField : Option String
  deriving Inhabited

/-- What a message yields. -/
structure Result where
  fields : Fields
  errors : List RuntimeError
  events : List Event
  deriving Inhabited

namespace Processor

/-- The processor of a rule tree. -/
def ofTree (currentYear : Int) (config : Config) (t : RuleTree) :
    Except CompileError Processor := do
  let settings ← Settings.ofConfig currentYear config
  let program ← t.compile settings
  return { program, settings, timestampField := t.timestampField }

/-- Processes a message. -/
def process (p : Processor) (message : List UInt8) : Result :=
  let o := (p.program.run p.settings (.start message)).noted
  ⟨o.state.fields, o.state.errors, o.events⟩

end Processor

end LogRules

/-! # Options

Options for building a rule tree and for running it. -/

namespace LogRules

/-- How much of a run a trace shows. -/
inductive Verbosity where
  /-- Rules and their outcome. -/
  | default
  /-- Alternatives and captures, too. -/
  | verbose
  /-- The text that is left at every step, too. -/
  | veryVerbose
  deriving DecidableEq, Repr, Inhabited

/-- The name of a verbosity in option files. -/
def Verbosity.name : Verbosity → String
  | default => "default"
  | verbose => "verbose"
  | veryVerbose => "very-verbose"

/-- The verbosity with this name. -/
def Verbosity.ofName? (name : String) : Option Verbosity :=
  [default, verbose, veryVerbose].find? fun v => v.name == name

/-- The options; what is left out of an option file keeps its default. -/
structure Config where
  /-- Stores every match rule and every selection as a binding. -/
  globalEntities : Bool := false
  /-- Stores nodes that occur twice as a binding. -/
  detectDuplicates : Bool := false
  /-- Removes the spaces in front of message patterns. -/
  stripLeadingSpace : Bool := false
  /-- The offset of local times: `UTC`, `Z` or a signed number of hours and minutes. -/
  timezone : Option String := none
  verbosity : Verbosity := .default
  /-- The networks that count as inside. -/
  localNetworks : List String := []
  /-- The year of dates that name none. -/
  year : Option Int := none
  deriving DecidableEq, Repr, Inhabited

end LogRules

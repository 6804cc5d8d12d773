import LogRules.Config
import LogRules.Json.Reader

/-! # Option files

Options are a strict record: a name that is no option is refused. -/

namespace LogRules.Config

open Json.Reader

/-- The options about shared nodes. -/
def optimizationFields : List (Member Config) := [
  field "global-entities" bool fun c v => { c with globalEntities := v },
  field "detect-duplicates" bool fun c v => { c with detectDuplicates := v }]

/-- The options about faulty rules. -/
def fixFields : List (Member Config) := [
  field "strip-leading-space" bool fun c v => { c with stripLeadingSpace := v }]

/-- All options. -/
def fields : List (Member Config) := [
  ⟨"optimizations", record true optimizationFields⟩,
  ⟨"fixes", record true fixFields⟩,
  field "timezone" (option text) fun c v => { c with timezone := v },
  field "verbosity" (choice Verbosity.ofName?) fun c v => { c with verbosity := v },
  field "local-networks" (list text) fun c v => { c with localNetworks := v },
  field "year" (option int32) fun c v => { c with year := v }]

/-- Reads options. -/
def reader : Json.Reader Config := record true fields {}

/-- Reads an option file. -/
def ofText (s : String) : Except Json.Fault Config := reader.ofText s

end LogRules.Config

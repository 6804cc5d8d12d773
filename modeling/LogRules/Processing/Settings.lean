import LogRules.Config
import LogRules.Matching.Basic
import LogRules.Network.Block
import LogRules.Time.Offset
import LogRules.Tree.Source

/-! # Settings of a run

The options that a run needs, read once. A tree that cannot run is refused with the rule that is at
fault. -/

namespace LogRules

/-- Why a tree cannot run. -/
inductive CompileError where
  | pattern (loc : SourceLoc) (e : PatternError)
  | unknownFunction (loc : SourceLoc) (function : String)
  | unknownValueMap (loc : SourceLoc) (map : String)
  /-- A specifier without a meaning in a date. -/
  | unsupportedSpecifier (loc : SourceLoc) (letter : Char)
  /-- A specifier without a meaning in a duration. -/
  | unsupportedDurationSpecifier (loc : SourceLoc) (letter : Char)
  | unresolvedReference (name : String)
  /-- A binding that holds a reference to itself. -/
  | cyclicReference (name : String)
  | danglingMessageId (id : String) (index : Nat)
  | invalidTimezone (text : String)
  | invalidNetwork (text : String)
  deriving DecidableEq, Repr, Inhabited

/-- The wording of a compile error. -/
def CompileError.message : CompileError → String
  | pattern loc e => "at " ++ loc.render ++ ": error converting pattern: " ++ e.message
  | unknownFunction loc function =>
    "at " ++ loc.render ++ ": unsupported function `" ++ function ++ "`"
  | unknownValueMap loc map =>
    "at " ++ loc.render ++ ": access to unknown value map `" ++ map ++ "`"
  | unsupportedSpecifier loc letter =>
    "at " ++ loc.render ++ ": date-time specifier `%" ++ letter.toString ++ "` not supported"
  | unsupportedDurationSpecifier loc letter =>
    "at " ++ loc.render ++ ": duration specifier `%" ++ letter.toString ++ "` not supported"
  | unresolvedReference name => "reference to undefined binding `" ++ name ++ "`"
  | cyclicReference name => "binding `" ++ name ++ "` refers to itself"
  | danglingMessageId id index =>
    "message id `" ++ id ++ "` points to missing node " ++ toString index
  | invalidTimezone text => "invalid timezone `" ++ text ++ "`"
  | invalidNetwork text => "invalid local network `" ++ text ++ "`"

/-- The settings of a run. -/
structure Settings where
  /-- The offset of local times. -/
  offset : Time.Offset
  /-- The year of dates that name none. -/
  year : Int
  /-- The networks that count as inside. -/
  networks : List Network.Block
  deriving DecidableEq, Repr, Inhabited

namespace Settings

/-- The settings that options ask for. Dates without a year get the current one unless the options
name a year. -/
def ofConfig (currentYear : Int) (config : Config) : Except CompileError Settings := do
  let offset ← match config.timezone with
    | none => pure .utc
    | some text => match Time.Offset.ofText? text with
      | some offset => pure offset
      | none => throw (.invalidTimezone text)
  let networks ← config.localNetworks.mapM fun text =>
    match Network.Block.ofText? text with
    | some block => .ok block
    | none => .error (.invalidNetwork text)
  return { offset, year := config.year.getD currentYear, networks }

/-- The address is in one of the networks. -/
def isInside (s : Settings) (address : Network.Address) : Bool :=
  s.networks.any (·.contains address)

end Settings

end LogRules

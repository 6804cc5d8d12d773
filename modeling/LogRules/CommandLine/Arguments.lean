/-! # Arguments of the command line

The first argument names a task, and the others are options and paths in any order. Short options
may stand together behind one dash; the value of an option follows it, with or without an equals
sign. Two dashes end the options, and a single dash is a path. Only the verbosity may be given more
than once. -/

namespace LogRules.CommandLine

/-- What the program can do. -/
inductive TaskName where
  | check
  | dump
  | run
  deriving DecidableEq, Repr, Inhabited

/-- When to color messages. -/
inductive Color where
  /-- When the output is a terminal. -/
  | auto
  | always
  | never
  deriving DecidableEq, Repr, Inhabited

/-- An option without a value that may be given once. -/
inductive Flag where
  /-- Warnings are errors. -/
  | strict
  /-- Results are spread over lines. -/
  | pretty
  /-- Rules are traced. -/
  | trace
  deriving DecidableEq, Repr, Inhabited

/-- An option with a value. -/
inductive ValueOption where
  | config
  | color
  deriving DecidableEq, Repr, Inhabited

/-- Why arguments are not understood. -/
inductive UsageError where
  /-- The text of the usage is asked for. -/
  | help
  | missingTask
  | unknownTask (name : String)
  | unexpected (argument : String)
  | missingValue (o : ValueOption)
  | invalidValue (o : ValueOption) (value : String)
  | emptyPath
  | repeatedOption (argument : String)
  | missingDevice
  deriving DecidableEq, Repr, Inhabited

namespace TaskName

/-- The name of a task. -/
def text : TaskName → String
  | check => "check"
  | dump => "dump"
  | run => "run"

/-- The task with this name. -/
def ofText? (name : String) : Option TaskName := [check, dump, run].find? fun t => t.text == name

/-- The flags of a task. -/
def flags : TaskName → List Flag
  | check => [.strict]
  | dump => []
  | run => [.pretty, .trace]

/-- The number of paths that a task takes at most. -/
def maxPaths : TaskName → Nat
  | check => 1
  | dump => 1
  | run => 2

end TaskName

/-- The name of a flag behind two dashes. -/
def Flag.text : Flag → String
  | strict => "strict"
  | pretty => "pretty"
  | trace => "trace"

/-- The name of an option behind two dashes. -/
def ValueOption.text : ValueOption → String
  | config => "config"
  | color => "color"

/-- The color choice with this name. -/
def Color.ofText? : String → Option Color
  | "auto" => some auto
  | "always" => some always
  | "never" => some never
  | _ => none

/-- The wording of a usage error. -/
def UsageError.message : UsageError → String
  | help => "usage: logrules <check|dump|run> <DEVICE> [LOGS] [OPTIONS]"
  | missingTask => "a task is required: check, dump or run"
  | unknownTask name => "unrecognized task '" ++ name ++ "'"
  | unexpected argument => "unexpected argument '" ++ argument ++ "'"
  | missingValue o => "a value is required for '--" ++ o.text ++ "'"
  | invalidValue o value => "invalid value '" ++ value ++ "' for '--" ++ o.text ++ "'"
  | emptyPath => "a path is empty"
  | repeatedOption argument => "'" ++ argument ++ "' is given more than once"
  | missingDevice => "a device file is required"

/-- What arguments say. -/
structure Arguments where
  paths : List String := []
  config? : Option String := none
  color? : Option Color := none
  flags : List Flag := []
  /-- How often the verbosity was given. -/
  verbose : Nat := 0
  deriving DecidableEq, Repr, Inhabited

namespace Arguments

/-- Adds a path. -/
def addPath (task : TaskName) (args : Arguments) (path : String) : Except UsageError Arguments :=
  if path.isEmpty then .error .emptyPath
  else if args.paths.length < task.maxPaths then .ok { args with paths := args.paths ++ [path] }
  else .error (.unexpected path)

/-- Sets a flag. -/
def addFlag (args : Arguments) (flag : Flag) : Except UsageError Arguments :=
  if flag ∈ args.flags then .error (.repeatedOption ("--" ++ flag.text))
  else .ok { args with flags := args.flags ++ [flag] }

/-- Sets the value of an option. -/
def setValue (args : Arguments) (o : ValueOption) (value : String) :
    Except UsageError Arguments :=
  match o with
  | .config =>
    if value.isEmpty then .error .emptyPath
    else if args.config?.isSome then .error (.repeatedOption "--config")
    else .ok { args with config? := some value }
  | .color =>
    match Color.ofText? value with
    | none => .error (.invalidValue .color value)
    | some color =>
      if args.color?.isSome then .error (.repeatedOption "--color")
      else .ok { args with color? := some color }

/-! ### Reading -/

/-- Arguments with an option that still waits for its value. -/
abbrev Pending := Arguments × Option ValueOption

/-- Reads an option behind two dashes. -/
def readLong (task : TaskName) (args : Arguments) (option : String) :
    Except UsageError Pending :=
  let name := String.ofList (option.toList.takeWhile (· != '='))
  let value? := match option.toList.dropWhile (· != '=') with
    | [] => none
    | _ :: value => some (String.ofList value)
  match [ValueOption.config, .color].find? (·.text == name) with
  | some o =>
    match value? with
    | some value => (·, none) <$> args.setValue o value
    | none => .ok (args, some o)
  | none =>
    if value?.isSome then .error (.unexpected ("--" ++ option))
    else if name = "help" then .error .help
    else match task.flags.find? (·.text == name) with
      | some flag => (·, none) <$> args.addFlag flag
      | none => .error (.unexpected ("--" ++ option))

/-- Reads options behind one dash. -/
def readShort (args : Arguments) : List Char → Except UsageError Pending
  | [] => .ok (args, none)
  | 'v' :: rest => readShort { args with verbose := args.verbose + 1 } rest
  | ['c'] => .ok (args, some .config)
  | 'c' :: '=' :: value => (·, none) <$> args.setValue .config (String.ofList value)
  | 'c' :: value => (·, none) <$> args.setValue .config (String.ofList value)
  | 'h' :: _ => .error .help
  | c :: _ => .error (.unexpected ("-" ++ c.toString))

/-- The argument is no path. -/
def isOption (argument : String) : Bool := argument.startsWith "-" && argument != "-"

/-- Reads one argument that is not behind the end of the options. -/
def readOne (task : TaskName) (args : Arguments) (waiting? : Option ValueOption)
    (argument : String) : Except UsageError Pending :=
  match waiting? with
  | some o =>
    if isOption argument then .error (.missingValue o) else (·, none) <$> args.setValue o argument
  | none =>
    match argument.toList with
    | '-' :: '-' :: option => readLong task args (String.ofList option)
    | '-' :: c :: options => readShort args (c :: options)
    | _ => (·, none) <$> args.addPath task argument

/-- Reads arguments one by one. -/
def readAll (task : TaskName) : Pending → List String → Except UsageError Arguments
  | (args, none), [] => .ok args
  | (_, some o), [] => .error (.missingValue o)
  | (args, waiting?), argument :: rest =>
    if argument = "--" then
      match waiting? with
      | some o => .error (.missingValue o)
      | none => rest.foldlM (addPath task) args
    else do readAll task (← readOne task args waiting? argument) rest

end Arguments

/-- What the program is asked to do. -/
inductive Task where
  | check (strict : Bool)
  | dump
  /-- The logs are read from the standard input when no path is given. -/
  | run (logs? : Option String) (pretty trace : Bool)
  deriving DecidableEq, Repr, Inhabited

/-- A task with what all tasks have in common. -/
structure Command where
  task : Task
  device : String
  config? : Option String
  color : Color
  verbose : Nat
  deriving DecidableEq, Repr, Inhabited

namespace Command

/-- The task of a name and its arguments. -/
def taskOf (name : TaskName) (args : Arguments) (logs? : Option String) : Task :=
  match name with
  | .check => .check (Flag.strict ∈ args.flags)
  | .dump => .dump
  | .run => .run (logs?.filter (· != "-")) (Flag.pretty ∈ args.flags) (Flag.trace ∈ args.flags)

/-- What is answered when help is asked for by name: the usage, of one task at most. -/
def helpOn : List String → UsageError
  | [] => .help
  | name :: rest =>
    if name != "help" && (TaskName.ofText? name).isNone then .unknownTask name
    else match rest with
      | [] => .help
      | other :: _ => .unknownTask other

/-- The command of arguments. -/
def ofArguments : List String → Except UsageError Command
  | [] => .error .missingTask
  | first :: rest => do
    if first.startsWith "-h" || first = "--help" then throw .help
    if first = "help" then throw (helpOn rest)
    match TaskName.ofText? first with
    | none => throw (.unknownTask first)
    | some name =>
      let args ← Arguments.readAll name ({}, none) rest
      match args.paths with
      | [] => throw .missingDevice
      | device :: others =>
        return { task := taskOf name args others.head?, device, config? := args.config?
                 color := args.color?.getD .auto, verbose := args.verbose }

/-- The paths that a command reads. -/
def paths (c : Command) : List String :=
  c.device :: c.config?.toList ++
    match c.task with
    | .run logs? _ _ => logs?.toList
    | _ => []

end Command

end LogRules.CommandLine

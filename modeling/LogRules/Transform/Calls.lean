import LogRules.Builtin
import LogRules.Transform.Pass
import LogRules.Tree.Edit

/-! # Calls

Checks that calls name functions with arguments they accept, and replaces the calls that have a
shorter form: look-ups, assignments, readings of dates and durations, and calls that do nothing. -/

namespace LogRules.Calls

/-! ### Checks -/

/-- An error about an action. -/
def actionError (a : Action) (cause : PassCause) : PassError := ⟨cause, some a.source⟩

/-- The call of an action. -/
def call? (a : Action) : Option Invocation :=
  match a.effect with
  | .call inv => some inv
  | _ => none

/-- A call names a value map, or a function that accepts its number of arguments. -/
def checkArityOf (maps : List String) (a : Action) : Except PassError Unit :=
  match call? a with
  | none => .ok ()
  | some inv =>
    if inv.function ∈ maps then .ok ()
    else match Builtin.ofName? inv.function with
      | none => .error (actionError a (.unknownFunction inv.function))
      | some b =>
        if b.accepts inv.args.length then .ok ()
        else .error (actionError a (.arity inv.function b.arity inv.args.length))

/-- Calls name value maps, or functions that accept their number of arguments. -/
def checkArity (t : RuleTree) : Except PassError Unit :=
  t.actions.forM (checkArityOf t.valueMaps.keys)

/-- A call has a target, and a reference names a binding. -/
def checkNode (bindings : List String) : Node → Except PassError Unit
  | .action a =>
    match call? a with
    | none => .ok ()
    | some inv =>
      if inv.target.isEmpty && inv.function != "SYSVAL" then
        .error (actionError a (.missingTarget inv.function))
      else .ok ()
  | .reference name =>
    if name ∈ bindings then .ok () else .error ⟨.unresolvedReference name, none⟩
  | _ => .ok ()

/-- A tree has more nodes than it may have. -/
def limitError : PassError := ⟨.nodeLimit RuleTree.nodeLimit, none⟩

/-- Checks nodes one after the other, when `count` of them came before. A node beyond the limit is not
looked at. -/
def checkNodesFrom (bindings : List String) : Nat → List Node → Except PassError Unit
  | _, [] => .ok ()
  | count, n :: rest =>
    if count + 1 > RuleTree.nodeLimit then .error limitError
    else do
      checkNode bindings n
      checkNodesFrom bindings (count + 1) rest

/-- The nodes are within the limit, calls have targets, and references name bindings. -/
def checkNodes (t : RuleTree) : Except PassError Unit :=
  checkNodesFrom t.bindings.keys 0 t.nodes

/-- A call names a function that can run. -/
def checkRunsOf (a : Action) : Except PassError Unit :=
  match call? a with
  | none => .ok ()
  | some inv =>
    match Builtin.ofName? inv.function with
    | none => .error (actionError a (.unknownFunction inv.function))
    | some b =>
      if b.replaced then .error (actionError a (.notReplaced inv.function)) else .ok ()

/-- Calls name functions that can run. -/
def checkRuns (t : RuleTree) : Except PassError Unit := t.actions.forM checkRunsOf

/-! ### Shorter forms -/

/-- A call of a value map is a look-up of its only argument. -/
def lookupEffect (maps : List String) (a : Action) : Except PassError Effect :=
  match a.effect with
  | .call inv =>
    if inv.function ∈ maps then
      match inv.args with
      | [key] => .ok (.lookup inv.target inv.function key)
      | args => .error (actionError a (.valueMapArity inv.function args.length))
    else .ok a.effect
  | effect => .ok effect

/-- Turns calls of value maps into look-ups. -/
def withLookups (t : RuleTree) : Except PassError RuleTree :=
  t.tryNodes (Node.tryEffects (lookupEffect t.valueMaps.keys))

/-- The only argument of a call. -/
def onlyArg (a : Action) (inv : Invocation) : Except PassError Value :=
  match inv.args with
  | [arg] => .ok arg
  | args => .error (actionError a (.arity inv.function "1" args.length))

/-- The field named by an argument of `HDR`, in quotes or not. -/
def headerField : Value → Value
  | .constant name => .field name
  | other => other

/-- A constant assignment, `PARMVAL` and `HDR` set a field. -/
def assignmentEffect (a : Action) : Except PassError Effect :=
  match a.effect with
  | .call inv =>
    if inv.function == Invocation.constantFunction || inv.function == "PARMVAL" then
      (.setField inv.target ·) <$> onlyArg a inv
    else if inv.function == "HDR" then
      (fun arg => .setField inv.target (headerField arg)) <$> onlyArg a inv
    else .ok a.effect
  | effect => .ok effect

/-- Turns assignments that are written as calls into assignments. -/
def withAssignments (t : RuleTree) : Except PassError RuleTree :=
  t.tryNodes (Node.tryEffects assignmentEffect)

/-- A call of `SYSVAL` does nothing. -/
def sysvalNode (a : Action) : Node :=
  match call? a with
  | some inv => if inv.function == "SYSVAL" then .noop else .action a
  | none => .action a

/-- Removes calls of `SYSVAL`. -/
def stripSysval (t : RuleTree) : RuleTree := t.mapNodes (Node.mapActions sysvalNode)

/-- Copying a field to itself does nothing. -/
def copyNode (a : Action) : Node :=
  match a.effect with
  | .setField target value => if value.field? == some target then .noop else .action a
  | _ => .action a

/-- Removes copies of a field to itself. -/
def stripCopies (t : RuleTree) : RuleTree := t.mapNodes (Node.mapActions copyNode)

/-- Fields that stand for the whole message or header. -/
def specialFields : List String := ["$MSG", "$HDR"]

/-- The arguments without a special field in front. -/
def dropSpecial : List Value → List Value
  | .field name :: rest => if name ∈ specialFields then rest else .field name :: rest
  | args => args

/-- A call without a special field in front of its arguments. -/
def specialNode (a : Action) : Node :=
  match a.effect with
  | .call inv => .action { a with effect := .call { inv with args := dropSpecial inv.args } }
  | _ => .action a

/-- Removes special fields in front of the arguments of calls. -/
def dropSpecialFields (t : RuleTree) : RuleTree := t.mapNodes (Node.mapActions specialNode)

/-- Removes what does nothing from the actions of match rules. -/
def dropNoops (t : RuleTree) : RuleTree := t.mapNodes Node.dropNoops

/-- Joining constants gives a constant. -/
def constantNode (a : Action) : Node :=
  match a.effect with
  | .call inv =>
    if inv.function == "STRCAT" then
      match inv.args.mapM Value.constant? with
      | some texts =>
        .action { a with effect := .setField inv.target (.constant (String.join texts)) }
      | none => .action a
    else .action a
  | _ => .action a

/-- Evaluates calls of `STRCAT` whose arguments are constants. -/
def foldConstants (t : RuleTree) : RuleTree := t.mapNodes (Node.mapActions constantNode)

/-! ### Dates and durations -/

/-- The functions that read dates and durations. -/
def timeFunctions : List String := ["EVNTTIME", "UTC", "DUR"]

/-- The name of a field argument. -/
def fieldArg (a : Action) (inv : Invocation) (arg : Value) : Except PassError String :=
  match arg.field? with
  | some name => .ok name
  | none => .error (actionError a (.expectedField inv.function))

/-- The format in a constant argument. -/
def formatArg (a : Action) (inv : Invocation) (text : String) : Except PassError TimeFormat :=
  match TimeFormat.read text with
  | .ok format => .ok format
  | .error e => .error (actionError a (.badFormat inv.function text e.message))

/-- The reading of a date or a duration: constant formats, then fields. -/
def timeReading (a : Action) (inv : Invocation) : Except PassError TimeReading := do
  let texts := (inv.args.takeWhile Value.isConstant).filterMap Value.constant?
  let rest := inv.args.dropWhile Value.isConstant
  if texts.isEmpty then throw (actionError a (.noFormats inv.function))
  if rest.isEmpty then throw (actionError a (.noFields inv.function))
  let fields ← rest.mapM (fieldArg a inv)
  let formats ← texts.mapM (formatArg a inv)
  return ⟨inv.target, fields, formats⟩

/-- A call that reads a date or a duration. -/
def timeEffect (a : Action) : Except PassError Effect :=
  match a.effect with
  | .call inv =>
    if inv.function ∈ timeFunctions then do
      let reading ← timeReading a inv
      return if inv.function == "DUR" then .duration reading
        else .dateTime reading (inv.function == "UTC")
    else .ok a.effect
  | effect => .ok effect

/-- Turns the calls that read dates and durations into readings. -/
def withTimeReadings (t : RuleTree) : Except PassError RuleTree :=
  t.tryNodes (Node.tryEffects timeEffect)

/-! ### The time of the event -/

/-- The fields that are preferred for the time of the event, best first. -/
def preferredTimestamps : List String := ["event_time", "eventtime", "recorded_time", "starttime"]

/-- The field that an action sets to a date. -/
def dateTarget? (a : Action) : Option String :=
  match a.effect with
  | .dateTime reading _ => some reading.target
  | _ => none

/-- Removes every text that occurred before. -/
def distinct (texts : List String) : List String :=
  texts.foldl (fun seen text => if text ∈ seen then seen else seen ++ [text]) []

/-- The fields that are set to dates, each once. -/
def dateTargets (t : RuleTree) : List String := distinct (t.actions.filterMap dateTarget?)

/-- The best preferred field among the targets, or else the only target. -/
def timestampOf (targets : List String) : Option String :=
  match preferredTimestamps.find? (· ∈ targets) with
  | some name => some name
  | none => match targets with
    | [only] => some only
    | _ => none

/-- Selects the field that holds the time of the event, and warns when there is none. -/
def selectTimestamp (t : RuleTree) : RuleTree × List Diagnostic :=
  let targets := dateTargets t
  let selected := timestampOf targets
  let detail :=
    if targets.isEmpty then none else some ("candidates are " ++ String.intercalate ", " targets)
  let warnings :=
    if selected.isSome then [] else [.make .timestampNotSelected detail none none]
  ({ t with timestampField := selected }, warnings)

end LogRules.Calls

import LogRules.Processing.Program

/-! # Programs of rule trees

`compile` turns a node into a program, in any monad in which it can fail; a function gives the programs
that references stand for. For a tree this is done with a table of the bindings that were compiled so far:
a binding is compiled when a reference to it is first met, in the middle of the node that holds the
reference, and its program is kept for the references that follow. A bound on the depth of references
stops at a binding that refers to itself. -/

namespace LogRules

namespace Node

/-- Names the rule of a letter that is at fault. -/
def atLetter {α : Type} (e : Char → CompileError) : Except Char α → Except CompileError α
  | .ok a => .ok a
  | .error c => .error (e c)

/-- The operation of an action. -/
def compileAction (settings : Settings) (maps : Table ValueMap) (a : Action) :
    Except CompileError Operation :=
  match a.effect with
  | .setField target (.payload _) => .ok ⟨target, .value (.field payloadInput)⟩
  | .setField target v => .ok ⟨target, .value v⟩
  | .call inv =>
    match Function.ofName? inv.function with
    | none => .error (.unknownFunction a.source inv.function)
    | some function => .ok ⟨inv.target, .call function inv.args⟩
  | .lookup target name key =>
    match maps.get? name with
    | none => .error (.unknownValueMap a.source name)
    | some map => .ok ⟨target, .lookup map key⟩
  | .dateTime reading utc => do
    let layouts ← reading.formats.mapM fun f =>
      atLetter (.unsupportedSpecifier a.source) (Time.Layout.ofFormat settings.year f)
    let offset := if utc then .utc else settings.offset
    return ⟨reading.target, .dateTime reading.fields layouts offset⟩
  | .duration reading => do
    let formats ← reading.formats.mapM fun f =>
      atLetter (.unsupportedDurationSpecifier a.source) (Time.multipliersOf f)
    return ⟨reading.target, .duration reading.fields formats⟩

variable {m : Type → Type} [Monad m] [MonadLiftT (Except CompileError) m]

/-- The programs of the message ids, in the order of the ids. Only nodes that belong to an id have
to be fit to run. -/
def chosenPrograms (programs : List (m Program)) : List (String × Nat) → m (List (String × Program))
  | [] => pure []
  | (id, i) :: rest => do
    let program ← match programs[i]? with
      | none => liftM (Except.error (.danglingMessageId id i) : Except CompileError Program)
      | some program => program
    return (id, program) :: (← chosenPrograms programs rest)

/-- The matcher of a rule. -/
def compilePattern (rule : MatchRule) : Except CompileError Matcher :=
  (Matcher.ofPattern rule.pattern).mapError (.pattern rule.source)

mutual
/-- The program of a node. -/
def compile (settings : Settings) (maps : Table ValueMap) (reference : String → m Program) :
    Node → m Program
  | chain nodes => .chain <$> compileAll settings maps reference nodes
  | linearSelect nodes => .linearSelect <$> compileAll settings maps reference nodes
  | messageIdSelect index nodes =>
    .messageIdSelect <$> chosenPrograms (compileEach settings maps reference nodes) index.entries
  | matchRule rule onSuccess => do
    let matcher ← liftM (compilePattern rule)
    .matchRule rule.id matcher <$> compileAll settings maps reference onSuccess
  | action a => liftM (.operation <$> compileAction settings maps a)
  | .reference name => reference name
  | noop => pure .noop

/-- The programs of nodes, up to the first that has none. -/
def compileAll (settings : Settings) (maps : Table ValueMap) (reference : String → m Program) :
    List Node → m (List Program)
  | [] => pure []
  | n :: rest => do
    let program ← compile settings maps reference n
    return program :: (← compileAll settings maps reference rest)

/-- The programs of nodes, one by one. -/
def compileEach (settings : Settings) (maps : Table ValueMap) (reference : String → m Program) :
    List Node → List (m Program)
  | [] => []
  | n :: rest => compile settings maps reference n :: compileEach settings maps reference rest
end

end Node

/-- A computation on the programs of the bindings that were compiled so far. -/
abbrev Compiling := StateT (Table Program) (Except CompileError)

/-- The program of a binding from the table. When it is not there, it is made and kept. -/
def Compiling.cached (name : String) (make : Compiling Program) : Compiling Program := do
  match (← get).get? name with
  | some program => return program
  | none =>
    let program ← make
    modify fun compiled => compiled.insert name program
    return program

namespace RuleTree

/-- The program of a binding, with a way to compile one that was not met before. -/
def sharedProgram (t : RuleTree) (compileBinding : Node → Compiling Program) (name : String) :
    Compiling Program :=
  .cached name <| match t.bindings.get? name with
    | none => throw (.unresolvedReference name)
    | some n => compileBinding n

/-- The program that a reference stands for, when references go at most `depth` deep. -/
def referenceProgram (settings : Settings) (t : RuleTree) : (depth : Nat) → String → Compiling Program
  | 0, name => t.sharedProgram (fun _ => throw (.cyclicReference name)) name
  | depth + 1, name =>
    t.sharedProgram (fun n => n.compile settings t.valueMaps (t.referenceProgram settings depth)) name

/-- The program of a tree. Bindings that do not refer to themselves have no more depth than there are
bindings. -/
def compile (settings : Settings) (t : RuleTree) : Except CompileError Program :=
  (t.root.compile settings t.valueMaps (t.referenceProgram settings t.bindings.size)).run' .empty

end RuleTree

end LogRules

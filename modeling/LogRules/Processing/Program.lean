import LogRules.Matching.Run
import LogRules.Processing.Operation

/-! # Programs

A program is a rule tree that is ready to run: patterns are matchers, actions are operations, and
references are replaced by what they stand for. A run takes a state to a state. It either succeeds
or fails, and it tells what happened on the way. -/

namespace LogRules

/-- A rule tree that is ready to run. -/
inductive Program where
  /-- Runs everything. What fails is noted as an error. -/
  | chain (programs : List Program)
  /-- Runs one after the other until one succeeds. -/
  | linearSelect (programs : List Program)
  /-- Runs the program that belongs to the message id. -/
  | messageIdSelect (programs : List (String × Program))
  /-- Captures fields of the message and runs the actions. -/
  | matchRule (id : String) (matcher : Matcher) (onSuccess : List Program)
  | operation (op : Operation)
  | noop
  deriving Inhabited

/-- The state of a message that is processed. -/
structure State where
  /-- What the rules have not taken yet. -/
  message : List UInt8
  fields : Fields
  errors : List RuntimeError
  deriving Inhabited

/-- The state before the first rule. -/
def State.start (message : List UInt8) : State := ⟨message, .empty, []⟩

/-- Something that happens in a run. -/
inductive Event where
  /-- A match rule starts on a message. -/
  | enter (id : String) (message : List UInt8)
  /-- An alternative is tried. -/
  | attempt (a : Matching.Attempt)
  | capture (field value : String)
  /-- What a rule leaves of its message. -/
  | remaining (message : List UInt8)
  | exit (id : String) (matched : Bool)
  deriving DecidableEq, Repr, Inhabited

/-- How a run ends. -/
structure Outcome where
  /-- Why the run fails, if it does. -/
  failure? : Option RuntimeError
  state : State
  events : List Event
  deriving Inhabited

namespace Outcome

/-- A run that fails at once. -/
def fail (e : RuntimeError) (s : State) : Outcome := ⟨some e, s, []⟩

/-- A run that succeeds without an event. -/
def succeed (s : State) : Outcome := ⟨none, s, []⟩

/-- Notes the failure as an error. -/
def noted (o : Outcome) : Outcome :=
  ⟨none, { o.state with errors := o.state.errors ++ o.failure?.toList }, o.events⟩

/-- Puts events in front. -/
def after (events : List Event) (o : Outcome) : Outcome := { o with events := events ++ o.events }

end Outcome

/-- The captured values of a match. -/
def Matching.Match.values (m : Matching.Match) (message : List UInt8) : List (String × String) :=
  m.captures.map fun c =>
    (c.field, Text.decode ((message.drop c.start).take (c.stop - c.start)))

namespace Program

mutual
/-- Runs a program. -/
def run (settings : Settings) : Program → State → Outcome
  | chain programs, s => runAll settings programs s
  | linearSelect programs, s => runFirst settings programs s
  | messageIdSelect programs, s =>
    match s.fields.get? messageIdField with
    | none => .fail .messageIdMissing s
    | some id => runChosen settings id programs s
  | matchRule id matcher onSuccess, s =>
    let (attempts, match?) := matcher.attempts s.message
    let tried := .enter id s.message :: attempts.map Event.attempt
    match match? with
    | none => ⟨some .noMatch, s, tried ++ [.exit id false]⟩
    | some m =>
      let values := m.values s.message
      let o := runAll settings onSuccess { s with fields := s.fields.insertAll values }
      let rest := s.message.drop m.rest
      ⟨none, { o.state with message := rest },
        tried ++ values.map (fun (field, value) => .capture field value) ++ o.events
          ++ [.remaining rest, .exit id true]⟩
  | operation op, s =>
    match op.apply settings s.fields with
    | .ok fields => .succeed { s with fields }
    | .error e => .fail e s
  | noop, s => .succeed s

/-- Runs all programs in order. What fails is noted as an error. -/
def runAll (settings : Settings) : List Program → State → Outcome
  | [], s => .succeed s
  | p :: rest, s =>
    let o := (run settings p s).noted
    (runAll settings rest o.state).after o.events

/-- Runs programs in order until one succeeds. -/
def runFirst (settings : Settings) : List Program → State → Outcome
  | [], s => .fail .selectFailed s
  | p :: rest, s =>
    let o := run settings p s
    match o.failure? with
    | none => o
    | some _ => (runFirst settings rest o.state).after o.events

/-- Runs the program of a message id. -/
def runChosen (settings : Settings) (id : String) : List (String × Program) → State → Outcome
  | [], s => .fail (.messageIdNotMapped id) s
  | (key, p) :: rest, s => if key = id then run settings p s else runChosen settings id rest s
end

end Program

end LogRules

import LogRules.Processing.Processor
import LogRules.Processing.Trace

/-! # Tracers

A run can be watched. A tracer says what each event does to a state of its own, and a watched run
hands this state along: it tells of a rule when it starts and ends, of every alternative when it was
tried, and of every captured value. One tracer does nothing, another one writes the lines of a
trace. -/

namespace LogRules

/-- What the events of a run do to the state of a tracer. -/
structure Tracer (τ : Type) where
  /-- A match rule starts on a message. -/
  enterRule (id : String) (message : List UInt8) (t : τ) : τ
  /-- An alternative was tried. -/
  alternative (a : Matching.Attempt) (t : τ) : τ
  capture (field value : String) (t : τ) : τ
  /-- What a rule leaves of its message. -/
  remaining (message : List UInt8) (t : τ) : τ
  exitRule (id : String) (matched : Bool) (t : τ) : τ

namespace Tracer

/-- Does nothing. -/
def noop : Tracer Unit where
  enterRule _ _ t := t
  alternative _ t := t
  capture _ _ t := t
  remaining _ t := t
  exitRule _ _ t := t

/-- Writes lines: all of them at the last verbosity, less the messages at the one before, and those of
rules at the first one. -/
def print (verbosity : Verbosity) : Tracer (Array String) where
  enterRule id message lines :=
    let lines := lines.push (Event.enterText id)
    if verbosity = .veryVerbose then lines.push (Event.messageText "msg" message) else lines
  alternative a lines :=
    if verbosity = .default then lines else lines.push (Event.attemptText a)
  capture field value lines :=
    if verbosity = .default then lines else lines.push (Event.captureText field value)
  remaining message lines :=
    if verbosity = .veryVerbose then lines.push (Event.messageText "rest" message) else lines
  exitRule id matched lines := lines.push (Event.exitText id matched)

end Tracer

section Watched

variable {τ : Type} (tracer : Tracer τ)

namespace Matching

/-- The first of some alternatives that can be placed. -/
def chooseWith (chunk pos : Nat) (m : List UInt8) : (number : Nat) → List Elements → τ →
    Option Placement × τ
  | _, [], t => (none, t)
  | number, elements :: rest, t =>
    let p? := place? elements pos pos m
    let t := tracer.alternative ⟨chunk, number, p?.isSome⟩ t
    match p? with
    | some p => (some p, t)
    | none => chooseWith chunk pos m (number + 1) rest t

/-- Places chunks in front of `m`, the bytes of the message from `pos` on. -/
def placeChunksWith (number pos : Nat) (m : List UInt8) : List Chunk → τ → Option Placement × τ
  | [], t => (some (.empty pos), t)
  | chunk :: rest, t =>
    match chooseWith tracer number pos m 0 chunk.alternatives t with
    | (none, t) => (none, t)
    | (some p, t) =>
      let (p?, t) := placeChunksWith (number + 1) p.stop (m.drop (p.stop - pos)) rest t
      (p?.map p.append, t)

end Matching

/-- What the matcher finds in a message. -/
def Matcher.runWith (matcher : Matcher) (message : List UInt8) (t : τ) : Option Matching.Match × τ :=
  let (p?, t) := Matching.placeChunksWith tracer 0 0 message matcher.chunks t
  (p?.map fun p => ⟨p.captures, if matcher.fromStart then 0 else p.payload?.getD p.stop⟩, t)

/-- How a watched run ends. -/
structure Watched (τ : Type) where
  /-- Why the run fails, if it does. -/
  failure? : Option RuntimeError
  state : State
  trace : τ

/-- Notes the failure as an error. -/
def Watched.noted (w : Watched τ) : Watched τ :=
  { w with failure? := none, state.errors := w.state.errors ++ w.failure?.toList }

namespace Program

mutual
/-- Runs a program. -/
def runWith (settings : Settings) : Program → State → τ → Watched τ
  | chain programs, s, t => runAllWith settings programs s t
  | linearSelect programs, s, t => runFirstWith settings programs s t
  | messageIdSelect programs, s, t =>
    match s.fields.get? messageIdField with
    | none => ⟨some .messageIdMissing, s, t⟩
    | some id => runChosenWith settings id programs s t
  | matchRule id matcher onSuccess, s, t =>
    match matcher.runWith tracer s.message (tracer.enterRule id s.message t) with
    | (none, t) => ⟨some .noMatch, s, tracer.exitRule id false t⟩
    | (some m, t) =>
      let values := m.values s.message
      let t := values.foldl (fun t (field, value) => tracer.capture field value t) t
      let w := runAllWith settings onSuccess { s with fields := s.fields.insertAll values } t
      let rest := s.message.drop m.rest
      ⟨none, { w.state with message := rest },
        tracer.exitRule id true (tracer.remaining rest w.trace)⟩
  | operation op, s, t =>
    match op.apply settings s.fields with
    | .ok fields => ⟨none, { s with fields }, t⟩
    | .error e => ⟨some e, s, t⟩
  | noop, s, t => ⟨none, s, t⟩

/-- Runs all programs in order. What fails is noted as an error. -/
def runAllWith (settings : Settings) : List Program → State → τ → Watched τ
  | [], s, t => ⟨none, s, t⟩
  | p :: rest, s, t =>
    let w := (runWith settings p s t).noted
    runAllWith settings rest w.state w.trace

/-- Runs programs in order until one succeeds. -/
def runFirstWith (settings : Settings) : List Program → State → τ → Watched τ
  | [], s, t => ⟨some .selectFailed, s, t⟩
  | p :: rest, s, t =>
    let w := runWith settings p s t
    match w.failure? with
    | none => w
    | some _ => runFirstWith settings rest w.state w.trace

/-- Runs the program of a message id. -/
def runChosenWith (settings : Settings) (id : String) : List (String × Program) → State → τ →
    Watched τ
  | [], s, t => ⟨some (.messageIdNotMapped id), s, t⟩
  | (key, p) :: rest, s, t =>
    if key = id then runWith settings p s t else runChosenWith settings id rest s t
end

end Program

namespace Processor

/-- Processes a message, watched. -/
def processWith (p : Processor) (message : List UInt8) (t : τ) : Watched τ :=
  (p.program.runWith tracer p.settings (.start message) t).noted

/-- Processes a message and writes the lines of a trace. The events are not kept. -/
def traced (verbosity : Verbosity) (p : Processor) (message : List UInt8) : Result × List String :=
  let w := p.processWith (.print verbosity) message #[]
  (⟨w.state.fields, w.state.errors, []⟩, w.trace.toList)

end Processor

end Watched

end LogRules

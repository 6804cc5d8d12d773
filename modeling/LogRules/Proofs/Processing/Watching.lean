import LogRules.Processing.Tracer
import LogRules.Proofs.Matching.Decomposition

/-! # Watched runs

A tracer is told the events of a run, in their order, and has no part in the run: a watched run ends as the run
does, with the state that the events leave the tracer in (`Program.runWith_eq`). The print tracer is left with the
lines of the events (`Tracer.toList_notes_print`). -/

namespace LogRules

open Matching

variable {τ : Type}

namespace Tracer

variable (tracer : Tracer τ)

/-- What an event does to the state of a tracer. -/
def note : Event → τ → τ
  | .enter id message, t => tracer.enterRule id message t
  | .attempt a, t => tracer.alternative a t
  | .capture field value, t => tracer.capture field value t
  | .remaining message, t => tracer.remaining message t
  | .exit id matched, t => tracer.exitRule id matched t

/-- What events do to the state of a tracer, one after the other. -/
def notes (events : List Event) (t : τ) : τ := events.foldl (fun t e => tracer.note e t) t

@[simp] theorem notes_nil (t : τ) : tracer.notes [] t = t := rfl

@[simp] theorem notes_cons (e : Event) (events : List Event) (t : τ) :
    tracer.notes (e :: events) t = tracer.notes events (tracer.note e t) := rfl

@[simp] theorem notes_append (first second : List Event) (t : τ) :
    tracer.notes (first ++ second) t = tracer.notes second (tracer.notes first t) := List.foldl_append

/-- The lines of an event that a verbosity shows are written behind the lines before. -/
theorem toList_note_print (verbosity : Verbosity) (e : Event) (lines : Array String) :
    ((print verbosity).note e lines).toList = lines.toList ++ Trace.lines verbosity [e] := by
  cases e <;> cases verbosity <;> simp [note, print, Trace.lines, Event.lines, Verbosity.level]

theorem toList_notes_print (verbosity : Verbosity) (events : List Event) (lines : Array String) :
    ((print verbosity).notes events lines).toList = lines.toList ++ Trace.lines verbosity events := by
  induction events generalizing lines with
  | nil => exact (List.append_nil _).symm
  | cons e events ih =>
      rw [notes_cons, ih, toList_note_print, List.append_assoc]
      simp [Trace.lines]

end Tracer

variable (tracer : Tracer τ)

namespace Matching

/-! ### Alternatives and chunks -/

/-- Failed attempts, from an alternative on. -/
def failuresFrom (chunk number count : Nat) : List Attempt :=
  (List.range' number count).map fun i => ⟨chunk, i, false⟩

theorem failuresFrom_zero (chunk count : Nat) : failuresFrom chunk 0 count = failures chunk count := by
  rw [failuresFrom, failures, List.range_eq_range']

theorem failuresFrom_succ (chunk number count : Nat) :
    failuresFrom chunk number (count + 1) = ⟨chunk, number, false⟩ :: failuresFrom chunk (number + 1) count := by
  rw [failuresFrom, List.range'_succ]
  rfl

theorem chooseWith_of_none {chunk pos number : Nat} {m : List UInt8} {alternatives : List Elements} {t : τ}
    (h : chooseFrom? pos m number alternatives = none) :
    chooseWith tracer chunk pos m number alternatives t =
      (none, tracer.notes ((failuresFrom chunk number alternatives.length).map .attempt) t) := by
  induction alternatives generalizing number t with
  | nil => rfl
  | cons elements rest ih =>
      rw [chooseFrom?] at h
      cases hplace : place? elements pos pos m with
      | some p =>
          rw [hplace] at h
          cases h
      | none =>
          rw [hplace] at h
          rw [chooseWith, hplace, List.length_cons, failuresFrom_succ]
          exact ih h

theorem chooseWith_of_some {chunk pos number k : Nat} {m : List UInt8} {alternatives : List Elements} {t : τ}
    {p : Placement} (h : chooseFrom? pos m number alternatives = some (number + k, p)) :
    chooseWith tracer chunk pos m number alternatives t =
      (some p, tracer.notes ((failuresFrom chunk number k ++ [Attempt.mk chunk (number + k) true]).map .attempt) t) := by
  induction alternatives generalizing number k t with
  | nil => cases h
  | cons elements rest ih =>
      rw [chooseFrom?] at h
      cases hplace : place? elements pos pos m with
      | some q =>
          rw [hplace] at h
          obtain ⟨hk, rfl⟩ := Prod.mk.inj (Option.some.inj h)
          obtain rfl : k = 0 := by omega
          rw [chooseWith, hplace]
          rfl
      | none =>
          rw [hplace] at h
          -- the alternative that is taken is a later one
          obtain ⟨j, -, hj, -⟩ := chooseFrom?_eq_some h
          obtain rfl : k = j + 1 := by omega
          rw [show number + (j + 1) = number + 1 + j by omega] at h ⊢
          rw [chooseWith, hplace, failuresFrom_succ]
          exact ih h

/-- The tracer is told of the alternatives that are tried. -/
theorem placeChunksWith_eq (number pos : Nat) (m : List UInt8) (chunks : List Chunk) (t : τ) :
    placeChunksWith tracer number pos m chunks t =
      ((placeChunks number pos m chunks).2,
        tracer.notes ((placeChunks number pos m chunks).1.map .attempt) t) := by
  induction chunks generalizing number pos m t with
  | nil => rfl
  | cons chunk rest ih =>
      cases hchoose : chunk.choose? pos m with
      | none =>
          rw [placeChunksWith, chooseWith_of_none tracer hchoose, placeChunks, hchoose, failuresFrom_zero]
      | some choice =>
          obtain ⟨i, p⟩ := choice
          have hsome : chooseFrom? pos m 0 chunk.alternatives = some (0 + i, p) := by
            rw [Nat.zero_add]
            exact hchoose
          rw [placeChunksWith, chooseWith_of_some tracer hsome, placeChunks_cons hchoose, failuresFrom_zero,
            Nat.zero_add]
          dsimp only
          rw [ih]
          simp

end Matching

theorem Matcher.runWith_eq (matcher : Matcher) (message : List UInt8) (t : τ) :
    matcher.runWith tracer message t =
      (matcher.run message, tracer.notes ((matcher.attempts message).1.map .attempt) t) := by
  rw [runWith, placeChunksWith_eq]
  rfl

/-! ### Programs -/

/-- How a run ends for a tracer that is told its events. -/
def Outcome.watched (o : Outcome) (t : τ) : Watched τ := ⟨o.failure?, o.state, tracer.notes o.events t⟩

theorem Outcome.watched_after (o : Outcome) (events : List Event) (t : τ) :
    (o.after events).watched tracer t = o.watched tracer (tracer.notes events t) := by
  rw [watched, watched, after, Tracer.notes_append]

theorem Outcome.noted_watched (o : Outcome) (t : τ) : (o.watched tracer t).noted = o.noted.watched tracer t := rfl

namespace Program

variable (settings : Settings)

theorem notes_captures (values : List (String × String)) (t : τ) :
    values.foldl (fun t (field, value) => tracer.capture field value t) t =
      tracer.notes (values.map fun (field, value) => .capture field value) t := by
  rw [Tracer.notes, List.foldl_map]
  rfl

/-- A rule that is watched, when all its actions are as they are unwatched. -/
theorem runWith_matchRule (id : String) (matcher : Matcher) {onSuccess : List Program} (s : State) (t : τ)
    (h : ∀ s t, runAllWith tracer settings onSuccess s t = (runAll settings onSuccess s).watched tracer t) :
    runWith tracer settings (matchRule id matcher onSuccess) s t =
      (run settings (matchRule id matcher onSuccess) s).watched tracer t := by
  rw [runWith, run, Matcher.runWith_eq, Matcher.run]
  rcases matcher.attempts s.message with ⟨tried, match?⟩
  cases match? with
  | none => simp [Outcome.watched, Tracer.note]
  | some m =>
      dsimp only
      rw [h, notes_captures]
      simp [Outcome.watched, Tracer.note]

mutual
/-- **A watched run is the run.** It fails as the run does and leaves the same state; the tracer is told the
events. -/
theorem runWith_eq : ∀ (p : Program) (s : State) (t : τ),
    runWith tracer settings p s t = (run settings p s).watched tracer t
  | chain programs, s, t => by
      rw [runWith, run]
      exact runAllWith_eq programs s t
  | linearSelect programs, s, t => by
      rw [runWith, run]
      exact runFirstWith_eq programs s t
  | messageIdSelect programs, s, t => by
      rw [runWith, run]
      cases s.fields.get? messageIdField with
      | none => rfl
      | some id => exact runChosenWith_eq id programs s t
  | matchRule id matcher onSuccess, s, t =>
      runWith_matchRule tracer settings id matcher s t fun s' t' => runAllWith_eq onSuccess s' t'
  | operation op, s, t => by
      rw [runWith, run]
      cases op.apply settings s.fields <;> rfl
  | noop, s, t => rfl

theorem runAllWith_eq : ∀ (programs : List Program) (s : State) (t : τ),
    runAllWith tracer settings programs s t = (runAll settings programs s).watched tracer t
  | [], s, t => rfl
  | p :: rest, s, t => by
      rw [runAllWith, runAll, runWith_eq p s t, Outcome.noted_watched, Outcome.watched_after]
      exact runAllWith_eq rest _ _

theorem runFirstWith_eq : ∀ (programs : List Program) (s : State) (t : τ),
    runFirstWith tracer settings programs s t = (runFirst settings programs s).watched tracer t
  | [], s, t => rfl
  | p :: rest, s, t => by
      rw [runFirstWith, runFirst, runWith_eq p s t]
      rcases run settings p s with ⟨failure?, s', events⟩
      cases failure? with
      | none => rfl
      | some e =>
          dsimp only [Outcome.watched]
          rw [runFirstWith_eq rest]
          exact (Outcome.watched_after ..).symm

theorem runChosenWith_eq (id : String) : ∀ (programs : List (String × Program)) (s : State) (t : τ),
    runChosenWith tracer settings id programs s t = (runChosen settings id programs s).watched tracer t
  | [], s, t => rfl
  | (key, p) :: rest, s, t => by
      rw [runChosenWith, runChosen]
      split
      · exact runWith_eq p s t
      · exact runChosenWith_eq id rest s t
end

end Program

/-- Whatever watches it, a message yields the same fields and the same errors. -/
theorem Processor.processWith_eq (p : Processor) (message : List UInt8) (t : τ) :
    (p.processWith tracer message t).state.fields = (p.process message).fields ∧
      (p.processWith tracer message t).state.errors = (p.process message).errors ∧
      (p.processWith tracer message t).trace = tracer.notes (p.process message).events t := by
  rw [processWith, Program.runWith_eq]
  exact ⟨rfl, rfl, rfl⟩

end LogRules

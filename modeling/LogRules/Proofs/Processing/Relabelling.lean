import LogRules.Processing.Processor
import LogRules.Proofs.Result
import LogRules.Proofs.Tree.Labels

/-! # Runs do not look at labels

The ids of match rules only occur in events. `Program.unlabelled` blanks them; a program and its
unlabelled form agree on failure and state (`run_unlabelled`), and the unlabelled form of a tree
compiles to the unlabelled form of its program (`compile_unlabelled`). Which rule a compile error
names depends on labels, whether there is one does not. -/

namespace LogRules

/-! ### Programs -/

namespace Program

mutual
/-- The program without the ids of its rules. -/
def unlabelled : Program → Program
  | chain programs => chain (unlabelledAll programs)
  | linearSelect programs => linearSelect (unlabelledAll programs)
  | messageIdSelect programs => messageIdSelect (unlabelledChoices programs)
  | matchRule _ matcher onSuccess => matchRule "" matcher (unlabelledAll onSuccess)
  | operation op => operation op
  | noop => noop

/-- Several programs without the ids of their rules. -/
def unlabelledAll : List Program → List Program
  | [] => []
  | p :: rest => unlabelled p :: unlabelledAll rest

/-- The programs of message ids without the ids of their rules. -/
def unlabelledChoices : List (String × Program) → List (String × Program)
  | [] => []
  | (id, p) :: rest => (id, unlabelled p) :: unlabelledChoices rest
end

theorem unlabelledAll_eq_map (programs : List Program) :
    unlabelledAll programs = programs.map unlabelled := by
  induction programs with
  | nil => rfl
  | cons p rest ih => rw [unlabelledAll, ih, List.map_cons]

end Program

namespace Outcome

/-- Two runs end in the same way; what happened on the way may differ. -/
def Agrees (o o' : Outcome) : Prop := o.failure? = o'.failure? ∧ o.state = o'.state

theorem Agrees.refl (o : Outcome) : o.Agrees o := ⟨rfl, rfl⟩

theorem Agrees.noted {o o' : Outcome} (h : o.Agrees o') : o.noted.Agrees o'.noted := by
  refine ⟨rfl, ?_⟩
  unfold Outcome.noted
  rw [h.1, h.2]

theorem Agrees.after {o o' : Outcome} (h : o.Agrees o') (events events' : List Event) :
    (o.after events).Agrees (o'.after events') := h

end Outcome

namespace Program

variable (settings : Settings)

mutual
theorem run_unlabelled : ∀ (p : Program) (s : State),
    (p.unlabelled.run settings s).Agrees (p.run settings s)
  | chain programs, s => runAll_unlabelled programs s
  | linearSelect programs, s => runFirst_unlabelled programs s
  | messageIdSelect programs, s => by
      simp only [unlabelled, run]
      cases s.fields.get? messageIdField with
      | none => exact .refl _
      | some id => exact runChosen_unlabelled id programs s
  | matchRule id matcher onSuccess, s => by
      simp only [unlabelled, run]
      cases (matcher.attempts s.message).2 with
      | none => exact ⟨rfl, rfl⟩
      | some m =>
          have h := runAll_unlabelled onSuccess
            { s with fields := s.fields.insertAll (m.values s.message) }
          refine ⟨rfl, ?_⟩
          dsimp only
          rw [h.2]
  | operation op, s => .refl _
  | noop, s => .refl _

theorem runAll_unlabelled : ∀ (programs : List Program) (s : State),
    (runAll settings (unlabelledAll programs) s).Agrees (runAll settings programs s)
  | [], s => .refl _
  | p :: rest, s => by
      have h := (run_unlabelled p s).noted
      have hrest := runAll_unlabelled rest (run settings p s).noted.state
      simp only [unlabelledAll, runAll]
      rw [h.2]
      exact hrest.after _ _

theorem runFirst_unlabelled : ∀ (programs : List Program) (s : State),
    (runFirst settings (unlabelledAll programs) s).Agrees (runFirst settings programs s)
  | [], s => .refl _
  | p :: rest, s => by
      have h := run_unlabelled p s
      have hrest := runFirst_unlabelled rest (run settings p s).state
      simp only [unlabelledAll, runFirst]
      rw [h.1]
      cases (run settings p s).failure? with
      | none => exact h
      | some e =>
          dsimp only
          rw [h.2]
          exact hrest.after _ _

theorem runChosen_unlabelled (id : String) : ∀ (programs : List (String × Program)) (s : State),
    (runChosen settings id (unlabelledChoices programs) s).Agrees
      (runChosen settings id programs s)
  | [], s => .refl _
  | (key, p) :: rest, s => by
      simp only [unlabelledChoices, runChosen]
      split
      · exact run_unlabelled p s
      · exact runChosen_unlabelled id rest s
end

end Program

namespace Node

variable {settings : Settings} {maps : Table ValueMap}

/-! ### Compiling -/

theorem toOption_atLetter {α : Type} (e e' : Char → CompileError) (x : Except Char α) :
    (atLetter e x).toOption = (atLetter e' x).toOption := by
  cases x <;> rfl

/-- The place of an action only occurs in errors. -/
theorem compileAction_unlabelled (a : Action) :
    (compileAction settings maps a.unlabelled).toOption =
      (compileAction settings maps a).toOption := by
  obtain ⟨effect, source⟩ := a
  cases effect with
  | setField target value => cases value <;> rfl
  | call inv =>
      simp only [compileAction, Action.unlabelled]
      cases Function.ofName? inv.function <;> rfl
  | lookup target name key =>
      simp only [compileAction, Action.unlabelled]
      cases maps.get? name <;> rfl
  | dateTime reading utc =>
      simp only [compileAction, Action.unlabelled, toOption_bind]
      rw [toOption_mapM fun f _ => toOption_atLetter _ (.unsupportedSpecifier source) _]
  | duration reading =>
      simp only [compileAction, Action.unlabelled, toOption_bind]
      rw [toOption_mapM fun f _ => toOption_atLetter _ (.unsupportedDurationSpecifier source) _]

/-- The labels of a rule only occur in errors. -/
theorem compilePattern_unlabelled (rule : MatchRule) :
    (compilePattern rule.unlabelled).toOption = (compilePattern rule).toOption := by
  unfold compilePattern MatchRule.unlabelled
  cases Matcher.ofPattern rule.pattern <;> rfl

theorem toOption_chosenPrograms_cons (programs : List (Except CompileError Program)) (id : String)
    (i : Nat) (rest : List (String × Nat)) :
    (chosenPrograms programs ((id, i) :: rest)).toOption =
      (programs[i]?.bind Except.toOption).bind fun p =>
        (chosenPrograms programs rest).toOption.map ((id, p) :: ·) := by
  rw [chosenPrograms]
  cases programs[i]? with
  | none => rfl
  | some x =>
      cases x with
      | error e => rfl
      | ok p => cases chosenPrograms programs rest <;> rfl

/-- The choice among programs only looks at those that belong to an id. -/
theorem chosenPrograms_unlabelled {programs programs' : List (Except CompileError Program)}
    (h : programs'.map Except.toOption = programs.map fun x => x.toOption.map Program.unlabelled)
    (entries : List (String × Nat)) :
    (chosenPrograms programs' entries).toOption =
      (chosenPrograms programs entries).toOption.map Program.unlabelledChoices := by
  induction entries with
  | nil => rfl
  | cons e rest ih =>
      obtain ⟨id, i⟩ := e
      have hi : (programs'[i]?).map Except.toOption =
          (programs[i]?).map fun x => x.toOption.map Program.unlabelled := by
        rw [← List.getElem?_map, h, List.getElem?_map]
      have hpick : programs'[i]?.bind Except.toOption =
          (programs[i]?.bind Except.toOption).map Program.unlabelled := by
        cases hp : programs[i]? with
        | none =>
            rw [hp, Option.map_none, Option.map_eq_none_iff] at hi
            rw [hi]
            rfl
        | some x =>
            rw [hp, Option.map_some] at hi
            obtain ⟨x', hx', hopt⟩ := Option.map_eq_some_iff.mp hi
            rw [hx']
            exact hopt
      rw [toOption_chosenPrograms_cons, toOption_chosenPrograms_cons, hpick, ih]
      cases programs[i]?.bind Except.toOption with
      | none => rfl
      | some p => cases (chosenPrograms programs rest).toOption <;> rfl

theorem toOption_compileAll_cons (resolve : String → Except CompileError Program) (n : Node)
    (rest : List Node) :
    (compileAll settings maps resolve (n :: rest)).toOption =
      (n.compile settings maps resolve).toOption.bind fun p =>
        (compileAll settings maps resolve rest).toOption.map (p :: ·) := by
  rw [compileAll]
  cases n.compile settings maps resolve with
  | error e => rfl
  | ok p => cases compileAll settings maps resolve rest <;> rfl

/-- The unlabelled form of a tree compiles to the unlabelled form of its program, if references
do. -/
theorem compile_unlabelled {resolve resolve' : String → Except CompileError Program}
    (href : ∀ name, (resolve' name).toOption = (resolve name).toOption.map Program.unlabelled) :
    (∀ n : Node, (n.unlabelled.compile settings maps resolve').toOption =
      (n.compile settings maps resolve).toOption.map Program.unlabelled) ∧
    ∀ nodes : List Node,
      (compileAll settings maps resolve' (unlabelledAll nodes)).toOption =
        (compileAll settings maps resolve nodes).toOption.map Program.unlabelledAll ∧
      (compileEach settings maps resolve' (unlabelledAll nodes)).map Except.toOption =
        (compileEach settings maps resolve nodes).map fun x =>
          x.toOption.map Program.unlabelled := by
  refine Node.forest_induction ?_ ⟨rfl, rfl⟩ ?_
  · intro n ih
    cases n with
    | chain nodes =>
        dsimp only [children] at ih
        simp only [unlabelled, compile, toOption_map, Option.map_map]
        rw [ih.1, Option.map_map]
        rfl
    | linearSelect nodes =>
        dsimp only [children] at ih
        simp only [unlabelled, compile, toOption_map, Option.map_map]
        rw [ih.1, Option.map_map]
        rfl
    | messageIdSelect index nodes =>
        dsimp only [children] at ih
        simp only [unlabelled, compile, toOption_map, Option.map_map]
        rw [chosenPrograms_unlabelled ih.2, Option.map_map]
        rfl
    | matchRule rule onSuccess =>
        dsimp only [children] at ih
        simp only [unlabelled, compile, monadLift_self, toOption_bind, toOption_map,
          compilePattern_unlabelled]
        cases (compilePattern rule).toOption with
        | none => rfl
        | some matcher =>
            simp only [Option.bind_some, Option.map_map]
            rw [ih.1, Option.map_map]
            rfl
    | action a =>
        simp only [unlabelled, compile, monadLift_self, toOption_map, Option.map_map,
          compileAction_unlabelled]
        rfl
    | reference name => exact href name
    | noop => rfl
  · intro n rest hn hrest
    refine ⟨?_, ?_⟩
    · rw [unlabelledAll, toOption_compileAll_cons, toOption_compileAll_cons, hn, hrest.1]
      cases (n.compile settings maps resolve).toOption with
      | none => rfl
      | some p => cases (compileAll settings maps resolve rest).toOption <;> rfl
    · rw [unlabelledAll, compileEach, compileEach, List.map_cons, List.map_cons, hn, hrest.2]

end Node

end LogRules

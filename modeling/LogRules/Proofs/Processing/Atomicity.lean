import LogRules.Processing.Program
import Mathlib.Data.List.Infix

/-! # Runs that fail leave no trace

A run only takes bytes off the front of the message, adds fields behind the ones that are set and adds
errors behind the ones that are noted (`State.Grows`). A run that fails does none of this
(`Outcome.IsAtomic`): its state is the one that it started in. So every program that a select tries starts
in the state that the select starts in (`linearSelect_run`). -/

namespace LogRules

namespace Table

variable {α : Type}

/-- Keys keep their places when a value is set. -/
theorem keys_prefix_insert (t : Table α) (key : String) (value : α) :
    t.keys <+: (t.insert key value).keys := by
  rw [keys_insert]
  split
  · exact List.prefix_rfl
  · exact List.prefix_append _ _

theorem keys_prefix_insertAll (t : Table α) (entries : List (String × α)) :
    t.keys <+: (t.insertAll entries).keys := by
  induction entries generalizing t with
  | nil => exact List.prefix_rfl
  | cons e rest ih => exact (keys_prefix_insert t e.1 e.2).trans (ih (t.insert e.1 e.2))

end Table

/-- What a run may do to a state: take from the front of the message, set fields and note errors. -/
structure State.Grows (s s' : State) : Prop where
  /-- What is left of the message is its end. -/
  message : s'.message <:+ s.message
  /-- Fields that are set stay set, in their places. -/
  fields : s.fields.keys <+: s'.fields.keys
  /-- Errors that are noted stay noted. -/
  errors : s.errors <+: s'.errors

namespace State.Grows

variable {s s' s'' : State}

theorem refl (s : State) : s.Grows s := ⟨List.suffix_rfl, List.prefix_rfl, List.prefix_rfl⟩

theorem trans (h : s.Grows s') (h' : s'.Grows s'') : s.Grows s'' :=
  ⟨h'.message.trans h.message, h.fields.trans h'.fields, h.errors.trans h'.errors⟩

end State.Grows

/-- A run from this state keeps what has to be kept, and all of it if it fails. -/
structure Outcome.IsAtomic (s : State) (o : Outcome) : Prop where
  /-- A run that fails ends in the state in which it started. -/
  unchanged : o.failure? ≠ none → o.state = s
  grows : s.Grows o.state

namespace Outcome

variable {s : State}

theorem isAtomic_fail (e : RuntimeError) (s : State) : (fail e s).IsAtomic s :=
  ⟨fun _ => rfl, .refl s⟩

theorem isAtomic_succeed {s' : State} (h : s.Grows s') : (succeed s').IsAtomic s :=
  ⟨fun hfails => absurd rfl hfails, h⟩

theorem IsAtomic.after {o : Outcome} (h : o.IsAtomic s) (events : List Event) :
    (o.after events).IsAtomic s := ⟨h.unchanged, h.grows⟩

/-- Noting a failure only adds an error. -/
theorem IsAtomic.grows_noted {o : Outcome} (h : o.IsAtomic s) : s.Grows o.noted.state :=
  h.grows.trans ⟨List.suffix_rfl, List.prefix_rfl, List.prefix_append _ _⟩

end Outcome

/-- An operation that succeeds sets its target or nothing. -/
theorem Operation.keys_prefix_of_apply {settings : Settings} {op : Operation} {fields fields' : Fields}
    (h : op.apply settings fields = .ok fields') : fields.keys <+: fields'.keys := by
  unfold apply at h
  cases hvalue : op.compute settings fields with
  | error e => rw [hvalue] at h; cases h
  | ok value? =>
      rw [hvalue] at h
      cases value? with
      | none => cases h; exact List.prefix_rfl
      | some value => cases h; exact Table.keys_prefix_insert fields op.target value

namespace Program

variable (settings : Settings)

/-- A match that succeeds keeps what its actions keep; the message is its own. -/
theorem isAtomic_matchRule (id : String) (matcher : Matcher) {onSuccess : List Program} {s : State}
    (h : ∀ s' : State, s'.Grows (runAll settings onSuccess s').state) :
    ((matchRule id matcher onSuccess).run settings s).IsAtomic s := by
  rw [run]
  rcases matcher.attempts s.message with ⟨attempts, match?⟩
  cases match? with
  | none => exact ⟨fun _ => rfl, .refl s⟩
  | some m =>
      have hactions := h { s with fields := s.fields.insertAll (m.values s.message) }
      refine ⟨fun hfails => absurd rfl hfails, List.drop_suffix _ _, ?_, hactions.errors⟩
      exact (Table.keys_prefix_insertAll s.fields _).trans hactions.fields

theorem isAtomic_operation (op : Operation) (s : State) :
    ((operation op).run settings s).IsAtomic s := by
  rw [run]
  cases h : op.apply settings s.fields with
  | error e => exact Outcome.isAtomic_fail e s
  | ok fields =>
      have hkeys : s.fields.keys <+: fields.keys := op.keys_prefix_of_apply h
      exact Outcome.isAtomic_succeed ⟨List.suffix_rfl, hkeys, List.prefix_rfl⟩

mutual
/-- A run that fails leaves message, fields and errors as they are; every run leaves the end of the
message, the places of the fields that are set, and the errors that are noted. -/
theorem run_isAtomic : ∀ (p : Program) (s : State), (p.run settings s).IsAtomic s
  | chain programs, s => by
      rw [run]
      exact ⟨fun hfails => absurd (runAll_grows programs s).1 hfails, (runAll_grows programs s).2⟩
  | linearSelect programs, s => by
      rw [run]
      exact runFirst_isAtomic programs s
  | messageIdSelect programs, s => by
      rw [run]
      cases s.fields.get? messageIdField with
      | none => exact Outcome.isAtomic_fail _ s
      | some id => exact runChosen_isAtomic id programs s
  | matchRule id matcher onSuccess, s =>
      isAtomic_matchRule settings id matcher fun s' => (runAll_grows onSuccess s').2
  | operation op, s => isAtomic_operation settings op s
  | noop, s => Outcome.isAtomic_succeed (.refl s)

/-- Running all programs succeeds: what fails is noted. -/
theorem runAll_grows : ∀ (programs : List Program) (s : State),
    (runAll settings programs s).failure? = none ∧ s.Grows (runAll settings programs s).state
  | [], s => ⟨rfl, .refl s⟩
  | p :: rest, s => by
      have hp := (run_isAtomic p s).grows_noted
      have hrest := runAll_grows rest (run settings p s).noted.state
      rw [runAll]
      exact ⟨hrest.1, hp.trans hrest.2⟩

theorem runFirst_isAtomic : ∀ (programs : List Program) (s : State),
    (runFirst settings programs s).IsAtomic s
  | [], s => Outcome.isAtomic_fail _ s
  | p :: rest, s => by
      have hp := run_isAtomic p s
      rw [runFirst]
      cases h : (run settings p s).failure? with
      | none => exact hp
      | some e =>
          -- what failed left the state alone, so the rest is tried where the select started
          have hstate : (run settings p s).state = s := hp.unchanged (by rw [h]; exact nofun)
          rw [hstate]
          exact (runFirst_isAtomic rest s).after _

theorem runChosen_isAtomic (id : String) : ∀ (programs : List (String × Program)) (s : State),
    (runChosen settings id programs s).IsAtomic s
  | [], s => Outcome.isAtomic_fail _ s
  | (key, p) :: rest, s => by
      rw [runChosen]
      split
      · exact run_isAtomic p s
      · exact runChosen_isAtomic id rest s
end

/-- Failure is atomic, and no run undoes what was there before it. -/
theorem run_changes_nothing_or_grows (p : Program) (s : State) :
    ((p.run settings s).failure? ≠ none → (p.run settings s).state = s) ∧
      (p.run settings s).state.message <:+ s.message ∧
      s.fields.keys <+: (p.run settings s).state.fields.keys ∧
      s.errors <+: (p.run settings s).state.errors := by
  have h := run_isAtomic settings p s
  exact ⟨h.unchanged, h.grows.message, h.grows.fields, h.grows.errors⟩

/-- A select ends as the first of its programs that succeeds where the select starts. -/
theorem linearSelect_run (programs : List Program) (s : State) :
    ((linearSelect programs).run settings s).state =
        ((programs.find? fun p => (p.run settings s).failure?.isNone).elim s
          fun p => (p.run settings s).state) ∧
      ((linearSelect programs).run settings s).failure? =
        ((programs.find? fun p => (p.run settings s).failure?.isNone).elim (some .selectFailed)
          fun _ => none) := by
  rw [run]
  induction programs with
  | nil => exact ⟨rfl, rfl⟩
  | cons p rest ih =>
      rw [runFirst, List.find?_cons]
      cases h : (run settings p s).failure? with
      | none => exact ⟨rfl, h⟩
      | some e =>
          have hstate : (run settings p s).state = s :=
            (run_isAtomic settings p s).unchanged (by rw [h]; exact nofun)
          rw [hstate]
          exact ih

end Program

end LogRules

import LogRules.Proofs.Processing.Compiles

/-! # Which action an error comes from

The errors of a run do not tell which actions they come from, and the program does not tell either: an
assignment of the payload and a copy of the field of that name are one operation. `Node.perform` takes a node
as it stands and notes with every error the action that it comes from. A node that has a program performs what
the program runs (`Node.run_eq_perform`), and an action is blamed for nothing but what its own operation fails
with (`Node.keeps_perform`). -/

namespace LogRules

/-- An error and the action that it comes from. The errors of rules and selections come from none. -/
structure Blame where
  error : RuntimeError
  action? : Option Action

/-- The state of a message that is processed, where every error comes with an action. -/
structure Ledger where
  message : List UInt8
  fields : Fields
  blames : List Blame

namespace Ledger

/-- The ledger before the first rule. -/
def start (message : List UInt8) : Ledger := ⟨message, .empty, []⟩

/-- The state, without the actions. -/
def state (s : Ledger) : State := ⟨s.message, s.fields, s.blames.map Blame.error⟩

end Ledger

/-- What comes of a node. -/
structure Performance where
  failure? : Option Blame
  ledger : Ledger

namespace Performance

/-- Nothing but a failure that is no action's. -/
def fail (e : RuntimeError) (s : Ledger) : Performance := ⟨some ⟨e, none⟩, s⟩

def succeed (s : Ledger) : Performance := ⟨none, s⟩

/-- The ledger with the failure noted. -/
def noted (r : Performance) : Ledger := { r.ledger with blames := r.ledger.blames ++ r.failure?.toList }

/-- The outcome of a run is this performance without the actions. -/
structure Tells (r : Performance) (o : Outcome) : Prop where
  failure : o.failure? = r.failure?.map Blame.error
  state : o.state = r.ledger.state

theorem tells_fail (e : RuntimeError) (s : Ledger) : (fail e s).Tells (.fail e s.state) := ⟨rfl, rfl⟩

theorem tells_succeed (s : Ledger) : (succeed s).Tells (.succeed s.state) := ⟨rfl, rfl⟩

theorem Tells.noted {r : Performance} {o : Outcome} (h : r.Tells o) : o.noted.state = r.noted.state := by
  simp only [Outcome.noted, Performance.noted, h.failure, h.state, Ledger.state, List.map_append]
  cases r.failure? <;> rfl

@[simp] theorem noted_succeed (s : Ledger) : (succeed s).noted = s := by
  simp [noted, succeed]

end Performance

/-- What a node does to a ledger. -/
abbrev Move := Ledger → Performance

namespace Move

/-- All moves in order. What fails is noted. -/
def all (moves : List Move) (s : Ledger) : Ledger := moves.foldl (fun s f => (f s).noted) s

/-- Moves in order until one succeeds. -/
def first : List Move → Move
  | [], s => .fail .selectFailed s
  | f :: rest, s =>
    match (f s).failure? with
    | none => f s
    | some _ => first rest (f s).ledger

/-- The move that the index has for the message id. -/
def chosen (index : Table Nat) (moves : List Move) (s : Ledger) : Performance :=
  match s.fields.get? messageIdField with
  | none => .fail .messageIdMissing s
  | some id =>
    match index.get? id with
    | none => .fail (.messageIdNotMapped id) s
    | some i => (moves[i]?.getD .succeed) s

/-- Captures fields of the message and makes all moves. -/
def matched (matcher : Matcher) (moves : List Move) (s : Ledger) : Performance :=
  match (matcher.attempts s.message).2 with
  | none => .fail .noMatch s
  | some m =>
    let captured := { s with fields := s.fields.insertAll (m.values s.message) }
    .succeed { all moves captured with message := s.message.drop m.rest }

/-- The operation of an action, which is blamed for a failure. -/
def operated (settings : Settings) (a : Action) (op : Operation) (s : Ledger) : Performance :=
  match op.apply settings s.fields with
  | .ok fields => .succeed { s with fields }
  | .error e => ⟨some ⟨e, some a⟩, s⟩

@[simp] theorem all_cons (f : Move) (rest : List Move) (s : Ledger) :
    all (f :: rest) s = all rest (f s).noted := rfl

end Move

/-! ### Nodes -/

namespace Node

mutual
/-- What a node does. A rule or an action that does not compile does nothing. -/
def perform (settings : Settings) (maps : Table ValueMap) : Node → Move
  | chain nodes => fun s => .succeed (Move.all (performEach settings maps nodes) s)
  | linearSelect nodes => Move.first (performEach settings maps nodes)
  | messageIdSelect index nodes => Move.chosen index (performEach settings maps nodes)
  | matchRule rule onSuccess =>
    match compilePattern rule with
    | .error _ => .succeed
    | .ok matcher => Move.matched matcher (performEach settings maps onSuccess)
  | action a =>
    match compileAction settings maps a with
    | .error _ => .succeed
    | .ok op => Move.operated settings a op
  | .reference _ => .succeed
  | noop => .succeed

/-- What several nodes do, one by one. -/
def performEach (settings : Settings) (maps : Table ValueMap) : List Node → List Move
  | [] => []
  | n :: rest => perform settings maps n :: performEach settings maps rest
end

variable {settings : Settings} {maps : Table ValueMap}

theorem performEach_eq_map (nodes : List Node) :
    performEach settings maps nodes = nodes.map (perform settings maps) := by
  induction nodes with
  | nil => rfl
  | cons n rest ih => rw [performEach, ih, List.map_cons]

/-- What a node does only depends on what its children do. -/
theorem perform_withChildren {n : Node} {nodes : List Node}
    (h : nodes.map (perform settings maps) = n.children.map (perform settings maps)) :
    (n.withChildren nodes).perform settings maps = n.perform settings maps := by
  cases n <;> simp only [children] at h <;>
    simp only [withChildren, perform, performEach_eq_map, h]

end Node

/-! ### Programs -/

namespace Program

variable {settings : Settings}

/-- A run of the program is what the move tells. -/
def Does (settings : Settings) (f : Move) (p : Program) : Prop :=
  ∀ s : Ledger, (f s).Tells (p.run settings s.state)

theorem runAll_tells {moves : List Move} {programs : List Program}
    (h : List.Forall₂ (Does settings) moves programs) (s : Ledger) :
    (Performance.succeed (Move.all moves s)).Tells (runAll settings programs s.state) := by
  induction h generalizing s with
  | nil => exact Performance.tells_succeed s
  | @cons f p moves programs hfirst hrest ih =>
      rw [runAll, (hfirst s).noted]
      exact ⟨(ih (f s).noted).failure, (ih (f s).noted).state⟩

theorem does_linearSelect {moves : List Move} {programs : List Program}
    (h : List.Forall₂ (Does settings) moves programs) :
    (linearSelect programs).Does settings (Move.first moves) := by
  intro s
  rw [run]
  induction h generalizing s with
  | nil => exact Performance.tells_fail .selectFailed s
  | @cons f p moves programs hfirst hrest ih =>
      rw [runFirst, (hfirst s).failure, Move.first]
      cases hfailure : (f s).failure? with
      | none => exact hfirst s
      | some b =>
          simp only [Option.map_some, (hfirst s).state]
          exact ⟨(ih (f s).ledger).failure, (ih (f s).ledger).state⟩

theorem does_messageIdSelect {index : Table Nat} {moves : List Move}
    {programs : List (Except CompileError Program)} {choices : List (String × Program)}
    (hprograms : ∀ (i : Nat) (p : Program), programs[i]? = some (.ok p) →
      ∃ f, moves[i]? = some f ∧ p.Does settings f)
    (h : Node.chosenPrograms programs index.entries = .ok choices) :
    (messageIdSelect choices).Does settings (Move.chosen index moves) := by
  intro s
  cases hid : s.fields.get? messageIdField with
  | none =>
      simp only [Move.chosen, run, Ledger.state, hid]
      exact Performance.tells_fail .messageIdMissing s
  | some id =>
      have hchosen : (messageIdSelect choices).run settings s.state =
          runChosen settings id choices s.state := by
        simp only [run, Ledger.state, hid]
      rw [hchosen]
      rcases runChosen_chosenPrograms h s.state with ⟨hnone, hrun⟩ | ⟨i, p, hi, hp, hrun⟩
      · have hnone : index.get? id = none := hnone
        rw [hrun]
        simp only [Move.chosen, hid, hnone]
        exact Performance.tells_fail (.messageIdNotMapped id) s
      · have hi : index.get? id = some i := hi
        obtain ⟨f, hf, hdoes⟩ := hprograms i p hp
        rw [hrun]
        simp only [Move.chosen, hid, hi, hf, Option.getD_some]
        exact hdoes s

theorem does_matchRule {moves : List Move} {programs : List Program}
    (h : List.Forall₂ (Does settings) moves programs) (id : String) (matcher : Matcher) :
    (matchRule id matcher programs).Does settings (Move.matched matcher moves) := by
  intro s
  cases hattempts : matcher.attempts s.message with
  | mk attempts match? =>
      cases match? with
      | none =>
          simp only [Move.matched, run, Ledger.state, hattempts]
          exact ⟨rfl, rfl⟩
      | some m =>
          have hactions := runAll_tells h { s with fields := s.fields.insertAll (m.values s.message) }
          simp only [Move.matched, run, Ledger.state, hattempts]
          refine ⟨rfl, ?_⟩
          exact congrArg (fun t : State => { t with message := s.message.drop m.rest }) hactions.state

theorem does_operation (a : Action) (op : Operation) :
    (operation op).Does settings (Move.operated settings a op) := by
  intro s
  cases happly : op.apply settings s.fields <;>
    · simp only [Move.operated, run, Ledger.state, happly]
      exact ⟨rfl, rfl⟩

end Program

namespace Node

variable {settings : Settings} {maps : Table ValueMap}

/-- The programs of nodes do what the nodes perform, if each does. -/
theorem forall₂_does {nodes : List Node} {programs : List Program}
    (hnodes : ∀ c ∈ nodes, ∀ p, c.compile settings maps unbound = .ok p →
      p.Does settings (c.perform settings maps))
    (h : compileAll settings maps unbound nodes = .ok programs) :
    List.Forall₂ (Program.Does settings) (nodes.map (perform settings maps)) programs := by
  rw [compileAll_eq_mapM, mapM_eq_ok] at h
  rw [List.forall₂_map_left_iff]
  induction h with
  | nil => exact .nil
  | cons hp _ ih =>
      rw [List.forall_mem_cons] at hnodes
      exact .cons (hnodes.1 _ hp) (ih hnodes.2)

/-- **A program runs what its node performs.** -/
theorem run_eq_perform {n : Node} {p : Program} (h : n.compile settings maps unbound = .ok p) :
    p.Does settings (n.perform settings maps) := by
  induction n using child_induction generalizing p with
  | step n ih =>
      replace ih : ∀ c ∈ n.children, ∀ p, c.compile settings maps unbound = .ok p →
          p.Does settings (c.perform settings maps) := fun c hc p hp => ih c hc hp
      cases n with
      | chain nodes =>
          obtain ⟨programs, hprograms, rfl⟩ := map_eq_ok.mp h
          rw [perform, performEach_eq_map]
          exact Program.runAll_tells (forall₂_does ih hprograms)
      | linearSelect nodes =>
          obtain ⟨programs, hprograms, rfl⟩ := map_eq_ok.mp h
          rw [perform, performEach_eq_map]
          exact Program.does_linearSelect (forall₂_does ih hprograms)
      | messageIdSelect index nodes =>
          obtain ⟨choices, hchoices, rfl⟩ := map_eq_ok.mp h
          rw [perform, performEach_eq_map]
          refine Program.does_messageIdSelect (fun i p hp => ?_) hchoices
          rw [compileEach_eq_map, List.getElem?_map, Option.map_eq_some_iff] at hp
          obtain ⟨c, hc, hp⟩ := hp
          refine ⟨c.perform settings maps, ?_, ih c (List.mem_of_getElem? hc) p hp⟩
          rw [List.getElem?_map, hc, Option.map_some]
      | matchRule rule onSuccess =>
          obtain ⟨matcher, hmatcher, h⟩ := bind_eq_ok.mp h
          obtain ⟨programs, hprograms, rfl⟩ := map_eq_ok.mp h
          have hmatcher : compilePattern rule = .ok matcher := hmatcher
          simp only [perform, performEach_eq_map, hmatcher]
          exact Program.does_matchRule (forall₂_does ih hprograms) rule.id matcher
      | action a =>
          obtain ⟨op, hop, rfl⟩ := map_eq_ok.mp h
          have hop : compileAction settings maps a = .ok op := hop
          simp only [perform, hop]
          exact Program.does_operation a op
      | reference name => cases h
      | noop =>
          cases h
          exact Performance.tells_succeed

end Node

/-! ### Blames -/

/-- Whatever holds of the noted blames still does after the move, and holds of its failure. -/
def Move.Keeps (P : Blame → Prop) (f : Move) : Prop :=
  ∀ s : Ledger, (∀ b ∈ s.blames, P b) → ∀ b ∈ (f s).noted.blames, P b

namespace Move

variable {P : Blame → Prop}

theorem keeps_succeed : Keeps P .succeed := by
  intro s hs
  rw [Performance.noted_succeed]
  exact hs

theorem keeps_fail {e : RuntimeError} (h : P ⟨e, none⟩) : Keeps P (.fail e) := by
  intro s hs b hb
  rcases List.mem_append.mp hb with hb | hb
  · exact hs b hb
  · cases List.mem_singleton.mp hb
    exact h

theorem blames_all {moves : List Move} (h : ∀ f ∈ moves, Keeps P f) {s : Ledger}
    (hs : ∀ b ∈ s.blames, P b) : ∀ b ∈ (all moves s).blames, P b := by
  induction moves generalizing s with
  | nil => exact hs
  | cons f rest ih =>
      rw [List.forall_mem_cons] at h
      rw [all_cons]
      exact ih h.2 (h.1 s hs)

theorem keeps_first {moves : List Move} (h : ∀ f ∈ moves, Keeps P f)
    (hnone : ∀ e, P ⟨e, none⟩) : Keeps P (first moves) := by
  induction moves with
  | nil => exact keeps_fail (hnone _)
  | cons f rest ih =>
      rw [List.forall_mem_cons] at h
      intro s hs
      rw [first]
      cases hfailure : (f s).failure? with
      | none => exact h.1 s hs
      | some b =>
          refine ih h.2 (f s).ledger fun b hb => h.1 s hs b ?_
          exact List.mem_append_left _ hb

theorem keeps_all {moves : List Move} (h : ∀ f ∈ moves, Keeps P f) :
    Keeps P fun s => .succeed (all moves s) := by
  intro s hs
  rw [Performance.noted_succeed]
  exact blames_all h hs

theorem keeps_chosen {moves : List Move} (h : ∀ f ∈ moves, Keeps P f) (hnone : ∀ e, P ⟨e, none⟩)
    (index : Table Nat) : Keeps P (chosen index moves) := by
  intro s hs
  unfold chosen
  split
  · exact keeps_fail (hnone _) s hs
  · split
    · exact keeps_fail (hnone _) s hs
    · next i _ =>
        cases hi : moves[i]? with
        | none => exact keeps_succeed s hs
        | some f => exact h f (List.mem_of_getElem? hi) s hs

theorem keeps_matched {moves : List Move} (h : ∀ f ∈ moves, Keeps P f) (hnone : ∀ e, P ⟨e, none⟩)
    (matcher : Matcher) : Keeps P (matched matcher moves) := by
  intro s hs
  unfold matched
  split
  · exact keeps_fail (hnone _) s hs
  · rw [Performance.noted_succeed]
    exact blames_all h hs

theorem keeps_operated {settings : Settings} {a : Action} {op : Operation}
    (h : ∀ fields e, op.apply settings fields = .error e → P ⟨e, some a⟩) :
    Keeps P (operated settings a op) := by
  intro s hs
  unfold operated
  split
  · rw [Performance.noted_succeed]
    exact hs
  · next e he =>
      intro b hb
      rcases List.mem_append.mp hb with hb | hb
      · exact hs b hb
      · cases List.mem_singleton.mp hb
        exact h s.fields e he

end Move

namespace Node

variable {settings : Settings} {maps : Table ValueMap}

/-- **Actions are blamed for their own failures.** What holds of the failures of rules and selections and of
what the actions of a node may fail with holds of all blames. -/
theorem keeps_perform {P : Blame → Prop} (hnone : ∀ e, P ⟨e, none⟩) {n : Node}
    (hactions : ∀ a ∈ n.actions, ∀ op, compileAction settings maps a = .ok op →
      ∀ fields e, op.apply settings fields = .error e → P ⟨e, some a⟩) :
    (n.perform settings maps).Keeps P := by
  induction n using child_induction with
  | step n ih =>
      have hchildren : ∀ f ∈ n.children.map (perform settings maps), f.Keeps P := by
        intro f hf
        obtain ⟨c, hc, rfl⟩ := List.mem_map.mp hf
        refine ih c hc fun a ha => hactions a ?_
        rw [actions_eq]
        exact List.mem_append_right _ (List.mem_flatMap.mpr ⟨c, hc, ha⟩)
      cases n with
      | chain nodes =>
          rw [perform, performEach_eq_map]
          exact Move.keeps_all hchildren
      | linearSelect nodes =>
          rw [perform, performEach_eq_map]
          exact Move.keeps_first hchildren hnone
      | messageIdSelect index nodes =>
          rw [perform, performEach_eq_map]
          exact Move.keeps_chosen hchildren hnone index
      | matchRule rule onSuccess =>
          rw [perform, performEach_eq_map]
          split
          · exact Move.keeps_succeed
          · exact Move.keeps_matched hchildren hnone _
      | action a =>
          rw [perform]
          split
          · exact Move.keeps_succeed
          · next op hop => exact Move.keeps_operated (hactions a (by simp) op hop)
      | reference name => exact Move.keeps_succeed
      | noop => exact Move.keeps_succeed

end Node

/-! ### Trees without bindings -/

namespace RuleTree

/-- What is left when the root has taken a message, with every error noted. -/
def perform (settings : Settings) (t : RuleTree) (message : List UInt8) : Ledger :=
  (t.root.perform settings t.valueMaps (.start message)).noted

end RuleTree

/-- A processor of a tree without bindings leaves of a message what the tree performs. -/
theorem Processor.process_eq_perform {year : Int} {config : Config} {t : RuleTree} {p : Processor}
    (hbindings : t.bindings = .empty) (h : ofTree year config t = .ok p) (message : List UInt8) :
    (p.process message).fields = (t.perform p.settings message).fields ∧
      (p.process message).errors = (t.perform p.settings message).blames.map Blame.error := by
  obtain ⟨-, hcompile⟩ := parts_of_ofTree h
  rw [RuleTree.compile_eq_unbound _ hbindings] at hcompile
  have hstate := (Node.run_eq_perform hcompile (.start message)).noted
  exact ⟨congrArg State.fields hstate, congrArg State.errors hstate⟩

end LogRules

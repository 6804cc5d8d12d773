import LogRules.Proofs.Processing.Dispatch
import LogRules.Proofs.Tree.Actions

/-! # Trees that compile without bindings

A tree without bindings compiles as its root does when no reference stands for anything
(`RuleTree.compile_eq_unbound`). A node then compiles when its parts do, except that a selection by message
id only asks for the nodes that an id points to. So a node still compiles with other actions that compile
(`Node.Compiles.mapActions`) and without the nodes that do nothing (`Node.Compiles.dropNoops`). -/

namespace LogRules

namespace Node

variable {settings : Settings} {maps : Table ValueMap}

/-! ### Nodes without bindings -/

/-- No reference stands for anything. -/
def unbound (name : String) : Except CompileError Program := .error (.unresolvedReference name)

theorem compileAll_eq_mapM (resolve : String → Except CompileError Program) (nodes : List Node) :
    compileAll settings maps resolve nodes = nodes.mapM (compile settings maps resolve) := by
  induction nodes with
  | nil => rfl
  | cons n rest ih => rw [compileAll, ih, List.mapM_cons]

/-- The node has a program, without bindings. -/
def Compiles (settings : Settings) (maps : Table ValueMap) (n : Node) : Prop :=
  ∃ p, n.compile settings maps unbound = .ok p

theorem compileAll_succeeds_iff {nodes : List Node} :
    (∃ programs, compileAll settings maps unbound nodes = .ok programs) ↔
      ∀ c ∈ nodes, c.Compiles settings maps := by
  rw [compileAll_eq_mapM, exists_mapM_eq_ok]
  rfl

theorem chosenPrograms_succeeds_iff {programs : List (Except CompileError Program)}
    {entries : List (String × Nat)} :
    (∃ choices, chosenPrograms programs entries = .ok choices) ↔
      ∀ e ∈ entries, ∃ p, programs[e.2]? = some (.ok p) := by
  induction entries with
  | nil =>
      constructor
      · exact fun _ _ he => nomatch he
      · exact fun _ => ⟨[], rfl⟩
  | cons e rest ih =>
      obtain ⟨id, i⟩ := e
      rw [List.forall_mem_cons, ← ih]
      constructor
      · rintro ⟨choices, h⟩
        have hoption := congrArg Except.toOption h
        rw [toOption_chosenPrograms_cons] at hoption
        obtain ⟨p, hp, hoption⟩ := Option.bind_eq_some_iff.mp hoption
        obtain ⟨others, hothers, -⟩ := Option.map_eq_some_iff.mp hoption
        obtain ⟨x, hx, hxp⟩ := Option.bind_eq_some_iff.mp hp
        rw [eq_ok_of_toOption hxp] at hx
        exact ⟨⟨p, hx⟩, others, eq_ok_of_toOption hothers⟩
      · rintro ⟨⟨p, hp⟩, others, hothers⟩
        refine ⟨(id, p) :: others, ?_⟩
        have hp : programs[i]? = some (.ok p) := hp
        rw [chosenPrograms, hp, hothers]
        rfl

theorem compiles_chain {nodes : List Node} :
    (chain nodes).Compiles settings maps ↔ ∀ c ∈ nodes, c.Compiles settings maps := by
  rw [Compiles, compile, exists_map_eq_ok, compileAll_succeeds_iff]

theorem compiles_linearSelect {nodes : List Node} :
    (linearSelect nodes).Compiles settings maps ↔ ∀ c ∈ nodes, c.Compiles settings maps := by
  rw [Compiles, compile, exists_map_eq_ok, compileAll_succeeds_iff]

theorem compiles_messageIdSelect {index : Table Nat} {nodes : List Node} :
    (messageIdSelect index nodes).Compiles settings maps ↔
      ∀ e ∈ index.entries, ∃ c, nodes[e.2]? = some c ∧ c.Compiles settings maps := by
  rw [Compiles, compile, exists_map_eq_ok, compileEach_eq_map, chosenPrograms_succeeds_iff]
  simp only [List.getElem?_map, Option.map_eq_some_iff]
  refine forall₂_congr fun e _ => ?_
  constructor
  · rintro ⟨p, c, hc, hp⟩
    exact ⟨c, hc, p, hp⟩
  · rintro ⟨c, hc, p, hp⟩
    exact ⟨p, c, hc, hp⟩

theorem compiles_matchRule {rule : MatchRule} {onSuccess : List Node} :
    (matchRule rule onSuccess).Compiles settings maps ↔
      (∃ matcher, compilePattern rule = .ok matcher) ∧ ∀ c ∈ onSuccess, c.Compiles settings maps := by
  rw [← compileAll_succeeds_iff, Compiles, compile]
  constructor
  · rintro ⟨p, h⟩
    obtain ⟨matcher, hmatcher, h⟩ := bind_eq_ok.mp h
    obtain ⟨programs, hprograms, -⟩ := map_eq_ok.mp h
    exact ⟨⟨matcher, hmatcher⟩, programs, hprograms⟩
  · rintro ⟨⟨matcher, hmatcher⟩, programs, hprograms⟩
    exact ⟨_, bind_eq_ok.mpr ⟨matcher, hmatcher, map_eq_ok.mpr ⟨programs, hprograms, rfl⟩⟩⟩

/-! ### Edits -/

theorem mapActions_eq_withChildren {n : Node} (h : n.action? = none) (f : Action → Node) :
    n.mapActions f = n.withChildren (n.children.map (mapActions f)) := by
  cases n with
  | action a => cases h
  | _ => simp only [mapActions, withChildren, children, mapActionsAll_eq_map]

/-- Dropping what does nothing from the children of a match rule, and keeping all other children. -/
theorem dropNoops_eq_withChildren (n : Node) :
    n.dropNoops = n.withChildren (n.children.map dropNoops) ∨
      ∃ rule onSuccess, n = matchRule rule onSuccess ∧
        n.dropNoops = matchRule rule ((onSuccess.map dropNoops).filter (!·.isNoop)) := by
  cases n with
  | matchRule rule onSuccess =>
      refine .inr ⟨rule, onSuccess, rfl, ?_⟩
      rw [dropNoops, dropNoopsAll_eq_map]
  | _ =>
      left
      simp only [dropNoops, withChildren, children, dropNoopsAll_eq_map]

/-- A node still compiles when its children are replaced, one by one, by nodes that compile if they do. -/
theorem Compiles.withChildren {n : Node} (h : n.Compiles settings maps) {g : Node → Node}
    (hg : ∀ c ∈ n.children, c.Compiles settings maps → (g c).Compiles settings maps) :
    (n.withChildren (n.children.map g)).Compiles settings maps := by
  cases n with
  | chain nodes =>
      rw [compiles_chain] at h
      exact compiles_chain.mpr (List.forall_mem_map.mpr fun c hc => hg c hc (h c hc))
  | linearSelect nodes =>
      rw [compiles_linearSelect] at h
      exact compiles_linearSelect.mpr (List.forall_mem_map.mpr fun c hc => hg c hc (h c hc))
  | messageIdSelect index nodes =>
      rw [compiles_messageIdSelect] at h
      refine compiles_messageIdSelect.mpr fun e he => ?_
      obtain ⟨c, hc, hcompiles⟩ := h e he
      refine ⟨g c, ?_, hg c (List.mem_of_getElem? hc) hcompiles⟩
      simp only [children, List.getElem?_map, hc, Option.map_some]
  | matchRule rule onSuccess =>
      rw [compiles_matchRule] at h
      refine compiles_matchRule.mpr ⟨h.1, ?_⟩
      exact List.forall_mem_map.mpr fun c hc => hg c hc (h.2 c hc)
  | _ => exact h

/-- A node compiles with other actions that compile. -/
theorem Compiles.mapActions {f : Action → Node}
    (hf : ∀ a, (action a).Compiles settings maps → (f a).Compiles settings maps) {n : Node}
    (h : n.Compiles settings maps) : (n.mapActions f).Compiles settings maps := by
  induction n using child_induction with
  | step n ih =>
      cases haction : n.action? with
      | some a =>
          cases n <;> cases haction
          exact hf a h
      | none =>
          rw [mapActions_eq_withChildren haction]
          exact h.withChildren ih

/-- A node compiles without what does nothing. -/
theorem Compiles.dropNoops {n : Node} (h : n.Compiles settings maps) :
    n.dropNoops.Compiles settings maps := by
  induction n using child_induction with
  | step n ih =>
      have hchildren := h.withChildren ih
      rcases dropNoops_eq_withChildren n with heq | ⟨rule, onSuccess, rfl, heq⟩
      · rw [heq]
        exact hchildren
      · rw [heq]
        obtain ⟨hpattern, hnodes⟩ := compiles_matchRule.mp hchildren
        exact compiles_matchRule.mpr ⟨hpattern, fun c hc => hnodes c (List.mem_filter.mp hc).1⟩

end Node

namespace RuleTree

/-- Without bindings no reference stands for anything. -/
theorem compile_eq_unbound (settings : Settings) {t : RuleTree} (h : t.bindings = .empty) :
    t.compile settings = t.root.compile settings t.valueMaps Node.unbound := by
  have hsize : t.bindings.size = 0 := by rw [h]; rfl
  have hreference : ∀ name, Compiling.Agrees (· = .empty) (t.referenceProgram settings 0 name)
      (Node.unbound name) := by
    intro name
    have hget : t.bindings.get? name = none := by rw [h]; rfl
    rw [referenceProgram, sharedProgram, hget]
    refine (Compiling.agrees_liftM (Node.unbound name)).cached ?_ ?_
    · rintro compiled program rfl hprogram
      cases hprogram
    · rintro compiled program rfl hprogram
      cases hprogram
  unfold compile
  rw [hsize]
  exact (Node.compile_agrees.1 t.root fun name _ => hreference name).result .empty rfl

end RuleTree

end LogRules

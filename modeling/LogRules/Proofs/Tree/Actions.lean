import LogRules.Proofs.Result
import LogRules.Proofs.Tree.Inline
import LogRules.Tree.Edit

/-! # The actions of a tree

`Node.actions` lists the actions of a tree in order. Edits of rules and the removal of nodes without effect
leave the list as it is; an edit of actions changes it action by action. -/

namespace LogRules

namespace Node

/-- The action of a node that is one. -/
def action? : Node → Option Action
  | action a => some a
  | _ => none

/-- The actions of a tree in order. -/
def actions (n : Node) : List Action := n.preorder.filterMap action?

theorem mem_actions {n : Node} {a : Action} : a ∈ n.actions ↔ .action a ∈ n.preorder := by
  rw [actions, List.mem_filterMap]
  constructor
  · rintro ⟨m, hm, heq⟩
    cases m <;> cases heq
    exact hm
  · exact fun hn => ⟨_, hn, rfl⟩

theorem actions_eq (n : Node) : n.actions = n.action?.toList ++ n.children.flatMap actions := by
  rw [actions, preorder_eq, preorderAll_eq_flatMap, List.filterMap_cons, List.filterMap_flatMap]
  cases n <;> rfl

/-- The actions of a node that is none come from its children. -/
theorem actions_of_children {n : Node} (h : n.action? = none) : n.actions = n.children.flatMap actions := by
  rw [actions_eq, h]
  rfl

@[simp] theorem actions_action (a : Action) : (action a).actions = [a] := rfl

@[simp] theorem actions_reference (name : String) : (reference name).actions = [] := rfl

@[simp] theorem actions_noop : noop.actions = [] := rfl

@[simp] theorem actions_chain (nodes : List Node) : (chain nodes).actions = nodes.flatMap actions :=
  actions_of_children rfl

@[simp] theorem actions_linearSelect (nodes : List Node) :
    (linearSelect nodes).actions = nodes.flatMap actions :=
  actions_of_children rfl

@[simp] theorem actions_messageIdSelect (index : Table Nat) (nodes : List Node) :
    (messageIdSelect index nodes).actions = nodes.flatMap actions :=
  actions_of_children rfl

@[simp] theorem actions_matchRule (rule : MatchRule) (onSuccess : List Node) :
    (matchRule rule onSuccess).actions = onSuccess.flatMap actions :=
  actions_of_children rfl

/-! ### Edits -/

theorem actions_mapRules (f : MatchRule → MatchRule) :
    (∀ n : Node, (n.mapRules f).actions = n.actions) ∧
    ∀ nodes : List Node, (mapRulesAll f nodes).flatMap actions = nodes.flatMap actions := by
  refine forest_induction ?_ rfl ?_
  · intro n ih
    cases n <;> simp only [children] at ih <;> simp [mapRules, ih]
  · intro n rest hn hrest
    rw [mapRulesAll, List.flatMap_cons, List.flatMap_cons, hn, hrest]

/-- An edit that puts an action or nothing in the place of every action. -/
theorem actions_mapActions {f : Action → Node} (hf : ∀ a, (f a).children = []) :
    (∀ n : Node, (n.mapActions f).actions = n.actions.filterMap fun a => (f a).action?) ∧
    ∀ nodes : List Node, (mapActionsAll f nodes).flatMap actions =
      (nodes.flatMap actions).filterMap fun a => (f a).action? := by
  refine forest_induction ?_ rfl ?_
  · intro n ih
    cases n with
    | action a =>
        rw [mapActions, actions_eq, hf]
        cases h : (f a).action? <;> simp [h]
    | reference name => rfl
    | noop => rfl
    | _ =>
        simp only [children] at ih
        simp [mapActions, ih]
  · intro n rest hn hrest
    rw [mapActionsAll, List.flatMap_cons, List.flatMap_cons, List.filterMap_append, hn, hrest]

/-- Nodes without effect have no actions. -/
theorem actions_dropNoops :
    (∀ n : Node, n.dropNoops.actions = n.actions) ∧
    ∀ nodes : List Node, (dropNoopsAll nodes).flatMap actions = nodes.flatMap actions := by
  have hfilter : ∀ nodes : List Node,
      (nodes.filter (!·.isNoop)).flatMap actions = nodes.flatMap actions := by
    intro nodes
    induction nodes with
    | nil => rfl
    | cons n rest ih =>
        rw [List.filter_cons, List.flatMap_cons, ← ih]
        split
        · rw [List.flatMap_cons]
        · next h =>
            cases n with
            | noop => rfl
            | _ => exact absurd rfl h
  refine forest_induction ?_ rfl ?_
  · intro n ih
    cases n <;> simp only [children] at ih <;> simp [dropNoops, hfilter, ih]
  · intro n rest hn hrest
    rw [dropNoopsAll, List.flatMap_cons, List.flatMap_cons, hn, hrest]

/-- The action with another effect, if there is one. -/
def withEffect? {ε : Type} (f : Action → Except ε Effect) (a : Action) : Option Action :=
  (f a).toOption.map fun effect => { a with effect }

/-- An edit of effects that succeeds puts an action in the place of every action. -/
theorem actions_tryEffects {ε : Type} (f : Action → Except ε Effect) :
    (∀ n m : Node, n.tryEffects f = .ok m → m.actions = n.actions.filterMap (withEffect? f)) ∧
    ∀ nodes ms : List Node, tryEffectsAll f nodes = .ok ms →
      ms.flatMap actions = (nodes.flatMap actions).filterMap (withEffect? f) := by
  refine forest_induction ?_ ?_ ?_
  · intro n ih m hm
    cases n with
    | action a =>
        obtain ⟨effect, heffect, rfl⟩ := map_eq_ok.mp hm
        simp [withEffect?, heffect, Except.toOption]
    | reference name =>
        cases hm
        rfl
    | noop =>
        cases hm
        rfl
    | _ =>
        obtain ⟨ms, hms, rfl⟩ := map_eq_ok.mp hm
        simpa [children] using ih ms hms
  · intro ms hms
    cases hms
    rfl
  · intro n rest hn hrest ms hms
    obtain ⟨first, hfirst, hms⟩ := bind_eq_ok.mp hms
    obtain ⟨others, hothers, hms⟩ := bind_eq_ok.mp hms
    cases hms
    rw [List.flatMap_cons, List.flatMap_cons, List.filterMap_append, hn first hfirst,
      hrest others hothers]

end Node

end LogRules

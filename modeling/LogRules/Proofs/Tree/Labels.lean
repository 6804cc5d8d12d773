import LogRules.Tree.Node
import Mathlib.Data.List.Basic

/-! # Rule trees up to labels

The labels of a rule tree are the ids of its match rules and the places that its rules come from.
`Node.unlabelled` blanks them, so two trees with one unlabelled form differ in labels at most. The
facts here speak of a node by its children (`child_induction`, `unlabelled_withChildren`), so that
the four kinds of inner nodes need one argument and not four. -/

namespace LogRules

/-- The place of a rule that is not known. -/
def SourceLoc.blank : SourceLoc := ⟨.header, 0, none⟩

/-- A match rule without its labels. -/
def MatchRule.unlabelled (rule : MatchRule) : MatchRule :=
  { rule with id := "", source := .blank }

/-- An action without its place. -/
def Action.unlabelled (a : Action) : Action := { a with source := .blank }

namespace Node

/-! ### Children -/

mutual
/-- What passes from the children of a node to the node holds of every tree. -/
theorem child_induction {P : Node → Prop} (step : ∀ n : Node, (∀ c ∈ n.children, P c) → P n) :
    ∀ n : Node, P n
  | chain nodes => step _ (child_induction_all step nodes)
  | linearSelect nodes => step _ (child_induction_all step nodes)
  | messageIdSelect _ nodes => step _ (child_induction_all step nodes)
  | matchRule _ onSuccess => step _ (child_induction_all step onSuccess)
  | action _ => step _ fun _ h => nomatch h
  | reference _ => step _ fun _ h => nomatch h
  | noop => step _ fun _ h => nomatch h

theorem child_induction_all {P : Node → Prop}
    (step : ∀ n : Node, (∀ c ∈ n.children, P c) → P n) : ∀ nodes : List Node, ∀ c ∈ nodes, P c
  | [], _, h => nomatch h
  | n :: rest, c, h =>
      match List.mem_cons.mp h with
      | .inl heq => heq ▸ child_induction step n
      | .inr h => child_induction_all step rest c h
end

/-- Trees and lists of trees at once: what passes from the list of its children to a node, and from
its parts to a list. -/
theorem forest_induction {P : Node → Prop} {Q : List Node → Prop}
    (node : ∀ n : Node, Q n.children → P n) (nil : Q [])
    (cons : ∀ (n : Node) (rest : List Node), P n → Q rest → Q (n :: rest)) :
    (∀ n, P n) ∧ ∀ nodes, Q nodes := by
  have hlist : ∀ nodes : List Node, (∀ c ∈ nodes, P c) → Q nodes := by
    intro nodes h
    induction nodes with
    | nil => exact nil
    | cons n rest ih =>
        exact cons n rest (h n List.mem_cons_self) (ih fun c hc => h c (List.mem_cons_of_mem _ hc))
  have htree : ∀ n : Node, P n := by
    intro n
    induction n using child_induction with
    | step n ih => exact node n (hlist _ ih)
  exact ⟨htree, fun nodes => hlist nodes fun c _ => htree c⟩

/-- The node stands for a binding. -/
def IsReference (n : Node) : Prop := ∃ name, n = reference name

theorem children_withChildren {n : Node} {nodes : List Node}
    (h : nodes.length = n.children.length) : (n.withChildren nodes).children = nodes := by
  cases n <;> simp_all [children, withChildren]

theorem count_eq (n : Node) : n.count = countAll n.children + 1 := by
  cases n <;> simp [count, children, countAll]

theorem preorder_eq (n : Node) : n.preorder = n :: preorderAll n.children := by
  cases n <;> simp [preorder, children, preorderAll]

theorem length_preorder : (∀ n : Node, n.preorder.length = n.count) ∧
    ∀ nodes : List Node, (preorderAll nodes).length = countAll nodes := by
  refine forest_induction ?_ ?_ ?_
  · intro n ih
    rw [preorder_eq, List.length_cons, ih, count_eq]
  · rfl
  · intro n rest ihn ihrest
    rw [preorderAll, List.length_append, ihn, ihrest, countAll]

theorem mem_preorder_self (n : Node) : n ∈ n.preorder := by
  rw [preorder_eq]
  exact List.mem_cons_self

/-- A node below another is that node or lies below one of its children. -/
theorem mem_preorder_iff {m n : Node} :
    m ∈ n.preorder ↔ m = n ∨ ∃ c ∈ n.children, m ∈ c.preorder := by
  rw [preorder_eq, List.mem_cons, preorderAll_eq_flatMap, List.mem_flatMap]

theorem mem_preorder_trans {k m n : Node} (hk : k ∈ m.preorder) (hm : m ∈ n.preorder) :
    k ∈ n.preorder := by
  induction n using child_induction with
  | step n ih =>
      rcases mem_preorder_iff.mp hm with rfl | ⟨c, hc, hmc⟩
      · exact hk
      · exact mem_preorder_iff.mpr (.inr ⟨c, hc, ih c hc hmc⟩)

theorem mem_preorder_of_mem_children {c n : Node} (h : c ∈ n.children) : c ∈ n.preorder :=
  mem_preorder_iff.mpr (.inr ⟨c, h, mem_preorder_self c⟩)

theorem countAll_append (nodes nodes' : List Node) :
    countAll (nodes ++ nodes') = countAll nodes + countAll nodes' := by
  induction nodes with
  | nil => rw [List.nil_append, countAll, Nat.zero_add]
  | cons n rest ih => rw [List.cons_append, countAll, countAll, ih, Nat.add_assoc]

theorem countAll_le_of_mem {c : Node} {nodes : List Node} (h : c ∈ nodes) :
    c.count ≤ countAll nodes := by
  induction nodes with
  | nil => cases h
  | cons n rest ih =>
      rw [countAll]
      rcases List.mem_cons.mp h with rfl | h
      · omega
      · have := ih h
        omega

/-- A tree has at least the nodes of every tree below it, and more when that is another. -/
theorem count_le_of_mem_preorder {m n : Node} (h : m ∈ n.preorder) :
    m.count ≤ n.count ∧ (m.count = n.count → m = n) := by
  induction n using child_induction with
  | step n ih =>
      rcases mem_preorder_iff.mp h with rfl | ⟨c, hc, hmc⟩
      · exact ⟨Nat.le_refl _, fun _ => rfl⟩
      · have hle := (ih c hc hmc).1
        have hlt := countAll_le_of_mem hc
        rw [count_eq n]
        exact ⟨by omega, fun h => by omega⟩

/-! ### Blank labels -/

mutual
/-- The tree without ids and places. -/
def unlabelled : Node → Node
  | chain nodes => chain (unlabelledAll nodes)
  | linearSelect nodes => linearSelect (unlabelledAll nodes)
  | messageIdSelect index nodes => messageIdSelect index (unlabelledAll nodes)
  | matchRule rule onSuccess => matchRule rule.unlabelled (unlabelledAll onSuccess)
  | action a => action a.unlabelled
  | reference name => reference name
  | noop => noop

/-- Several trees without ids and places. -/
def unlabelledAll : List Node → List Node
  | [] => []
  | n :: rest => unlabelled n :: unlabelledAll rest
end

theorem unlabelledAll_eq_map (nodes : List Node) : unlabelledAll nodes = nodes.map unlabelled := by
  induction nodes with
  | nil => rfl
  | cons n rest ih => rw [unlabelledAll, ih, List.map_cons]

theorem children_unlabelled (n : Node) : n.unlabelled.children = n.children.map unlabelled := by
  cases n <;> simp [unlabelled, children, unlabelledAll_eq_map]

theorem unlabelled_withChildren (n : Node) (nodes : List Node) :
    (n.withChildren nodes).unlabelled = n.unlabelled.withChildren (nodes.map unlabelled) := by
  cases n <;> simp [unlabelled, withChildren, unlabelledAll_eq_map]

@[simp] theorem unlabelled_eq_reference {n : Node} {name : String} :
    n.unlabelled = reference name ↔ n = reference name := by
  cases n <;> simp [unlabelled]

theorem preorder_unlabelled (n : Node) : n.unlabelled.preorder = n.preorder.map unlabelled := by
  induction n using child_induction with
  | step n ih =>
      rw [preorder_eq, preorder_eq n, children_unlabelled, preorderAll_eq_flatMap,
        preorderAll_eq_flatMap, List.map_cons, List.map_flatMap, List.flatMap_map]
      exact congrArg (n.unlabelled :: ·) (List.flatMap_congr ih)

end Node

end LogRules

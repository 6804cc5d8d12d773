import LogRules.Proofs.Table
import LogRules.Proofs.Tree.Labels
import Mathlib.Data.List.Perm.Subperm
import Mathlib.Logic.Relation

/-! # Inlining bindings

`Node.expand` puts nodes in the place of references, and `RuleTree.inlined` is the root of a tree
with every reference replaced by its binding, again and again. References go at most as deep as
there are bindings: when every reference names a binding and no binding leads to itself
(`RuleTree.WellReferenced`), no reference is left (`inlined_isPlain`). -/

namespace LogRules

namespace Node

/-! ### Nodes in the place of references -/

mutual
/-- The tree with a node in the place of every reference. -/
def expand (f : String → Node) : Node → Node
  | chain nodes => chain (expandAll f nodes)
  | linearSelect nodes => linearSelect (expandAll f nodes)
  | messageIdSelect index nodes => messageIdSelect index (expandAll f nodes)
  | matchRule rule onSuccess => matchRule rule (expandAll f onSuccess)
  | action a => action a
  | reference name => f name
  | noop => noop

/-- Several trees with a node in the place of every reference. -/
def expandAll (f : String → Node) : List Node → List Node
  | [] => []
  | n :: rest => expand f n :: expandAll f rest
end

theorem expandAll_eq_map (f : String → Node) (nodes : List Node) :
    expandAll f nodes = nodes.map (expand f) := by
  induction nodes with
  | nil => rfl
  | cons n rest ih => rw [expandAll, ih, List.map_cons]

@[simp] theorem expand_reference (f : String → Node) (name : String) :
    (reference name).expand f = f name := rfl

/-- A node that is no reference keeps its kind. -/
theorem expand_withChildren (f : String → Node) {n : Node} (h : ¬ n.IsReference)
    (nodes : List Node) :
    (n.withChildren nodes).expand f = n.withChildren (nodes.map (expand f)) := by
  cases n with
  | reference name => exact absurd ⟨name, rfl⟩ h
  | _ => simp [withChildren, expand, expandAll_eq_map]

theorem expand_eq (f : String → Node) {n : Node} (h : ¬ n.IsReference) :
    n.expand f = n.withChildren (n.children.map (expand f)) := by
  rw [← expand_withChildren f h, withChildren_children]

theorem children_expand (f : String → Node) {n : Node} (h : ¬ n.IsReference) :
    (n.expand f).children = n.children.map (expand f) := by
  rw [expand_eq f h]
  exact children_withChildren (List.length_map _)

/-- Only the references of a tree matter. -/
theorem expand_congr {f g : String → Node} {n : Node}
    (h : ∀ name, reference name ∈ n.preorder → f name = g name) : n.expand f = n.expand g := by
  induction n using child_induction with
  | step n ih =>
      by_cases hn : n.IsReference
      · obtain ⟨name, rfl⟩ := hn
        exact h name (mem_preorder_self _)
      · rw [expand_eq f hn, expand_eq g hn]
        refine congrArg n.withChildren (List.map_congr_left fun c hc => ih c hc fun name hname => ?_)
        exact h name (mem_preorder_iff.mpr (.inr ⟨c, hc, hname⟩))

@[simp] theorem expand_self (n : Node) : n.expand reference = n := by
  induction n using child_induction with
  | step n ih =>
      by_cases hn : n.IsReference
      · obtain ⟨name, rfl⟩ := hn
        rfl
      · rw [expand_eq _ hn, List.map_congr_left ih, List.map_id'', withChildren_children]
        exact fun _ => rfl

theorem expand_expand (f g : String → Node) (n : Node) :
    (n.expand f).expand g = n.expand fun name => (f name).expand g := by
  induction n using child_induction with
  | step n ih =>
      by_cases hn : n.IsReference
      · obtain ⟨name, rfl⟩ := hn
        rfl
      · rw [expand_eq f hn, expand_withChildren g hn, expand_eq _ hn, List.map_map]
        exact congrArg n.withChildren (List.map_congr_left ih)

theorem unlabelled_expand (f : String → Node) (n : Node) :
    (n.expand f).unlabelled = n.unlabelled.expand fun name => (f name).unlabelled := by
  induction n using child_induction with
  | step n ih =>
      by_cases hn : n.IsReference
      · obtain ⟨name, rfl⟩ := hn
        rfl
      · have hu : ¬ n.unlabelled.IsReference :=
          fun ⟨name, h⟩ => hn ⟨name, unlabelled_eq_reference.mp h⟩
        rw [expand_eq f hn, unlabelled_withChildren, expand_eq _ hu, children_unlabelled,
          List.map_map, List.map_map]
        exact congrArg n.unlabelled.withChildren (List.map_congr_left ih)

/-- What stands in the place of a reference lies in the expanded tree. -/
theorem mem_preorder_expand (f : String → Node) {name : String} {n : Node}
    (h : reference name ∈ n.preorder) : f name ∈ (n.expand f).preorder := by
  induction n using child_induction with
  | step n ih =>
      by_cases hn : n.IsReference
      · obtain ⟨other, rfl⟩ := hn
        rcases mem_preorder_iff.mp h with heq | ⟨c, hc, -⟩
        · cases heq
          exact mem_preorder_self _
        · cases hc
      · rcases mem_preorder_iff.mp h with heq | ⟨c, hc, hmem⟩
        · exact absurd ⟨name, heq.symm⟩ hn
        · refine mem_preorder_iff.mpr (.inr ⟨c.expand f, ?_, ih c hc hmem⟩)
          rw [children_expand f hn]
          exact List.mem_map_of_mem hc

/-! ### Trees without references -/

/-- The tree holds no reference. -/
def IsPlain (n : Node) : Prop := ∀ name, reference name ∉ n.preorder

theorem isPlain_iff {n : Node} : n.IsPlain ↔ ¬ n.IsReference ∧ ∀ c ∈ n.children, c.IsPlain := by
  constructor
  · intro h
    refine ⟨fun ⟨name, hn⟩ => h name (hn ▸ mem_preorder_self n), fun c hc name hname => ?_⟩
    exact h name (mem_preorder_iff.mpr (.inr ⟨c, hc, hname⟩))
  · rintro ⟨hn, hc⟩ name hname
    rcases mem_preorder_iff.mp hname with rfl | ⟨c, hcn, hmem⟩
    · exact hn ⟨name, rfl⟩
    · exact hc c hcn name hmem

theorem isPlain_of_children {n : Node} (hn : ∀ name, n ≠ reference name)
    (hc : ∀ c ∈ n.children, c.IsPlain) : n.IsPlain :=
  isPlain_iff.mpr ⟨fun ⟨name, heq⟩ => hn name heq, hc⟩

theorem isPlain_action (a : Action) : (action a).IsPlain := by
  refine isPlain_of_children (by simp) ?_
  intro c hc
  cases hc

theorem IsPlain.of_mem_preorder {m n : Node} (h : n.IsPlain) (hm : m ∈ n.preorder) : m.IsPlain :=
  fun name hname => h name (mem_preorder_trans hname hm)

theorem IsPlain.expand_eq_self {n : Node} (h : n.IsPlain) (f : String → Node) :
    n.expand f = n := by
  rw [expand_congr (g := reference) fun name hname => absurd hname (h name), expand_self]

@[simp] theorem isPlain_unlabelled {n : Node} : n.unlabelled.IsPlain ↔ n.IsPlain := by
  have hmem : ∀ name, reference name ∈ n.unlabelled.preorder ↔ reference name ∈ n.preorder := by
    intro name
    rw [preorder_unlabelled, List.mem_map]
    constructor
    · rintro ⟨m, hm, heq⟩
      exact unlabelled_eq_reference.mp heq ▸ hm
    · exact fun h => ⟨_, h, rfl⟩
  exact forall_congr' fun name => not_congr (hmem name)

/-- An expanded tree is free of references when its references stand for such trees. -/
theorem isPlain_expand {f : String → Node} {n : Node}
    (h : ∀ name, reference name ∈ n.preorder → (f name).IsPlain) : (n.expand f).IsPlain := by
  induction n using child_induction with
  | step n ih =>
      by_cases hn : n.IsReference
      · obtain ⟨name, rfl⟩ := hn
        exact h name (mem_preorder_self _)
      · refine isPlain_iff.mpr ⟨?_, ?_⟩
        · rw [expand_eq f hn]
          rintro ⟨name, heq⟩
          cases n <;> simp_all [withChildren, IsReference]
        · rw [children_expand f hn]
          intro c hc
          obtain ⟨d, hd, rfl⟩ := List.mem_map.mp hc
          exact ih d hd fun name hname => h name (mem_preorder_iff.mpr (.inr ⟨d, hd, hname⟩))

end Node

namespace RuleTree

/-! ### Bindings in the place of references -/

/-- The binding of a name, in which references are replaced in turn, at most `depth` deep. -/
def bindingNode (t : RuleTree) : (depth : Nat) → String → Node
  | 0, name => .reference name
  | depth + 1, name =>
    match t.bindings.get? name with
    | none => .reference name
    | some n => n.expand (t.bindingNode depth)

/-- The root with every reference replaced by its binding. -/
def inlined (t : RuleTree) : Node := t.root.expand (t.bindingNode t.bindings.size)

/-- The first binding holds a reference to the second. -/
def Names (t : RuleTree) (a b : String) : Prop :=
  ∃ n, t.bindings.get? a = some n ∧ .reference b ∈ n.preorder

/-- The first binding leads to the second through one or more references. -/
def Reaches (t : RuleTree) : String → String → Prop := Relation.TransGen t.Names

/-- Every reference names a binding, and no binding leads to itself. -/
structure WellReferenced (t : RuleTree) : Prop where
  bound : ∀ name, .reference name ∈ t.nodes → name ∈ t.bindings.keys
  acyclic : ∀ name, ¬ t.Reaches name name

/-- Bindings that only hold references to bindings of lower rank do not lead to themselves. -/
theorem not_reaches_self_of_rank {t : RuleTree} (rank : String → Nat)
    (h : ∀ a b, t.Names a b → rank b < rank a) (name : String) : ¬ t.Reaches name name := by
  have hlt : ∀ a b, t.Reaches a b → rank b < rank a := by
    intro a b hreach
    induction hreach with
    | single hnames => exact h _ _ hnames
    | tail _ hnames ih => exact Nat.lt_trans (h _ _ hnames) ih
  exact fun hreach => Nat.lt_irrefl _ (hlt name name hreach)

theorem mem_nodes_of_root {t : RuleTree} {n : Node} (h : n ∈ t.root.preorder) : n ∈ t.nodes :=
  List.mem_append_left _ h

theorem mem_nodes_of_binding {t : RuleTree} {name : String} {m n : Node}
    (hm : t.bindings.get? name = some m) (h : n ∈ m.preorder) : n ∈ t.nodes :=
  List.mem_append_right _ (List.mem_flatMap.mpr ⟨m, Table.mem_values_of_get? hm, h⟩)

/-- Along a path of bindings no name comes twice, so a path is no longer than there are bindings.
The induction follows the depth and keeps the names that led to the binding. -/
theorem bindingNode_isPlain {t : RuleTree} (ht : t.WellReferenced) (depth : Nat) (name : String)
    (path : List String) (hname : name ∈ t.bindings.keys) (hpath : path ⊆ t.bindings.keys)
    (hnodup : path.Nodup) (hreach : ∀ a ∈ path, t.Reaches a name)
    (hdepth : t.bindings.size ≤ depth + path.length) : (t.bindingNode depth name).IsPlain := by
  have hnew : (name :: path).Nodup :=
    List.nodup_cons.mpr ⟨fun h => ht.acyclic name (hreach name h), hnodup⟩
  have hsub : name :: path ⊆ t.bindings.keys := List.cons_subset.mpr ⟨hname, hpath⟩
  have hlen := (List.subperm_of_subset hnew hsub).length_le
  rw [Table.length_keys, List.length_cons] at hlen
  induction depth generalizing name path with
  | zero => omega
  | succ depth ih =>
      obtain ⟨n, hn⟩ := Table.exists_get?_of_mem_keys hname
      simp only [bindingNode, hn]
      refine Node.isPlain_expand fun next hnext => ?_
      have hstep : t.Names name next := ⟨n, hn, hnext⟩
      have hbound : next ∈ t.bindings.keys := ht.bound next (mem_nodes_of_binding hn hnext)
      have hreach' : ∀ a ∈ name :: path, t.Reaches a next := by
        intro a ha
        rcases List.mem_cons.mp ha with rfl | ha
        · exact .single hstep
        · exact .tail (hreach a ha) hstep
      have hnew' : (next :: name :: path).Nodup :=
        List.nodup_cons.mpr ⟨fun h => ht.acyclic next (hreach' next h), hnew⟩
      have hsub' : next :: name :: path ⊆ t.bindings.keys := List.cons_subset.mpr ⟨hbound, hsub⟩
      have hlen' := (List.subperm_of_subset hnew' hsub').length_le
      rw [Table.length_keys] at hlen'
      refine ih next (name :: path) hbound hsub hnew hreach' ?_ hnew' hsub' hlen'
      rw [List.length_cons]
      omega

/-- Inlining leaves no reference. -/
theorem inlined_isPlain {t : RuleTree} (ht : t.WellReferenced) : t.inlined.IsPlain := by
  refine Node.isPlain_expand fun name hname => ?_
  have hbound := ht.bound name (mem_nodes_of_root hname)
  exact bindingNode_isPlain ht _ name [] hbound (List.nil_subset _) List.nodup_nil
    (fun _ h => nomatch h) (Nat.le_add_right _ _)

end RuleTree

end LogRules

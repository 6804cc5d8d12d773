import LogRules.Proofs.Tree.Inline
import LogRules.Transform.Sharing

/-! # What shared trees stand for

`Meanings` says for every name which tree it stands for; a name without a meaning stands for the
reference to it. `Node.meaning` is the unlabelled tree that a node stands for. `Represents` ties a
tree with bindings to the tree that they were taken from: the root stands for the whole of it, and
every binding for a part of it. What such a tree inlines to is the whole again
(`Represents.inlined_eq`), and its references are in order (`Represents.wellReferenced`). -/

namespace LogRules

/-- The tree that every name stands for. -/
abbrev Meanings := String → Node

namespace Node

/-- The unlabelled tree that a node stands for. -/
def meaning (μ : Meanings) (n : Node) : Node := n.unlabelled.expand μ

@[simp] theorem meaning_reference (μ : Meanings) (name : String) :
    (reference name).meaning μ = μ name := rfl

theorem meaning_of_isPlain {n : Node} (h : n.IsPlain) (μ : Meanings) :
    n.meaning μ = n.unlabelled :=
  (isPlain_unlabelled.mpr h).expand_eq_self μ

theorem not_isReference_unlabelled {n : Node} (h : ¬ n.IsReference) :
    ¬ n.unlabelled.IsReference :=
  fun ⟨name, hn⟩ => h ⟨name, unlabelled_eq_reference.mp hn⟩

theorem meaning_withChildren (μ : Meanings) {n : Node} (h : ¬ n.IsReference)
    (nodes : List Node) :
    (n.withChildren nodes).meaning μ = n.unlabelled.withChildren (nodes.map (meaning μ)) := by
  rw [meaning, unlabelled_withChildren, expand_withChildren μ (not_isReference_unlabelled h),
    List.map_map]
  rfl

theorem meaning_eq (μ : Meanings) {n : Node} (h : ¬ n.IsReference) :
    n.meaning μ = n.unlabelled.withChildren (n.children.map (meaning μ)) := by
  rw [← meaning_withChildren μ h, withChildren_children]

theorem children_meaning (μ : Meanings) {n : Node} (h : ¬ n.IsReference) :
    (n.meaning μ).children = n.children.map (meaning μ) := by
  rw [meaning, children_expand μ (not_isReference_unlabelled h), children_unlabelled, List.map_map]
  rfl

/-- What a name stands for lies in what a tree with a reference to it stands for. -/
theorem mem_preorder_meaning (μ : Meanings) {name : String} {n : Node}
    (h : reference name ∈ n.preorder) : μ name ∈ (n.meaning μ).preorder := by
  refine mem_preorder_expand μ ?_
  rw [preorder_unlabelled]
  exact List.mem_map.mpr ⟨_, h, rfl⟩

/-- What a part of a tree stands for lies in what the tree stands for. -/
theorem meaning_mem_preorder (μ : Meanings) {m n : Node} (h : m ∈ n.preorder) :
    m.meaning μ ∈ (n.meaning μ).preorder := by
  induction n using child_induction with
  | step n ih =>
      rcases mem_preorder_iff.mp h with rfl | ⟨c, hc, hmc⟩
      · exact mem_preorder_self _
      · have hn : ¬ n.IsReference := by
          rintro ⟨name, rfl⟩
          cases hc
        refine mem_preorder_iff.mpr (.inr ⟨c.meaning μ, ?_, ih c hc hmc⟩)
        rw [children_meaning μ hn]
        exact List.mem_map_of_mem hc

end Node

namespace Sharing

theorem not_isReference_of_isShareable {n : Node} (h : isShareable n) : ¬ n.IsReference := by
  rintro ⟨name, rfl⟩
  cases h

theorem isShareable_withChildren {n : Node} (h : isShareable n) (nodes : List Node) :
    isShareable (n.withChildren nodes) := by
  cases n with
  | reference name => cases h
  | noop => cases h
  | _ => rfl

/-! ### More meanings -/

/-- Names that have a meaning keep it. -/
def Extends (μ μ' : Meanings) : Prop := ∀ name, μ name ≠ .reference name → μ' name = μ name

theorem Extends.refl (μ : Meanings) : Extends μ μ := fun _ _ => rfl

theorem Extends.trans {μ μ' μ'' : Meanings} (h : Extends μ μ') (h' : Extends μ' μ'') :
    Extends μ μ'' := by
  intro name hname
  have heq := h name hname
  rw [← heq]
  exact h' name (heq ▸ hname)

/-- A meaning without references does not change when more names get a meaning. -/
theorem Extends.meaning_eq {μ μ' : Meanings} (h : Extends μ μ') {n : Node}
    (hn : (n.meaning μ).IsPlain) : n.meaning μ' = n.meaning μ := by
  refine Node.expand_congr fun name hname => h name fun heq => ?_
  have hmem : μ name ∈ (n.meaning μ).preorder := Node.mem_preorder_expand μ hname
  exact hn name (heq ▸ hmem)

theorem Extends.map_meaning_eq {μ μ' : Meanings} (h : Extends μ μ') {nodes : List Node}
    (hn : ∀ n ∈ nodes, (n.meaning μ).IsPlain) :
    nodes.map (Node.meaning μ') = nodes.map (Node.meaning μ) :=
  List.map_congr_left fun n hmem => h.meaning_eq (hn n hmem)

/-- One more name with a meaning. -/
def assign (μ : Meanings) (name : String) (n : Node) : Meanings :=
  fun other => if other = name then n else μ other

@[simp] theorem assign_same (μ : Meanings) (name : String) (n : Node) :
    assign μ name n name = n := if_pos rfl

theorem assign_of_ne (μ : Meanings) {name other : String} (n : Node) (h : other ≠ name) :
    assign μ name n other = μ other := if_neg h

theorem extends_assign {μ : Meanings} {name : String} (n : Node)
    (h : μ name = .reference name) : Extends μ (assign μ name n) := by
  intro other hother
  exact assign_of_ne μ n fun heq => hother (heq ▸ h)

/-! ### Trees that stand for another -/

/-- A binding that stands for a part of a tree. -/
structure Stands (whole : Node) (μ : Meanings) (e : String × Node) : Prop where
  meaning_eq : e.2.meaning μ = μ e.1
  isPart : μ e.1 ∈ whole.unlabelled.preorder
  shareable : isShareable e.2

theorem Stands.isPlain {whole : Node} {μ : Meanings} {e : String × Node}
    (h : Stands whole μ e) (hw : whole.IsPlain) : (μ e.1).IsPlain :=
  (Node.isPlain_unlabelled.mpr hw).of_mem_preorder h.isPart

theorem Stands.ne_reference {whole : Node} {μ : Meanings} {e : String × Node}
    (h : Stands whole μ e) (hw : whole.IsPlain) : μ e.1 ≠ .reference e.1 :=
  fun heq => h.isPlain hw e.1 (heq ▸ Node.mem_preorder_self _)

theorem Stands.of_extends {whole : Node} {μ μ' : Meanings} {e : String × Node}
    (h : Stands whole μ e) (hw : whole.IsPlain) (hμ : Extends μ μ') : Stands whole μ' e := by
  have hname : μ' e.1 = μ e.1 := hμ e.1 (h.ne_reference hw)
  refine ⟨?_, hname ▸ h.isPart, h.shareable⟩
  rw [hname, hμ.meaning_eq (h.meaning_eq ▸ h.isPlain hw), h.meaning_eq]

/-- A binding may get other children that stand for the same. -/
theorem Stands.withChildren {whole : Node} {μ : Meanings} {name : String} {n : Node}
    {nodes : List Node} (h : Stands whole μ (name, n))
    (heq : nodes.map (Node.meaning μ) = n.children.map (Node.meaning μ)) :
    Stands whole μ (name, n.withChildren nodes) := by
  have hn : ¬ n.IsReference := not_isReference_of_isShareable h.shareable
  refine ⟨?_, h.isPart, isShareable_withChildren h.shareable nodes⟩
  rw [Node.meaning_withChildren μ hn, heq, ← Node.meaning_eq μ hn]
  exact h.meaning_eq

/-- The root of a tree stands for a whole, its bindings stand for parts of it, and no other name
has a meaning. -/
structure Represents (whole : Node) (μ : Meanings) (t : RuleTree) : Prop where
  root : t.root.meaning μ = whole.unlabelled
  bindings : ∀ e ∈ t.bindings.entries, Stands whole μ e
  unknown : ∀ name, name ∉ t.bindings.keys → μ name = .reference name
  nodup : t.bindings.keys.Nodup

/-- A tree without references and bindings stands for itself. -/
theorem represents_self {t : RuleTree} (hroot : t.root.IsPlain) (hbindings : t.bindings = .empty) :
    Represents t.root .reference t where
  root := Node.meaning_of_isPlain hroot _
  bindings := by simp [hbindings, Table.empty]
  unknown := fun _ _ => rfl
  nodup := by simp [hbindings, Table.empty, Table.keys]

namespace Represents

variable {whole : Node} {μ : Meanings} {t : RuleTree} (h : Represents whole μ t)
  (hw : whole.IsPlain)
include h

theorem stands_of_get? {name : String} {n : Node} (hn : t.bindings.get? name = some n) :
    Stands whole μ (name, n) := h.bindings _ (Table.mem_entries_of_get? hn)

/-- A node of the tree stands for a part of the whole. -/
theorem meaning_mem {n : Node} (hn : n ∈ t.nodes) :
    n.meaning μ ∈ whole.unlabelled.preorder := by
  rcases List.mem_append.mp hn with hroot | hbinding
  · exact h.root ▸ Node.meaning_mem_preorder μ hroot
  · obtain ⟨m, hm, hnm⟩ := List.mem_flatMap.mp hbinding
    obtain ⟨e, he, rfl⟩ := List.mem_map.mp hm
    have hs := h.bindings e he
    exact Node.mem_preorder_trans (hs.meaning_eq ▸ Node.meaning_mem_preorder μ hnm) hs.isPart

/-- A binding stands for more than the bindings that it names. -/
theorem count_lt {a b : String} (hab : t.Names a b) : (μ b).count < (μ a).count := by
  obtain ⟨n, hn, hb⟩ := hab
  have hs := h.stands_of_get? hn
  have hmem : μ b ∈ (μ a).preorder := hs.meaning_eq ▸ Node.mem_preorder_meaning μ hb
  obtain ⟨hle, heq⟩ := Node.count_le_of_mem_preorder hmem
  refine Nat.lt_of_le_of_ne hle fun hcount => ?_
  have hn' : ¬ n.IsReference := not_isReference_of_isShareable hs.shareable
  rcases Node.mem_preorder_iff.mp hb with rfl | ⟨c, hc, hbc⟩
  · exact hn' ⟨b, rfl⟩
  · have hchild : c.meaning μ ∈ (μ a).children := by
      rw [← hs.meaning_eq, Node.children_meaning μ hn']
      exact List.mem_map_of_mem hc
    have hbelow := (Node.count_le_of_mem_preorder (Node.mem_preorder_meaning μ hbc)).1
    have hlt := Node.countAll_le_of_mem hchild
    rw [Node.count_eq (μ a)] at hcount
    omega

include hw

theorem bound {name : String} (hname : .reference name ∈ t.nodes) : name ∈ t.bindings.keys := by
  by_contra hnot
  have hmem := h.meaning_mem hname
  rw [Node.meaning_reference, h.unknown name hnot] at hmem
  exact Node.isPlain_unlabelled.mpr hw name hmem

theorem wellReferenced : t.WellReferenced where
  bound := fun _ hname => h.bound hw hname
  acyclic := by
    intro name hreach
    have hlt : ∀ b, t.Reaches name b → (μ b).count < (μ name).count := by
      intro b hb
      induction hb with
      | single hstep => exact h.count_lt hstep
      | tail _ hstep ih => exact Nat.lt_trans (h.count_lt hstep) ih
    exact Nat.lt_irrefl _ (hlt name hreach)

omit hw in
/-- At every depth a binding with references replaced stands for what its name stands for. -/
theorem meaning_bindingNode (depth : Nat) (name : String) :
    (t.bindingNode depth name).meaning μ = μ name := by
  induction depth generalizing name with
  | zero => rfl
  | succ depth ih =>
      cases hn : t.bindings.get? name with
      | none => simp only [RuleTree.bindingNode, hn, Node.meaning_reference]
      | some n =>
          simp only [RuleTree.bindingNode, hn]
          rw [Node.meaning, Node.unlabelled_expand, Node.expand_expand]
          exact (Node.expand_congr fun next _ => ih next).trans (h.stands_of_get? hn).meaning_eq

/-- Inlining undoes sharing. -/
theorem inlined_eq : t.inlined.unlabelled = whole.unlabelled := by
  have hplain := RuleTree.inlined_isPlain (h.wellReferenced hw)
  rw [← Node.meaning_of_isPlain hplain μ, ← h.root, RuleTree.inlined, Node.meaning,
    Node.unlabelled_expand, Node.expand_expand]
  exact Node.expand_congr fun next _ => h.meaning_bindingNode _ next

end Represents

end Sharing

end LogRules

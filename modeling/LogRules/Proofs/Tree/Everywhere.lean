import LogRules.Proofs.Result
import LogRules.Proofs.Tree.Inline
import LogRules.Tree.Edit

/-! # Properties of all nodes

`Node.Everywhere P` says that a property holds of every node of a tree. An edit of a tree keeps it when it
takes the property from node to node (`everywhere_edit`). `Node.Fits` is such a property: conditions on
rules and effects, and message ids that point to nodes that are there. Inlining makes no new actions
(`RuleTree.mem_nodes_of_inlined`). -/

namespace LogRules

namespace Node

/-- The property holds of every node of the tree. -/
def Everywhere (P : Node → Prop) (n : Node) : Prop := ∀ m ∈ n.preorder, P m

variable {P Q : Node → Prop}

theorem everywhere_iff {n : Node} :
    n.Everywhere P ↔ P n ∧ ∀ c ∈ n.children, c.Everywhere P := by
  constructor
  · intro h
    exact ⟨h n (mem_preorder_self n), fun c hc m hm => h m (mem_preorder_iff.mpr (.inr ⟨c, hc, hm⟩))⟩
  · rintro ⟨hn, hchildren⟩ m hm
    rcases mem_preorder_iff.mp hm with rfl | ⟨c, hc, hmc⟩
    · exact hn
    · exact hchildren c hc m hmc

theorem everywhere_leaf {n : Node} (hn : P n) (hchildren : n.children = []) : n.Everywhere P :=
  everywhere_iff.mpr ⟨hn, by simp [hchildren]⟩

/-- An edit that takes the new children from the old ones, and the property from node to node. -/
theorem everywhere_edit {f : Node → Node}
    (hchildren : ∀ n : Node, ∀ c ∈ (f n).children, c ∈ n.children.map f)
    (hstep : ∀ n : Node, P n → Q (f n)) {n : Node} (h : n.Everywhere P) : (f n).Everywhere Q := by
  induction n using child_induction with
  | step n ih =>
      obtain ⟨hn, hc⟩ := everywhere_iff.mp h
      refine everywhere_iff.mpr ⟨hstep n hn, fun c hmem => ?_⟩
      obtain ⟨d, hd, rfl⟩ := List.mem_map.mp (hchildren n c hmem)
      exact ih d hd (hc d hd)

theorem mem_children_mapRules {f : MatchRule → MatchRule} {n c : Node}
    (h : c ∈ (n.mapRules f).children) : c ∈ n.children.map (mapRules f) := by
  cases n <;> simp_all [mapRules, children, mapRulesAll_eq_map]

theorem mem_children_dropNoops {n c : Node} (h : c ∈ n.dropNoops.children) :
    c ∈ n.children.map dropNoops := by
  cases n <;> simp_all [dropNoops, children, dropNoopsAll_eq_map]

theorem tryEffectsAll_eq_mapM {ε : Type} (f : Action → Except ε Effect) (nodes : List Node) :
    tryEffectsAll f nodes = nodes.mapM (tryEffects f) := by
  induction nodes with
  | nil => rfl
  | cons n rest ih => rw [tryEffectsAll, ih, List.mapM_cons]

/-! ### Fit nodes -/

/-- Rules and effects satisfy the conditions, and message ids point to nodes that are there. -/
def Fits (R : MatchRule → Prop) (A : Effect → Prop) : Node → Prop
  | matchRule rule _ => R rule
  | action a => A a.effect
  | messageIdSelect index nodes => ∀ e ∈ index.entries, e.2 < nodes.length
  | _ => True

variable {R R' : MatchRule → Prop} {A : Effect → Prop}

theorem everywhere_mapRules {f : MatchRule → MatchRule} (hf : ∀ rule, R rule → R' (f rule)) {n : Node}
    (h : n.Everywhere (Fits R A)) : (n.mapRules f).Everywhere (Fits R' A) := by
  refine everywhere_edit (fun _ _ => mem_children_mapRules) ?_ h
  intro n hn
  cases n with
  | matchRule rule onSuccess => exact hf rule hn
  | messageIdSelect index nodes =>
      rw [mapRules, mapRulesAll_eq_map]
      intro e he
      rw [List.length_map]
      exact hn e he
  | action a => exact hn
  | _ => trivial

theorem everywhere_mapActions {f : Action → Node}
    (hf : ∀ a, A a.effect → f a = .noop ∨ ∃ b, f a = .action b ∧ A b.effect) {n : Node}
    (h : n.Everywhere (Fits R A)) : (n.mapActions f).Everywhere (Fits R A) := by
  induction n using child_induction with
  | step n ih =>
      obtain ⟨hn, hc⟩ := everywhere_iff.mp h
      have hchildren : ∀ nodes : List Node, n.children = nodes →
          ∀ c ∈ mapActionsAll f nodes, c.Everywhere (Fits R A) := by
        rintro nodes rfl c hmem
        rw [mapActionsAll_eq_map] at hmem
        obtain ⟨d, hd, rfl⟩ := List.mem_map.mp hmem
        exact ih d hd (hc d hd)
      cases n with
      | action a =>
          rcases hf a hn with heq | ⟨b, heq, hb⟩
          · rw [mapActions, heq]
            exact everywhere_leaf trivial rfl
          · rw [mapActions, heq]
            exact everywhere_leaf hb rfl
      | reference name => exact everywhere_leaf trivial rfl
      | noop => exact everywhere_leaf trivial rfl
      | messageIdSelect index nodes =>
          refine everywhere_iff.mpr ⟨fun e he => ?_, hchildren nodes rfl⟩
          rw [mapActionsAll_eq_map, List.length_map]
          exact hn e he
      | matchRule rule onSuccess => exact everywhere_iff.mpr ⟨hn, hchildren onSuccess rfl⟩
      | chain nodes => exact everywhere_iff.mpr ⟨trivial, hchildren nodes rfl⟩
      | linearSelect nodes => exact everywhere_iff.mpr ⟨trivial, hchildren nodes rfl⟩

theorem everywhere_dropNoops {n : Node} (h : n.Everywhere (Fits R A)) :
    n.dropNoops.Everywhere (Fits R A) := by
  refine everywhere_edit (fun _ _ => mem_children_dropNoops) ?_ h
  intro n hn
  cases n with
  | messageIdSelect index nodes =>
      rw [dropNoops, dropNoopsAll_eq_map]
      intro e he
      rw [List.length_map]
      exact hn e he
  | matchRule rule onSuccess => exact hn
  | action a => exact hn
  | _ => trivial

theorem everywhere_tryEffects {ε : Type} {f : Action → Except ε Effect}
    (hf : ∀ a effect, f a = .ok effect → A a.effect → A effect) {n m : Node}
    (hm : n.tryEffects f = .ok m) (h : n.Everywhere (Fits R A)) : m.Everywhere (Fits R A) := by
  induction n using child_induction generalizing m with
  | step n ih =>
      obtain ⟨hn, hc⟩ := everywhere_iff.mp h
      have hchildren : ∀ nodes ms : List Node, n.children = nodes → tryEffectsAll f nodes = .ok ms →
          ms.length = nodes.length ∧ ∀ c ∈ ms, c.Everywhere (Fits R A) := by
        rintro nodes ms rfl hms
        rw [tryEffectsAll_eq_mapM] at hms
        refine ⟨(mapM_eq_ok.mp hms).length_eq.symm, fun c hmem => ?_⟩
        obtain ⟨d, hd, hdc⟩ := exists_of_mem_mapM hms hmem
        exact ih d hd hdc (hc d hd)
      cases n with
      | action a =>
          obtain ⟨effect, heffect, rfl⟩ := map_eq_ok.mp hm
          exact everywhere_leaf (hf a effect heffect hn) rfl
      | reference name =>
          cases hm
          exact everywhere_leaf trivial rfl
      | noop =>
          cases hm
          exact everywhere_leaf trivial rfl
      | messageIdSelect index nodes =>
          obtain ⟨ms, hms, rfl⟩ := map_eq_ok.mp hm
          obtain ⟨hlen, hall⟩ := hchildren nodes ms rfl hms
          refine everywhere_iff.mpr ⟨fun e he => ?_, hall⟩
          rw [hlen]
          exact hn e he
      | matchRule rule onSuccess =>
          obtain ⟨ms, hms, rfl⟩ := map_eq_ok.mp hm
          exact everywhere_iff.mpr ⟨hn, (hchildren onSuccess ms rfl hms).2⟩
      | chain nodes =>
          obtain ⟨ms, hms, rfl⟩ := map_eq_ok.mp hm
          exact everywhere_iff.mpr ⟨trivial, (hchildren nodes ms rfl hms).2⟩
      | linearSelect nodes =>
          obtain ⟨ms, hms, rfl⟩ := map_eq_ok.mp hm
          exact everywhere_iff.mpr ⟨trivial, (hchildren nodes ms rfl hms).2⟩

/-! ### Labels and references -/

/-- Nodes that are equal up to labels fit alike when the condition on rules does not look at labels. -/
theorem fits_of_unlabelled_eq (hR : ∀ rule rule' : MatchRule, rule.unlabelled = rule'.unlabelled →
    R rule → R rule') {n m : Node} (heq : n.unlabelled = m.unlabelled) (h : n.Fits R A) :
    m.Fits R A := by
  cases n with
  | matchRule rule onSuccess =>
      cases m <;> simp only [unlabelled, reduceCtorEq, matchRule.injEq] at heq
      exact hR _ _ heq.1 h
  | action a =>
      cases m <;> simp only [unlabelled, reduceCtorEq, action.injEq] at heq
      next b =>
        have heffect : a.unlabelled.effect = b.unlabelled.effect := congrArg Action.effect heq
        have hb : a.effect = b.effect := heffect
        show A b.effect
        rw [← hb]
        exact h
  | messageIdSelect index nodes =>
      cases m <;> simp only [unlabelled, reduceCtorEq, messageIdSelect.injEq] at heq
      next index' nodes' =>
        obtain ⟨rfl, hnodes⟩ := heq
        have hlen := congrArg List.length hnodes
        rw [unlabelledAll_eq_map, unlabelledAll_eq_map, List.length_map, List.length_map] at hlen
        intro e he
        rw [← hlen]
        exact h e he
  | _ =>
      cases m <;> simp only [unlabelled, reduceCtorEq] at heq
      all_goals trivial

theorem everywhere_of_unlabelled_eq (hR : ∀ rule rule' : MatchRule,
    rule.unlabelled = rule'.unlabelled → R rule → R rule') {n m : Node}
    (heq : n.unlabelled = m.unlabelled) (h : n.Everywhere (Fits R A)) : m.Everywhere (Fits R A) := by
  intro k hk
  have hmem : k.unlabelled ∈ n.unlabelled.preorder := by
    rw [heq, preorder_unlabelled]
    exact List.mem_map_of_mem hk
  rw [preorder_unlabelled] at hmem
  obtain ⟨j, hj, hjk⟩ := List.mem_map.mp hmem
  exact fits_of_unlabelled_eq hR hjk (h j hj)

/-- An action of a tree with nodes in the place of references is in the tree, or in such a node. -/
theorem mem_preorder_of_action_expand {f : String → Node} {a : Action} {n : Node}
    (h : action a ∈ (n.expand f).preorder) :
    action a ∈ n.preorder ∨ ∃ name, reference name ∈ n.preorder ∧ action a ∈ (f name).preorder := by
  induction n using child_induction with
  | step n ih =>
      by_cases hn : n.IsReference
      · obtain ⟨name, rfl⟩ := hn
        exact .inr ⟨name, mem_preorder_self _, h⟩
      · rcases mem_preorder_iff.mp h with heq | ⟨c, hc, hmem⟩
        · refine .inl (mem_preorder_iff.mpr (.inl ?_))
          cases n with
          | reference name => exact absurd ⟨name, rfl⟩ hn
          | action b => exact heq
          | _ => cases heq
        · rw [children_expand f hn] at hc
          obtain ⟨d, hd, rfl⟩ := List.mem_map.mp hc
          rcases ih d hd hmem with hin | ⟨name, hname, hin⟩
          · exact .inl (mem_preorder_iff.mpr (.inr ⟨d, hd, hin⟩))
          · exact .inr ⟨name, mem_preorder_iff.mpr (.inr ⟨d, hd, hname⟩), hin⟩

end Node

namespace RuleTree

/-- An action of a binding with references replaced is an action of the tree. -/
theorem mem_nodes_of_bindingNode {t : RuleTree} {a : Action} {depth : Nat} {name : String}
    (h : .action a ∈ (t.bindingNode depth name).preorder) : .action a ∈ t.nodes := by
  have hreference : ∀ other : String, .action a ∉ (Node.reference other).preorder := by
    intro other hmem
    cases List.mem_singleton.mp hmem
  induction depth generalizing name with
  | zero => exact absurd h (hreference name)
  | succ depth ih =>
      rw [bindingNode] at h
      cases hn : t.bindings.get? name with
      | none =>
          rw [hn] at h
          exact absurd h (hreference name)
      | some n =>
          rw [hn] at h
          rcases Node.mem_preorder_of_action_expand h with hin | ⟨other, -, hin⟩
          · exact mem_nodes_of_binding hn hin
          · exact ih hin

/-- Inlining makes no new actions. -/
theorem mem_nodes_of_inlined {t : RuleTree} {a : Action} (h : .action a ∈ t.inlined.preorder) :
    .action a ∈ t.nodes := by
  rcases Node.mem_preorder_of_action_expand h with hin | ⟨name, -, hin⟩
  · exact mem_nodes_of_root hin
  · exact mem_nodes_of_bindingNode hin

end RuleTree

end LogRules

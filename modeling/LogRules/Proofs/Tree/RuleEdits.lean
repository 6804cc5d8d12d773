import LogRules.Proofs.Tree.Labels
import LogRules.Transform.Spacing

/-! # Edits of match rules

An edit of match rules changes the rules of a tree one by one and leaves their order alone
(`RuleTree.rules_mapRules`). When it only edits patterns, the tree without its patterns stays as it is
(`RuleTree.withoutPatterns_onPattern`), and a tree whose patterns it keeps stays as it is
(`RuleTree.onPattern_eq_self`). -/

namespace LogRules

namespace Node

variable (f g : MatchRule → MatchRule)

theorem children_mapRules (n : Node) : (n.mapRules f).children = n.children.map (mapRules f) := by
  cases n <;> simp [mapRules, children, mapRulesAll_eq_map]

/-- The nodes of an edited tree are the edited nodes, in their order. -/
theorem preorder_mapRules (n : Node) : (n.mapRules f).preorder = n.preorder.map (mapRules f) := by
  induction n using child_induction with
  | step n ih =>
      rw [preorder_eq, preorder_eq n, children_mapRules, preorderAll_eq_flatMap, preorderAll_eq_flatMap,
        List.map_cons, List.map_flatMap, List.flatMap_map]
      exact congrArg (n.mapRules f :: ·) (List.flatMap_congr ih)

/-- One edit after the other is the edit with both functions. -/
theorem mapRules_mapRules (n : Node) : (n.mapRules f).mapRules g = n.mapRules (g ∘ f) := by
  induction n using child_induction with
  | step n ih =>
      cases n with
      | action a => rfl
      | reference name => rfl
      | noop => rfl
      | _ =>
          simp only [children] at ih
          simpa [mapRules, mapRulesAll_eq_map] using ih

variable {f}

/-- An edit that keeps the rules of a tree keeps the tree. -/
theorem mapRules_eq_self {n : Node}
    (h : ∀ rule onSuccess, matchRule rule onSuccess ∈ n.preorder → f rule = rule) : n.mapRules f = n := by
  induction n using child_induction with
  | step n ih =>
      have hchildren : ∀ c ∈ n.children, c.mapRules f = id c := fun c hc =>
        ih c hc fun rule onSuccess hmem => h rule onSuccess (mem_preorder_iff.mpr (.inr ⟨c, hc, hmem⟩))
      have hmap := List.map_congr_left hchildren
      rw [List.map_id] at hmap
      cases n with
      | matchRule rule onSuccess =>
          have hrule := h rule onSuccess (mem_preorder_self _)
          rw [mapRules, mapRulesAll_eq_map, hrule]
          exact congrArg (matchRule rule) hmap
      | _ =>
          simp only [children] at hmap
          simp [mapRules, mapRulesAll_eq_map, hmap]

end Node

namespace RuleTree

variable (f g : MatchRule → MatchRule) (t : RuleTree)

theorem nodes_mapRules : (t.mapNodes (Node.mapRules f)).nodes = t.nodes.map (Node.mapRules f) := by
  simp [nodes, mapNodes, Table.mapValues, Table.values, Node.preorder_mapRules, List.flatMap_map,
    List.map_flatMap]

/-- The rules of an edited tree are the edited rules, in their order. -/
theorem rules_mapRules : (t.mapNodes (Node.mapRules f)).rules = t.rules.map f := by
  rw [rules, nodes_mapRules, List.filterMap_map, rules, List.map_filterMap]
  refine List.filterMap_congr fun n _ => ?_
  cases n <;> rfl

theorem mapNodes_mapRules_mapRules :
    (t.mapNodes (Node.mapRules f)).mapNodes (Node.mapRules g) = t.mapNodes (Node.mapRules (g ∘ f)) := by
  simp [mapNodes, Table.mapValues, Node.mapRules_mapRules]

/-- The tree with an empty pattern in every rule. -/
def withoutPatterns : RuleTree := t.mapNodes (Node.mapRules (Spacing.onPattern fun _ => []))

/-- An edit of patterns changes nothing else. -/
theorem withoutPatterns_onPattern (edit : Pattern → Pattern) :
    (t.mapNodes (Node.mapRules (Spacing.onPattern edit))).withoutPatterns = t.withoutPatterns :=
  mapNodes_mapRules_mapRules _ _ t

/-- An edit that keeps the patterns of a tree keeps the tree. -/
theorem onPattern_eq_self {edit : Pattern → Pattern}
    (h : ∀ rule ∈ t.rules, edit rule.pattern = rule.pattern) :
    t.mapNodes (Node.mapRules (Spacing.onPattern edit)) = t := by
  have hnode : ∀ n : Node, (∀ m ∈ n.preorder, m ∈ t.nodes) →
      n.mapRules (Spacing.onPattern edit) = n := by
    intro n hn
    refine Node.mapRules_eq_self fun rule onSuccess hmem => ?_
    have hrule : rule ∈ t.rules := List.mem_filterMap.mpr ⟨_, hn _ hmem, rfl⟩
    rw [Spacing.onPattern, h rule hrule]
  have hroot := hnode t.root fun m hm => List.mem_append_left _ hm
  have hbindings : ∀ e ∈ t.bindings.entries, (e.1, e.2.mapRules (Spacing.onPattern edit)) = id e := by
    intro e he
    have hvalue : e.2 ∈ t.bindings.values := List.mem_map_of_mem he
    rw [hnode e.2 fun m hm => List.mem_append_right _ (List.mem_flatMap.mpr ⟨e.2, hvalue, hm⟩)]
    rfl
  rw [mapNodes, hroot, Table.mapValues, List.map_congr_left hbindings, List.map_id]

end RuleTree

end LogRules

import LogRules.Proofs.Result
import LogRules.Proofs.Tree.Everywhere

/-! # Edits that keep the shape of a tree

An edit is local when it goes through chains and selections child by child and takes trees without labels to
trees without labels (`Node.IsLocal`). The edits of match rules, actions and effects are local when what they
do to one rule or one action is the same without its labels. -/

namespace LogRules.Node

/-- Chains and selections. -/
inductive IsBranching : Node → Prop where
  | chain (nodes : List Node) : IsBranching (.chain nodes)
  | linearSelect (nodes : List Node) : IsBranching (.linearSelect nodes)
  | messageIdSelect (index : Table Nat) (nodes : List Node) : IsBranching (.messageIdSelect index nodes)

/-- An edit that may fail goes through chains and selections child by child, and does not look at labels. -/
structure IsLocal (f : Node → Option Node) : Prop where
  branches : ∀ {n m : Node}, n.IsBranching → f n = some m →
    ∃ nodes, m = n.withChildren nodes ∧ List.Forall₂ (fun c d => f c = some d) n.children nodes
  labels : ∀ n : Node, f n.unlabelled = (f n).map unlabelled

/-- An edit that does not fail. -/
theorem isLocal_of_total {g : Node → Node}
    (hbranches : ∀ n : Node, n.IsBranching → g n = n.withChildren (n.children.map g))
    (hlabels : ∀ n : Node, g n.unlabelled = (g n).unlabelled) : IsLocal fun n => some (g n) := by
  refine ⟨fun {n m} hn hm => ?_, fun n => by rw [hlabels, Option.map_some]⟩
  cases hm
  refine ⟨_, hbranches n hn, ?_⟩
  rw [List.forall₂_map_right_iff, List.forall₂_same]
  exact fun c _ => rfl

theorem isLocal_some : IsLocal some :=
  isLocal_of_total (g := id) (fun n _ => by rw [List.map_id, id, withChildren_children]) fun _ => rfl

/-! ### Rules and actions -/

theorem mapRules_unlabelled {f : MatchRule → MatchRule}
    (hf : ∀ rule : MatchRule, f rule.unlabelled = (f rule).unlabelled) :
    (∀ n : Node, n.unlabelled.mapRules f = (n.mapRules f).unlabelled) ∧
    ∀ nodes : List Node, mapRulesAll f (unlabelledAll nodes) = unlabelledAll (mapRulesAll f nodes) := by
  refine forest_induction ?_ rfl ?_
  · intro n ih
    cases n <;> simp only [children] at ih <;> simp only [unlabelled, mapRules, hf, ih]
  · intro n rest hn hrest
    rw [unlabelledAll, mapRulesAll, mapRulesAll, unlabelledAll, hn, hrest]

theorem isLocal_mapRules {f : MatchRule → MatchRule}
    (hf : ∀ rule : MatchRule, f rule.unlabelled = (f rule).unlabelled) :
    IsLocal fun n => some (n.mapRules f) := by
  refine isLocal_of_total (fun n hn => ?_) (mapRules_unlabelled hf).1
  cases hn <;> simp only [mapRules, withChildren, children, mapRulesAll_eq_map]

theorem mapActions_unlabelled {f : Action → Node}
    (hf : ∀ a : Action, f a.unlabelled = (f a).unlabelled) :
    (∀ n : Node, n.unlabelled.mapActions f = (n.mapActions f).unlabelled) ∧
    ∀ nodes : List Node, mapActionsAll f (unlabelledAll nodes) = unlabelledAll (mapActionsAll f nodes) := by
  refine forest_induction ?_ rfl ?_
  · intro n ih
    cases n <;> simp only [children] at ih <;> simp only [unlabelled, mapActions, hf, ih]
  · intro n rest hn hrest
    rw [unlabelledAll, mapActionsAll, mapActionsAll, unlabelledAll, hn, hrest]

theorem isLocal_mapActions {f : Action → Node}
    (hf : ∀ a : Action, f a.unlabelled = (f a).unlabelled) :
    IsLocal fun n => some (n.mapActions f) := by
  refine isLocal_of_total (fun n hn => ?_) (mapActions_unlabelled hf).1
  cases hn <;> simp only [mapActions, withChildren, children, mapActionsAll_eq_map]

/-! ### Nodes without effect -/

theorem isNoop_unlabelled (n : Node) : n.unlabelled.isNoop = n.isNoop := by
  cases n <;> rfl

theorem filter_isNoop_unlabelledAll (nodes : List Node) :
    (unlabelledAll nodes).filter (!·.isNoop) = unlabelledAll (nodes.filter (!·.isNoop)) := by
  rw [unlabelledAll_eq_map, unlabelledAll_eq_map, List.filter_map]
  exact congrArg (List.map unlabelled) (List.filter_congr fun n _ => by simp [isNoop_unlabelled])

theorem dropNoops_unlabelled :
    (∀ n : Node, n.unlabelled.dropNoops = n.dropNoops.unlabelled) ∧
    ∀ nodes : List Node, dropNoopsAll (unlabelledAll nodes) = unlabelledAll (dropNoopsAll nodes) := by
  refine forest_induction ?_ rfl ?_
  · intro n ih
    cases n <;> simp only [children] at ih <;>
      simp only [unlabelled, dropNoops, ih, filter_isNoop_unlabelledAll]
  · intro n rest hn hrest
    rw [unlabelledAll, dropNoopsAll, dropNoopsAll, unlabelledAll, hn, hrest]

theorem isLocal_dropNoops : IsLocal fun n => some n.dropNoops := by
  refine isLocal_of_total (fun n hn => ?_) dropNoops_unlabelled.1
  cases hn <;> simp only [dropNoops, withChildren, children, dropNoopsAll_eq_map]

/-! ### Effects -/

theorem tryEffects_unlabelled {ε : Type} {f : Action → Except ε Effect}
    (hf : ∀ a : Action, (f a.unlabelled).toOption = (f a).toOption) :
    (∀ n : Node, (n.unlabelled.tryEffects f).toOption = (n.tryEffects f).toOption.map unlabelled) ∧
    ∀ nodes : List Node, (tryEffectsAll f (unlabelledAll nodes)).toOption =
      (tryEffectsAll f nodes).toOption.map unlabelledAll := by
  refine forest_induction ?_ rfl ?_
  · intro n ih
    cases n <;> simp only [children] at ih
    case action a =>
      simp only [unlabelled, tryEffects, toOption_map, hf, Option.map_map]
      rfl
    case reference name => rfl
    case noop => rfl
    all_goals
      simp only [unlabelled, tryEffects, toOption_map, ih, Option.map_map]
      rfl
  · intro n rest hn hrest
    simp only [unlabelledAll, tryEffectsAll, toOption_bind, hn, hrest]
    cases (n.tryEffects f).toOption with
    | none => rfl
    | some m => cases (tryEffectsAll f rest).toOption <;> rfl

theorem isLocal_tryEffects {ε : Type} {f : Action → Except ε Effect}
    (hf : ∀ a : Action, (f a.unlabelled).toOption = (f a).toOption) :
    IsLocal fun n => (n.tryEffects f).toOption := by
  have hall : ∀ {nodes ms : List Node}, tryEffectsAll f nodes = .ok ms →
      List.Forall₂ (fun c d => (tryEffects f c).toOption = some d) nodes ms := by
    intro nodes ms hms
    rw [tryEffectsAll_eq_mapM] at hms
    exact (mapM_eq_ok.mp hms).imp fun c d h => by rw [h]; rfl
  refine ⟨fun {n m} hn hm => ?_, (tryEffects_unlabelled hf).1⟩
  have hm := eq_ok_of_toOption hm
  cases hn
  all_goals
    obtain ⟨ms, hms, rfl⟩ := map_eq_ok.mp hm
    exact ⟨ms, rfl, hall hms⟩

end LogRules.Node

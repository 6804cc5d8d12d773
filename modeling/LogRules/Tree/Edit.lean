import LogRules.Tree.Node

/-! # Editing the rule tree

A pass that looks at one match rule or at one action at a time does not need to steer a walk. These
functions apply such a pass to every match rule, or to every action, and keep all other nodes. -/

namespace LogRules

namespace Node

mutual
/-- Applies a function to every match rule. -/
def mapRules (f : MatchRule → MatchRule) : Node → Node
  | chain nodes => chain (mapRulesAll f nodes)
  | linearSelect nodes => linearSelect (mapRulesAll f nodes)
  | messageIdSelect index nodes => messageIdSelect index (mapRulesAll f nodes)
  | matchRule rule onSuccess => matchRule (f rule) (mapRulesAll f onSuccess)
  | action a => action a
  | reference name => reference name
  | noop => noop

/-- Applies a function to every match rule of several trees. -/
def mapRulesAll (f : MatchRule → MatchRule) : List Node → List Node
  | [] => []
  | n :: rest => mapRules f n :: mapRulesAll f rest
end

mutual
/-- Replaces every action by a node. -/
def mapActions (f : Action → Node) : Node → Node
  | chain nodes => chain (mapActionsAll f nodes)
  | linearSelect nodes => linearSelect (mapActionsAll f nodes)
  | messageIdSelect index nodes => messageIdSelect index (mapActionsAll f nodes)
  | matchRule rule onSuccess => matchRule rule (mapActionsAll f onSuccess)
  | action a => f a
  | reference name => reference name
  | noop => noop

/-- Replaces every action of several trees. -/
def mapActionsAll (f : Action → Node) : List Node → List Node
  | [] => []
  | n :: rest => mapActions f n :: mapActionsAll f rest
end

mutual
/-- Replaces every action by an effect on the same rule, or stops at the first that fails. -/
def tryEffects {ε : Type} (f : Action → Except ε Effect) : Node → Except ε Node
  | chain nodes => chain <$> tryEffectsAll f nodes
  | linearSelect nodes => linearSelect <$> tryEffectsAll f nodes
  | messageIdSelect index nodes => messageIdSelect index <$> tryEffectsAll f nodes
  | matchRule rule onSuccess => matchRule rule <$> tryEffectsAll f onSuccess
  | action a => (fun effect => action { a with effect }) <$> f a
  | reference name => .ok (reference name)
  | noop => .ok noop

/-- Replaces the effect of every action of several trees. -/
def tryEffectsAll {ε : Type} (f : Action → Except ε Effect) : List Node → Except ε (List Node)
  | [] => .ok []
  | n :: rest => do
    let first ← tryEffects f n
    let others ← tryEffectsAll f rest
    return first :: others
end

mutual
/-- Drops the children of match rules that do nothing. -/
def dropNoops : Node → Node
  | chain nodes => chain (dropNoopsAll nodes)
  | linearSelect nodes => linearSelect (dropNoopsAll nodes)
  | messageIdSelect index nodes => messageIdSelect index (dropNoopsAll nodes)
  | matchRule rule onSuccess => matchRule rule ((dropNoopsAll onSuccess).filter (!·.isNoop))
  | action a => action a
  | reference name => reference name
  | noop => noop

/-- Drops the children of match rules that do nothing, in several trees. -/
def dropNoopsAll : List Node → List Node
  | [] => []
  | n :: rest => dropNoops n :: dropNoopsAll rest
end

theorem mapRulesAll_eq_map (f : MatchRule → MatchRule) (nodes : List Node) :
    mapRulesAll f nodes = nodes.map (mapRules f) := by
  induction nodes with
  | nil => rfl
  | cons n rest ih => rw [mapRulesAll, ih, List.map_cons]

theorem mapActionsAll_eq_map (f : Action → Node) (nodes : List Node) :
    mapActionsAll f nodes = nodes.map (mapActions f) := by
  induction nodes with
  | nil => rfl
  | cons n rest ih => rw [mapActionsAll, ih, List.map_cons]

theorem dropNoopsAll_eq_map (nodes : List Node) : dropNoopsAll nodes = nodes.map dropNoops := by
  induction nodes with
  | nil => rfl
  | cons n rest ih => rw [dropNoopsAll, ih, List.map_cons]

end Node

/-- Applies a function that may fail to every value, from first to last. -/
def Table.tryValues {α β ε : Type} (f : α → Except ε β) (t : Table α) : Except ε (Table β) :=
  Table.mk <$> t.entries.mapM fun (key, value) => (key, ·) <$> f value

namespace RuleTree

/-- Applies a function to the root and to every binding. -/
def mapNodes (f : Node → Node) (t : RuleTree) : RuleTree :=
  { t with root := f t.root, bindings := t.bindings.mapValues f }

/-- Applies a function that may fail to the root and then to every binding. -/
def tryNodes {ε : Type} (f : Node → Except ε Node) (t : RuleTree) : Except ε RuleTree := do
  let root ← f t.root
  let bindings ← t.bindings.tryValues f
  return { t with root, bindings }

/-- The match rules of the tree in order. -/
def rules (t : RuleTree) : List MatchRule :=
  t.nodes.filterMap fun
    | .matchRule rule _ => some rule
    | _ => none

/-- The actions of the tree in order. -/
def actions (t : RuleTree) : List Action :=
  t.nodes.filterMap fun
    | .action a => some a
    | _ => none

end RuleTree

end LogRules

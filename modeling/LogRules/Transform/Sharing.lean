import LogRules.Transform.Pass
import LogRules.Tree.Render

/-! # Sharing

Nodes that do the same are stored once as a binding and named by references. Hoisting stores every
match rule and every selection in order; deduplication stores every node whose signature occurs at
least twice. Deduplication works from the leaves to the root and is repeated, since parents become
equal when their children do. -/

namespace LogRules.Sharing

/-! ### Hoisting -/

/-- The state of hoisting: the binding of every signature that was met, and the bindings whose
children were not looked at yet. -/
structure Hoisting where
  names : Table String
  queue : List (String × Node)

namespace Hoisting

/-- Nothing is hoisted yet. -/
def start : Hoisting := ⟨.empty, []⟩

/-- A reference to the binding of a node, which is new when its signature is. -/
def hoist (s : Hoisting) (n : Node) : Node × Hoisting :=
  match s.names.get? n.signature with
  | some name => (.reference name, s)
  | none =>
    let name := "entity" ++ toString s.names.size
    (.reference name, ⟨s.names.insert n.signature name, s.queue ++ [(name, n)]⟩)

mutual
/-- Hoists the topmost match rules and selections of a tree. -/
def hoistIn (s : Hoisting) : Node → Node × Hoisting
  | .linearSelect nodes => s.hoist (.linearSelect nodes)
  | .matchRule rule onSuccess => s.hoist (.matchRule rule onSuccess)
  | .chain nodes =>
    let (nodes, s) := hoistInAll s nodes
    (.chain nodes, s)
  | .messageIdSelect index nodes =>
    let (nodes, s) := hoistInAll s nodes
    (.messageIdSelect index nodes, s)
  | .action a => (.action a, s)
  | .reference name => (.reference name, s)
  | .noop => (.noop, s)

/-- Hoists the topmost match rules and selections of several trees. -/
def hoistInAll (s : Hoisting) : List Node → List Node × Hoisting
  | [] => ([], s)
  | n :: rest =>
    let (n, s) := hoistIn s n
    let (rest, s) := hoistInAll s rest
    (n :: rest, s)
end

/-- The bindings that the queue leads to, when their children are hoisted in turn. A tree of
`bound` nodes has at most that many bindings. -/
def drain : Nat → Hoisting → List (String × Node)
  | 0, s => s.queue
  | bound + 1, s =>
    match s.queue with
    | [] => []
    | (name, n) :: rest =>
      let (children, s) := hoistInAll { s with queue := rest } n.children
      (name, n.withChildren children) :: drain bound s

end Hoisting

/-- Stores every match rule and every selection as a binding. -/
def hoistEntities (t : RuleTree) : RuleTree :=
  let (root, s) := Hoisting.start.hoistIn t.root
  { t with root, bindings := t.bindings.insertAll (s.drain t.root.count) }

/-! ### Deduplication -/

/-- A reference or a node without effect is not worth a binding. -/
def isShareable : Node → Bool
  | .reference _ => false
  | .noop => false
  | _ => true

/-- The signatures that occur at least twice. -/
def duplicatedSignatures (t : RuleTree) : List String :=
  let signatures := (t.nodes.filter isShareable).map Node.signature
  signatures.filter fun s => 2 ≤ signatures.count s

/-- The state of one round: the signatures to share, the binding of each that was met, the new
bindings, the number of the next one, and how many nodes became references. -/
structure Round where
  duplicated : List String
  names : Table String
  bindings : List (String × Node)
  next : Nat
  replaced : Nat

namespace Round

/-- A reference to the binding of a node whose signature is to be shared. -/
def share (s : Round) (n : Node) : Node × Round :=
  let signature := n.signature
  if signature ∈ s.duplicated then
    match s.names.get? signature with
    | some name => (.reference name, { s with replaced := s.replaced + 1 })
    | none =>
      let name := "dup" ++ toString s.next
      (.reference name,
        { s with
          names := s.names.insert signature name
          bindings := s.bindings ++ [(name, n)]
          next := s.next + 1
          replaced := s.replaced + 1 })
  else (n, s)

mutual
/-- Shares the nodes of a tree, children first. -/
def shareIn (s : Round) : Node → Node × Round
  | .chain nodes =>
    let (nodes, s) := shareInAll s nodes
    s.share (.chain nodes)
  | .linearSelect nodes =>
    let (nodes, s) := shareInAll s nodes
    s.share (.linearSelect nodes)
  | .messageIdSelect index nodes =>
    let (nodes, s) := shareInAll s nodes
    s.share (.messageIdSelect index nodes)
  | .matchRule rule onSuccess =>
    let (onSuccess, s) := shareInAll s onSuccess
    s.share (.matchRule rule onSuccess)
  | .action a => s.share (.action a)
  | .reference name => (.reference name, s)
  | .noop => (.noop, s)

/-- Shares the nodes of several trees. -/
def shareInAll (s : Round) : List Node → List Node × Round
  | [] => ([], s)
  | n :: rest =>
    let (n, s) := shareIn s n
    let (rest, s) := shareInAll s rest
    (n :: rest, s)
end

/-- Shares the nodes below the bindings. The root of a binding is the stored copy and stays. -/
def shareInBindings (s : Round) : List (String × Node) → List (String × Node) × Round
  | [] => ([], s)
  | (name, n) :: rest =>
    let (children, s) := shareInAll s n.children
    let (rest, s) := shareInBindings s rest
    ((name, n.withChildren children) :: rest, s)

end Round

/-- One round on a tree in which these signatures occur at least twice, with bindings numbered from
`next` on. -/
def shareRound (duplicated : List String) (next : Nat) (t : RuleTree) : RuleTree × Round :=
  let (root, s) := Round.shareIn ⟨duplicated, .empty, [], next, 0⟩ t.root
  let (bindings, s) := s.shareInBindings t.bindings.entries
  let shared : Table Node := ⟨bindings⟩
  ({ t with root, bindings := shared.insertAll s.bindings }, s)

/-- Repeats rounds until no signature occurs twice or nothing was replaced. A round that replaces
a node leaves fewer nodes that a later one could replace, so `bound` rounds are enough for a tree
of that many nodes. -/
def shareRounds : Nat → Nat → RuleTree → RuleTree
  | 0, _, t => t
  | bound + 1, next, t =>
    match duplicatedSignatures t with
    | [] => t
    | duplicated =>
      let (t, s) := shareRound duplicated next t
      if s.replaced = 0 then t else shareRounds bound s.next t

/-- Stores every node that occurs at least twice as a binding. -/
def removeDuplicates (t : RuleTree) : RuleTree := shareRounds (t.nodes.length + 1) 0 t

/-- Hoists and deduplicates as the options say. -/
def extractShared (config : Config) (t : RuleTree) : RuleTree :=
  let t := if config.globalEntities then hoistEntities t else t
  if config.detectDuplicates then removeDuplicates t else t

end LogRules.Sharing

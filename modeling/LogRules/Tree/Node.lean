import LogRules.Call.Reader
import LogRules.Pattern.Basic
import LogRules.Table
import LogRules.TimeFormat
import LogRules.Tree.Source

/-! # The rule tree

A rule tree is built from selections, match rules and the actions that a match rule runs when its
pattern applies. A subtree may be stored once as a binding and named by references. -/

namespace LogRules

/-- Fields that hold a date or a duration, the formats to read it with, and the field that takes
the result. -/
structure TimeReading where
  target : String
  fields : List String
  formats : List TimeFormat
  deriving Repr, Inhabited

/-- What an action does. -/
inductive Effect where
  /-- Sets a field to a constant or to the value of a field. -/
  | setField (target : String) (value : Value)
  | call (inv : Invocation)
  /-- Looks a key up in a value map. -/
  | lookup (target map : String) (key : Value)
  /-- Reads a date. The flag says that the fields hold universal time. -/
  | dateTime (reading : TimeReading) (utc : Bool)
  | duration (reading : TimeReading)
  deriving Repr, Inhabited

/-- The field that an effect writes. -/
def Effect.target : Effect → String
  | setField target _ => target
  | call inv => inv.target
  | lookup target _ _ => target
  | dateTime reading _ => reading.target
  | duration reading => reading.target

/-- An action and the rule it comes from. -/
structure Action where
  effect : Effect
  source : SourceLoc
  deriving Repr, Inhabited

/-- A rule that matches a pattern against its input. -/
structure MatchRule where
  id : String
  /-- The name of the input that the rule consumes. -/
  input : String
  pattern : Pattern
  /-- The field whose capture starts the payload. -/
  payloadField : Option String
  source : SourceLoc
  deriving Repr, Inhabited

/-- A node of the rule tree. -/
inductive Node where
  /-- Runs every child; a child that fails does not stop the chain. -/
  | chain (nodes : List Node)
  /-- Runs its children until one succeeds. -/
  | linearSelect (nodes : List Node)
  /-- Runs the child that belongs to the message id. -/
  | messageIdSelect (index : Table Nat) (nodes : List Node)
  /-- Matches a pattern and runs its actions on success. -/
  | matchRule (rule : MatchRule) (onSuccess : List Node)
  | action (a : Action)
  /-- Stands for the binding of this name. -/
  | reference (name : String)
  | noop
  deriving Inhabited

namespace Node

/-- The children of a node. -/
def children : Node → List Node
  | chain nodes => nodes
  | linearSelect nodes => nodes
  | messageIdSelect _ nodes => nodes
  | matchRule _ onSuccess => onSuccess
  | _ => []

/-- The node with other children. A leaf stays as it is. -/
def withChildren (nodes : List Node) : Node → Node
  | chain _ => chain nodes
  | linearSelect _ => linearSelect nodes
  | messageIdSelect index _ => messageIdSelect index nodes
  | matchRule rule _ => matchRule rule nodes
  | leaf => leaf

@[simp] theorem withChildren_children (n : Node) : n.withChildren n.children = n := by
  cases n <;> rfl

/-- The name of the kind of a node. -/
def kindName : Node → String
  | chain _ => "Chain"
  | linearSelect _ => "LinearSelect"
  | messageIdSelect _ _ => "MsgIdSelect"
  | matchRule _ _ => "Match"
  | action a => match a.effect with
    | .setField _ _ => "SetField"
    | .call _ => "Call"
    | .lookup _ _ _ => "ValueMapCall"
    | .dateTime _ _ => "DateTime"
    | .duration _ => "Duration"
  | reference _ => "Reference"
  | noop => "Noop"

/-- The rule that a node comes from. -/
def source? : Node → Option SourceLoc
  | matchRule rule _ => some rule.source
  | action a => some a.source
  | _ => none

/-- The node does nothing. -/
def isNoop : Node → Bool
  | noop => true
  | _ => false

mutual
/-- The number of nodes of a tree. -/
def count : Node → Nat
  | chain nodes => countAll nodes + 1
  | linearSelect nodes => countAll nodes + 1
  | messageIdSelect _ nodes => countAll nodes + 1
  | matchRule _ onSuccess => countAll onSuccess + 1
  | action _ => 1
  | reference _ => 1
  | noop => 1

/-- The number of nodes of several trees. -/
def countAll : List Node → Nat
  | [] => 0
  | n :: rest => count n + countAll rest
end

mutual
/-- All nodes of a tree, a node before its children and children in order. -/
def preorder : Node → List Node
  | chain nodes => chain nodes :: preorderAll nodes
  | linearSelect nodes => linearSelect nodes :: preorderAll nodes
  | messageIdSelect index nodes => messageIdSelect index nodes :: preorderAll nodes
  | matchRule rule onSuccess => matchRule rule onSuccess :: preorderAll onSuccess
  | action a => [action a]
  | reference name => [reference name]
  | noop => [noop]

/-- All nodes of several trees, one tree after the other. -/
def preorderAll : List Node → List Node
  | [] => []
  | n :: rest => preorder n ++ preorderAll rest
end

theorem preorderAll_eq_flatMap (nodes : List Node) :
    preorderAll nodes = nodes.flatMap preorder := by
  induction nodes with
  | nil => rfl
  | cons n rest ih => rw [preorderAll, ih, List.flatMap_cons]

end Node

/-- A table of constants and fields that calls look keys up in. -/
structure ValueMap where
  name : String
  entries : Table Value
  default? : Option Value
  source : SourceLoc
  deriving Inhabited

/-- A rule tree with the value maps and bindings that its nodes name. -/
structure RuleTree where
  root : Node
  valueMaps : Table ValueMap
  bindings : Table Node
  /-- The field that holds the time of the event. -/
  timestampField : Option String
  deriving Inhabited

namespace RuleTree

/-- All nodes: those of the root, then those of the bindings in order. -/
def nodes (t : RuleTree) : List Node := t.root.preorder ++ t.bindings.values.flatMap Node.preorder

/-- The number of nodes that a finished tree may have. -/
def nodeLimit : Nat := 50000000

end RuleTree

end LogRules

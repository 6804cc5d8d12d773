import LogRules.Tree.Node

/-! # Walking the rule tree

A walk shows every node to a visitor, which has a state of its own and answers with a step. Before
children (`Order.pre`) a replacement is put in place first and the walk goes on in its children;
after children (`Order.post`) it is put in place when they are done. A visitor may grow the tree
for ever, so a walk carries a bound on the depth that it reaches. -/

namespace LogRules

/-- What a visitor wants to happen next. -/
inductive Step where
  | proceed
  /-- Leaves out the descendants; after children it means `proceed`. -/
  | skip
  | cancel
  | replace (node : Node)

/-- Whether a node comes before or after its descendants. -/
inductive Order where
  | pre
  | post
  deriving DecidableEq, Repr, Inhabited

/-- How a walk ended. -/
inductive Ending (ε : Type) where
  | completed
  | cancelled
  | failed (e : ε)
  /-- The walk reached the bound on its depth. -/
  | exhausted
  deriving DecidableEq, Repr

/-- What is left of a walk: the tree with its replacements, the state of the visitor, and how it
ended. -/
structure Walked (σ ε α : Type) where
  tree : α
  state : σ
  ending : Ending ε

/-- A visitor sees its state and a node. -/
abbrev Visitor (σ ε : Type) := σ → Node → σ × Except ε Step

namespace Walked

variable {σ ε α β : Type}

/-- The same walk seen from a larger tree. -/
def map (f : α → β) (w : Walked σ ε α) : Walked σ ε β := ⟨f w.tree, w.state, w.ending⟩

end Walked

namespace Node

variable {σ ε : Type}

/-- Walks trees one after the other, until one does not complete. -/
def walkList (step : σ → Node → Walked σ ε Node) : σ → List Node → Walked σ ε (List Node)
  | s, [] => ⟨[], s, .completed⟩
  | s, n :: rest =>
    let first := step s n
    match first.ending with
    | .completed => (walkList step first.state rest).map (first.tree :: ·)
    | ending => ⟨first.tree :: rest, first.state, ending⟩

/-- Walks the children of a node. -/
def walkChildren (step : σ → Node → Walked σ ε Node) (s : σ) (n : Node) : Walked σ ε Node :=
  (walkList step s n.children).map n.withChildren

/-- Walks a tree, a node before its children. -/
def walkPre (visit : Visitor σ ε) : Nat → σ → Node → Walked σ ε Node
  | 0, s, n => ⟨n, s, .exhausted⟩
  | depth + 1, s, n =>
    match visit s n with
    | (s, .error e) => ⟨n, s, .failed e⟩
    | (s, .ok .proceed) => walkChildren (walkPre visit depth) s n
    | (s, .ok .skip) => ⟨n, s, .completed⟩
    | (s, .ok .cancel) => ⟨n, s, .cancelled⟩
    | (s, .ok (.replace new)) => walkChildren (walkPre visit depth) s new

/-- Walks a tree, a node after its children. -/
def walkPost (visit : Visitor σ ε) : Nat → σ → Node → Walked σ ε Node
  | 0, s, n => ⟨n, s, .exhausted⟩
  | depth + 1, s, n =>
    let below := walkChildren (walkPost visit depth) s n
    match below.ending with
    | .completed =>
      match visit below.state below.tree with
      | (s, .error e) => ⟨below.tree, s, .failed e⟩
      | (s, .ok .cancel) => ⟨below.tree, s, .cancelled⟩
      | (s, .ok (.replace new)) => ⟨new, s, .completed⟩
      | (s, .ok _) => ⟨below.tree, s, .completed⟩
    | _ => below

/-- Walks a tree up to a depth. -/
def walk (order : Order) (visit : Visitor σ ε) (depth : Nat) (s : σ) (n : Node) :
    Walked σ ε Node :=
  match order with
  | .pre => walkPre visit depth s n
  | .post => walkPost visit depth s n

end Node

namespace RuleTree

variable {σ ε : Type}

/-- Walks bindings in order, until one does not complete. -/
def walkBindings (step : σ → Node → Walked σ ε Node) :
    σ → List (String × Node) → Walked σ ε (List (String × Node))
  | s, [] => ⟨[], s, .completed⟩
  | s, (name, n) :: rest =>
    let first := step s n
    match first.ending with
    | .completed => (walkBindings step first.state rest).map ((name, first.tree) :: ·)
    | ending => ⟨(name, first.tree) :: rest, first.state, ending⟩

/-- Walks the root and then the bindings in order. -/
def walk (order : Order) (visit : Visitor σ ε) (depth : Nat) (s : σ) (t : RuleTree) :
    Walked σ ε RuleTree :=
  let root := t.root.walk order visit depth s
  match root.ending with
  | .completed =>
    (walkBindings (Node.walk order visit depth) root.state t.bindings.entries).map fun bindings =>
      { t with root := root.tree, bindings := ⟨bindings⟩ }
  | ending => ⟨{ t with root := root.tree }, root.state, ending⟩

end RuleTree

end LogRules

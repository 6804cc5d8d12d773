import LogRules.Value

/-! # Patterns

A pattern is a sequence of items: values, and groups of alternative branches, which are patterns
again. `render` writes the source text of a pattern: an opening angle bracket or brace of a
constant is doubled, fields and payload markers stand in angle brackets, and a group in braces with
bars between its branches. -/

namespace LogRules

/-- One element of a pattern. -/
inductive PatternItem where
  | value (v : Value)
  | alternatives (branches : List (List PatternItem))
  deriving Repr, Inhabited

/-- A sequence of pattern items. -/
abbrev Pattern := List PatternItem

namespace PatternItem

/-- The value of an item that is no group. -/
def value? : PatternItem → Option Value
  | value v => some v
  | alternatives _ => none

/-- The item is a group. -/
def isGroup : PatternItem → Bool
  | value _ => false
  | alternatives _ => true

/-- The item is a field. -/
def isField : PatternItem → Bool
  | value (.field _) => true
  | _ => false

end PatternItem

namespace Pattern

/-! ### Reading parts -/

/-- The pattern has a group. -/
def hasGroups (p : Pattern) : Bool := p.any PatternItem.isGroup

/-- The alias of the first payload marker outside of the groups; `none` without a marker. -/
def payload? : Pattern → Option (Option String)
  | [] => none
  | .value (.payload alias?) :: _ => some alias?
  | _ :: rest => payload? rest

/-- The number of captures of a field outside of the groups. -/
def countField (name : String) (p : Pattern) : Nat :=
  p.countP fun item => item.value? == some (.field name)

mutual
/-- The number of payload markers in an item, groups included. -/
def itemPayloads : PatternItem → Nat
  | .value v => if v.isPayload then 1 else 0
  | .alternatives branches => branchPayloads branches

/-- The number of payload markers in a pattern, groups included. -/
def countPayloads : Pattern → Nat
  | [] => 0
  | item :: rest => itemPayloads item + countPayloads rest

/-- The number of payload markers in the branches of a group. -/
def branchPayloads : List Pattern → Nat
  | [] => 0
  | branch :: rest => countPayloads branch + branchPayloads rest
end

/-- A payload marker occurs somewhere, groups included. -/
def containsPayload (p : Pattern) : Bool := countPayloads p != 0

mutual
/-- The most captures of a field on one way through an item. -/
def itemOccurrences (name : String) : PatternItem → Nat
  | .value v => if v = .field name then 1 else 0
  | .alternatives branches => branchOccurrences name branches

/-- The most captures of a field on one way through a pattern. -/
def occurrences (name : String) : Pattern → Nat
  | [] => 0
  | item :: rest => itemOccurrences name item + occurrences name rest

/-- The most captures of a field in one of the branches. -/
def branchOccurrences (name : String) : List Pattern → Nat
  | [] => 0
  | branch :: rest => max (occurrences name branch) (branchOccurrences name rest)
end

/-! ### Editing -/

/-- Puts an item in front and merges it with a constant that follows. -/
def consMerged : PatternItem → Pattern → Pattern
  | .value (.constant a), .value (.constant b) :: rest => .value (.constant (a ++ b)) :: rest
  | item, rest => item :: rest

/-- Merges neighbouring constants. -/
def mergeConstants (p : Pattern) : Pattern := p.foldr consMerged []

/-- Appends a value and merges neighbouring constants. -/
def appendMerged (p : Pattern) (v : Value) : Pattern := mergeConstants (p ++ [.value v])

/-! ### Source text -/

/-- One character of a constant in a pattern. -/
def constantChar (c : Char) : List Char := if c = '<' || c = '{' then [c, c] else [c]

/-- The source text of a value in a pattern. -/
def renderValue : Value → List Char
  | .constant text => text.toList.flatMap constantChar
  | .field name => '<' :: name.toList ++ ['>']
  | .payload alias? => (Value.payloadTag alias?).toList

mutual
/-- The source text of an item. -/
def renderItem : PatternItem → List Char
  | .value v => renderValue v
  | .alternatives branches => '{' :: renderBranches branches ++ ['}']

/-- The source text of a list of items. -/
def renderItems : Pattern → List Char
  | [] => []
  | item :: rest => renderItem item ++ renderItems rest

/-- The source text of branches, with bars between them. -/
def renderBranches : List Pattern → List Char
  | [] => []
  | [branch] => renderItems branch
  | branch :: rest => renderItems branch ++ '|' :: renderBranches rest
end

/-- The source text of a pattern. -/
def render (p : Pattern) : String := String.ofList (renderItems p)

theorem renderItems_append (p q : Pattern) :
    renderItems (p ++ q) = renderItems p ++ renderItems q := by
  induction p with
  | nil => rfl
  | cons item rest ih => simp [renderItems, ih]

end Pattern

end LogRules

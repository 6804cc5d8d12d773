import LogRules.Transform.Pass
import LogRules.Tree.Edit

/-! # Captures and the text after them

A capture ends where the constant after it is found. These passes give a capture such a constant
where the rules leave it out, and take away leading spaces, which a message need not have. -/

namespace LogRules

namespace Pattern

/-! ### Leading spaces -/

/-- Removes the spaces in front of the first constant, and the constant when nothing else is in it.
A constant without spaces in front is left as it is, even when it is empty. -/
def stripLeadingSpace : Pattern → Pattern
  | .value (.constant text) :: rest =>
    if text.toList.head? != some ' ' then .value (.constant text) :: rest
    else match text.toList.dropWhile (· == ' ') with
      | [] => rest
      | cs => .value (.constant (String.ofList cs)) :: rest
  | p => p

/-! ### Captures side by side -/

/-- The text of what a field must not follow directly: a field or a payload marker. -/
def captureText? : PatternItem → Option String
  | .value (.constant _) => none
  | .value v => some v.render
  | .alternatives _ => none

/-- The name of a field. -/
def fieldName? : PatternItem → Option String
  | .value (.field name) => some name
  | _ => none

/-- A space in front of a field that follows a capture. -/
def gap (last? : Option String) (item : PatternItem) : Pattern :=
  if last?.isSome && item.isField then [.value (.constant " ")] else []

mutual
/-- Puts a space between neighbouring captures in every branch of an item. -/
def separateItem : PatternItem → PatternItem
  | .value v => .value v
  | .alternatives branches => .alternatives (separateBranches branches)

/-- Puts a space between a field and a capture directly before it, in items that follow `last?`. -/
def separateItems (last? : Option String) : Pattern → Pattern
  | [] => []
  | item :: rest => gap last? item ++ separateItem item :: separateItems (captureText? item) rest

/-- Puts a space between neighbouring captures in every branch. -/
def separateBranches : List Pattern → List Pattern
  | [] => []
  | branch :: rest => separateItems none branch :: separateBranches rest
end

/-- A field that directly follows a capture, with that capture. -/
def neighbour? (last? : Option String) (item : PatternItem) : Option (String × String) := do
  return (← last?, ← fieldName? item)

mutual
/-- The fields that directly follow a capture in the branches of an item. -/
def itemNeighbours : PatternItem → List (String × String)
  | .value _ => []
  | .alternatives branches => branchNeighbours branches

/-- The fields that directly follow a capture, with that capture, in items that follow `last?`. -/
def neighbours (last? : Option String) : Pattern → List (String × String)
  | [] => []
  | item :: rest =>
    (neighbour? last? item).toList ++ itemNeighbours item ++ neighbours (captureText? item) rest

/-- The fields that directly follow a capture in a branch. -/
def branchNeighbours : List Pattern → List (String × String)
  | [] => []
  | branch :: rest => neighbours none branch ++ branchNeighbours rest
end

/-- Puts a space between neighbouring captures. -/
def separateCaptures (p : Pattern) : Pattern := separateItems none p

/-! ### Groups that end in a capture -/

/-- The pattern ends in a field. -/
def endsInField (p : Pattern) : Bool := p.getLast?.any PatternItem.isField

/-- Gives every branch of a group that ends in a field a constant to end at. A constant after the
group moves into all of its branches; otherwise a space is added to the branches that need it. The
last item of the pattern is left as it is. -/
def anchorGroups : Pattern → Pattern
  | .alternatives branches :: next :: rest =>
    if !branches.any endsInField then .alternatives branches :: anchorGroups (next :: rest)
    else match next with
      | .value (.constant text) =>
        .alternatives (branches.map (appendMerged · (.constant text))) :: anchorGroups rest
      | _ =>
        let anchored := branches.map fun branch =>
          if endsInField branch then appendMerged branch (.constant " ") else branch
        .alternatives anchored :: anchorGroups (next :: rest)
  | item :: rest => item :: anchorGroups rest
  | [] => []

end Pattern

namespace Spacing

/-- Applies a function to the pattern of a rule. -/
def onPattern (f : Pattern → Pattern) (rule : MatchRule) : MatchRule :=
  { rule with pattern := f rule.pattern }

/-- Removes leading spaces of the pattern of a message rule. -/
def stripMessageRule (rule : MatchRule) : MatchRule :=
  if rule.input == payloadInput then onPattern Pattern.stripLeadingSpace rule else rule

/-- Removes the leading spaces of message patterns. -/
def stripMessages (t : RuleTree) : RuleTree := t.mapNodes (Node.mapRules stripMessageRule)

/-- The warnings about neighbouring captures of a rule. -/
def neighbourWarnings (rule : MatchRule) : List Diagnostic :=
  (Pattern.neighbours none rule.pattern).map fun (first, second) =>
    .about .consecutiveCaptures rule.source ("`" ++ first ++ "` and `" ++ second ++ "`")

/-- Puts a space between neighbouring captures and warns about each. -/
def separateCaptures (t : RuleTree) : RuleTree × List Diagnostic :=
  (t.mapNodes (Node.mapRules (onPattern Pattern.separateCaptures)),
   t.rules.flatMap neighbourWarnings)

/-- Gives the branches of groups a constant to end at. -/
def anchorGroups (t : RuleTree) : RuleTree :=
  t.mapNodes (Node.mapRules (onPattern Pattern.anchorGroups))

end Spacing

end LogRules

/-! # Places in a rule set

A rule is named by its kind, its place among the rules of that kind, and the line of the rule file
when that is known. -/

namespace LogRules

/-- The kinds of rule records. -/
inductive RuleKind where
  | header
  | message
  | valueMap
  deriving DecidableEq, Repr, Inhabited

/-- The label of a kind. -/
def RuleKind.label : RuleKind → String
  | header => "HEADER"
  | message => "MESSAGE"
  | valueMap => "VALUEMAP"

/-- Where a part of the rule tree comes from. -/
structure SourceLoc where
  kind : RuleKind
  index : Nat
  line : Option Nat
  deriving DecidableEq, Repr, Inhabited

/-- The place of a record. Places keep the number of a record in 32 bits. -/
def SourceLoc.ofRecord (kind : RuleKind) (index : Nat) (line : Option Nat) : SourceLoc :=
  ⟨kind, index % 0x100000000, line⟩

/-- The label, the index in brackets, and the line when it is known. -/
def SourceLoc.render (loc : SourceLoc) : String :=
  loc.kind.label ++ "[" ++ toString loc.index ++ "]" ++
    match loc.line with
    | none => ""
    | some line => " line " ++ toString line

end LogRules

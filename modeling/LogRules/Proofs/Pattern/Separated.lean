import LogRules.Proofs.Pattern.Regular
import LogRules.Proofs.Tree.RuleEdits

/-! # Spaces between neighbouring captures

A field directly behind a field or a payload marker gets a space in front of it, in branches too.
`Pattern.Spaced` says that a pattern is another one with such spaces put in, and between which neighbours;
`Pattern.NoNeighbours` that no field is directly behind a capture. Separating a pattern puts in what leaves no
neighbours and warns about each space (`Pattern.exists_spaced`, `Pattern.noNeighbours_separateItems`), and a
pattern without neighbours stays as it is (`Pattern.separateItems_eq_self`). -/

namespace LogRules

/-- The item is a field or a payload marker. -/
def PatternItem.IsCapture : PatternItem → Prop
  | value v => v.isConstant = false
  | alternatives _ => False

namespace Pattern

/-! ### Spaces that are put in -/

mutual
/-- The second pattern is the first with single spaces put in, each between a capture and the field directly
behind it, which are listed from left to right; without these spaces it is the first. Both stand behind
`before?`. -/
inductive Spaced : (before? : Option PatternItem) → Pattern → Pattern → List (Value × String) → Prop
  | nil {before?} : Spaced before? [] [] []
  | /-- A value stays. -/
    value {before? v rest rest' pairs} (hrest : Spaced (some (.value v)) rest rest' pairs) :
      Spaced before? (.value v :: rest) (.value v :: rest') pairs
  | /-- A field behind a capture stays, with a space in front of it. -/
    space {v name rest rest' pairs} (hv : (PatternItem.value v).IsCapture)
      (hrest : Spaced (some (.value (.field name))) rest rest' pairs) :
      Spaced (some (.value v)) (.value (.field name) :: rest)
        (.value (.constant " ") :: .value (.field name) :: rest') ((v, name) :: pairs)
  | /-- A group stays, with spaces in its branches. -/
    group {before? branches branches' rest rest' inner pairs}
      (hbranches : SpacedBranches branches branches' inner)
      (hrest : Spaced (some (.alternatives branches)) rest rest' pairs) :
      Spaced before? (.alternatives branches :: rest) (.alternatives branches' :: rest') (inner ++ pairs)

/-- The second branches are the first with single spaces put in. -/
inductive SpacedBranches : List Pattern → List Pattern → List (Value × String) → Prop
  | nil : SpacedBranches [] [] []
  | cons {branch branch' rest rest' inner pairs} (hbranch : Spaced none branch branch' inner)
      (hrest : SpacedBranches rest rest' pairs) :
      SpacedBranches (branch :: rest) (branch' :: rest') (inner ++ pairs)
end

/-- Neighbours in the words of a warning: the capture as it is written in a call, and the name of the
field. -/
def inWords (pair : Value × String) : String × String := (pair.1.render, pair.2)

theorem captureText?_eq_some {item : PatternItem} {text : String} (h : captureText? item = some text) :
    ∃ v, item = .value v ∧ item.IsCapture ∧ text = v.render := by
  cases item with
  | alternatives branches => cases h
  | value v =>
      cases v with
      | constant text => cases h
      | field name => exact ⟨_, rfl, rfl, (Option.some.inj h).symm⟩
      | payload alias? => exact ⟨_, rfl, rfl, (Option.some.inj h).symm⟩

/-- Nothing is put in front of an item, or a space and the item is a field behind a capture. -/
theorem gap_neighbour_cases (before? : Option PatternItem) (item : PatternItem) :
    (gap (before?.bind captureText?) item = [] ∧ neighbour? (before?.bind captureText?) item = none) ∨
    ∃ v name, before? = some (.value v) ∧ (PatternItem.value v).IsCapture ∧ item = .value (.field name) ∧
      gap (before?.bind captureText?) item = [.value (.constant " ")] ∧
      neighbour? (before?.bind captureText?) item = some (v.render, name) := by
  cases hlast : before?.bind captureText? with
  | none => exact .inl ⟨rfl, rfl⟩
  | some text =>
      obtain ⟨before, rfl, htext⟩ := Option.bind_eq_some_iff.mp hlast
      obtain ⟨v, rfl, hv, rfl⟩ := captureText?_eq_some htext
      cases item with
      | alternatives branches => exact .inl ⟨rfl, rfl⟩
      | value w =>
          cases w with
          | field name => exact .inr ⟨v, name, rfl, hv, rfl, rfl, rfl⟩
          | constant text => exact .inl ⟨rfl, rfl⟩
          | payload alias? => exact .inl ⟨rfl, rfl⟩

mutual
/-- Separating puts spaces between neighbours, and these are the neighbours that are warned about. -/
theorem exists_spaced : ∀ (before? : Option PatternItem) (p : Pattern), ∃ pairs,
    Spaced before? p (separateItems (before?.bind captureText?) p) pairs ∧
      neighbours (before?.bind captureText?) p = pairs.map inWords
  | _, [] => ⟨[], .nil, rfl⟩
  | before?, .value v :: rest => by
      obtain ⟨pairs, hrest, hnames⟩ := exists_spaced (some (.value v)) rest
      rw [separateItems, neighbours]
      rcases gap_neighbour_cases before? (.value v) with ⟨hgap, hnone⟩ | ⟨w, name, rfl, hw, hv, hgap, hsome⟩
      · refine ⟨pairs, ?_, ?_⟩
        · rw [hgap]
          exact .value hrest
        · rw [hnone]
          exact hnames
      · obtain rfl := PatternItem.value.inj hv
        refine ⟨(w, name) :: pairs, ?_, ?_⟩
        · rw [hgap]
          exact .space hw hrest
        · rw [hsome]
          exact congrArg ((w.render, name) :: ·) hnames
  | before?, .alternatives branches :: rest => by
      obtain ⟨inner, hbranches, hinner⟩ := exists_spacedBranches branches
      obtain ⟨pairs, hrest, hnames⟩ := exists_spaced (some (.alternatives branches)) rest
      refine ⟨inner ++ pairs, ?_, ?_⟩
      · rw [separateItems, gap, if_neg (by simp [PatternItem.isField])]
        exact .group hbranches hrest
      · rw [neighbours, List.map_append, ← hinner]
        refine congrArg₂ (· ++ ·) ?_ hnames
        cases before?.bind captureText? <;> rfl

theorem exists_spacedBranches : ∀ branches : List Pattern, ∃ pairs,
    SpacedBranches branches (separateBranches branches) pairs ∧
      branchNeighbours branches = pairs.map inWords
  | [] => ⟨[], .nil, rfl⟩
  | branch :: rest => by
      obtain ⟨inner, hbranch, hinner⟩ := exists_spaced none branch
      obtain ⟨pairs, hrest, hnames⟩ := exists_spacedBranches rest
      refine ⟨inner ++ pairs, .cons hbranch hrest, ?_⟩
      rw [branchNeighbours, List.map_append, ← hnames]
      exact congrArg (· ++ branchNeighbours rest) hinner
end

/-! ### Nothing left to separate -/

/-- No field is directly behind a field or a payload marker, in branches at any depth neither. -/
inductive NoNeighbours : Pattern → Prop
  | intro {p : Pattern} (items : p.IsChain fun a b => ¬ (a.IsCapture ∧ b.isField = true))
      (branches : ∀ branches, .alternatives branches ∈ p → ∀ branch ∈ branches, NoNeighbours branch) :
      NoNeighbours p

theorem isCapture_separateItem {item : PatternItem} : (separateItem item).IsCapture ↔ item.IsCapture := by
  cases item <;> exact Iff.rfl

theorem isSome_captureText?_of_isCapture {item : PatternItem} (h : item.IsCapture) :
    (captureText? item).isSome := by
  cases item with
  | alternatives branches => exact absurd h id
  | value v =>
      cases v with
      | constant text => cases h
      | field name => rfl
      | payload alias? => rfl

/-- In a separated pattern no field is directly behind a capture, nor in front when a capture comes before
the pattern. -/
theorem isChain_separateItems (last? : Option String) (p : Pattern) :
    (separateItems last? p).IsChain (fun a b => ¬ (a.IsCapture ∧ b.isField = true)) ∧
      (last?.isSome → ∀ item ∈ (separateItems last? p).head?, ¬ item.isField = true) := by
  induction p generalizing last? with
  | nil => exact ⟨.nil, fun _ _ h => nomatch h⟩
  | cons item rest ih =>
      obtain ⟨hrest, hhead⟩ := ih (captureText? item)
      have hbehind : (separateItem item :: separateItems (captureText? item) rest).IsChain
          fun a b => ¬ (a.IsCapture ∧ b.isField = true) := by
        refine List.isChain_cons.mpr ⟨fun next hnext hboth => ?_, hrest⟩
        exact hhead (isSome_captureText?_of_isCapture (isCapture_separateItem.mp hboth.1)) next hnext hboth.2
      rw [separateItems]
      rcases gap_cases last? item with hgap | ⟨hgap, hfield⟩
      · rw [hgap]
        refine ⟨List.isChain_cons.mpr ⟨fun _ _ hboth => (nomatch hboth.1), hbehind⟩, ?_⟩
        intro _ next hnext
        obtain rfl := Option.some.inj hnext
        exact Bool.false_ne_true
      · rw [hgap]
        refine ⟨hbehind, fun hsome next hnext => ?_⟩
        obtain rfl := Option.some.inj hnext
        rw [isField_separateItem]
        exact hfield hsome

mutual
theorem noNeighbours_of_mem_separateItem : ∀ item : PatternItem, ∀ branches,
    separateItem item = .alternatives branches → ∀ branch ∈ branches, NoNeighbours branch
  | .value _, _, heq, _, _ => nomatch heq
  | .alternatives inner, branches, heq, branch, hbranch => by
      obtain rfl := PatternItem.alternatives.inj heq
      exact noNeighbours_of_mem_separateBranches inner branch hbranch

theorem noNeighbours_separateItems : ∀ (last? : Option String) (p : Pattern),
    NoNeighbours (separateItems last? p)
  | last?, p => by
      refine .intro (isChain_separateItems last? p).1 fun branches hmem branch hbranch => ?_
      rcases mem_separateItems hmem with heq | ⟨item, hitem, heq⟩
      · cases heq
      · exact noNeighbours_of_mem_separateItem item branches heq.symm branch hbranch

theorem noNeighbours_of_mem_separateBranches : ∀ branches : List Pattern,
    ∀ branch ∈ separateBranches branches, NoNeighbours branch
  | [], _, h => nomatch h
  | first :: rest, branch, h => by
      rcases List.mem_cons.mp h with rfl | h
      · exact noNeighbours_separateItems none first
      · exact noNeighbours_of_mem_separateBranches rest branch h
end

theorem NoNeighbours.chain {p : Pattern} (h : NoNeighbours p) :
    p.IsChain fun a b => ¬ (a.IsCapture ∧ b.isField = true) := by
  cases h with
  | intro items branches => exact items

theorem NoNeighbours.branch {p : Pattern} (h : NoNeighbours p) {branches : List Pattern}
    (hmem : .alternatives branches ∈ p) : ∀ branch ∈ branches, NoNeighbours branch := by
  cases h with
  | intro items hall => exact hall branches hmem

theorem NoNeighbours.tail {item : PatternItem} {rest : Pattern} (h : NoNeighbours (item :: rest)) :
    NoNeighbours rest :=
  .intro h.chain.tail fun _ hmem => h.branch (List.mem_cons_of_mem _ hmem)

/-- There is no gap where no field is directly behind a capture. -/
theorem gap_eq_nil {last? : Option String} {item : PatternItem}
    (h : last?.isSome → ¬ item.isField = true) : gap last? item = [] ∧ neighbour? last? item = none := by
  cases last? with
  | none => exact ⟨rfl, rfl⟩
  | some text =>
      have hfield := h rfl
      cases item with
      | alternatives branches => exact ⟨rfl, rfl⟩
      | value v =>
          cases v with
          | field name => exact absurd rfl hfield
          | constant text => exact ⟨rfl, rfl⟩
          | payload alias? => exact ⟨rfl, rfl⟩

theorem isCapture_of_isSome_captureText? {item : PatternItem} (h : (captureText? item).isSome) :
    item.IsCapture := by
  obtain ⟨text, htext⟩ := Option.isSome_iff_exists.mp h
  obtain ⟨v, rfl, hv, -⟩ := captureText?_eq_some htext
  exact hv

mutual
theorem separateItem_eq_self : ∀ item : PatternItem,
    (∀ branches, item = .alternatives branches → ∀ branch ∈ branches, NoNeighbours branch) →
      separateItem item = item ∧ itemNeighbours item = []
  | .value _, _ => ⟨rfl, rfl⟩
  | .alternatives branches, h => by
      obtain ⟨hsame, hnone⟩ := separateBranches_eq_self branches (h branches rfl)
      exact ⟨congrArg PatternItem.alternatives hsame, hnone⟩

/-- A pattern without neighbours is left as it is, and there is nothing to warn about. -/
theorem separateItems_eq_self : ∀ (last? : Option String) (p : Pattern), NoNeighbours p →
    (last?.isSome → ∀ item ∈ p.head?, ¬ item.isField = true) →
      separateItems last? p = p ∧ neighbours last? p = []
  | _, [], _, _ => ⟨rfl, rfl⟩
  | last?, item :: rest, h, hhead => by
      obtain ⟨hitem, hinner⟩ := separateItem_eq_self item fun branches heq =>
        h.branch (heq ▸ List.mem_cons_self)
      obtain ⟨hrest, hnone⟩ := separateItems_eq_self (captureText? item) rest h.tail fun hsome next hnext hfield =>
        (List.isChain_cons.mp h.chain).1 next hnext ⟨isCapture_of_isSome_captureText? hsome, hfield⟩
      obtain ⟨hgap, hneighbour⟩ := gap_eq_nil fun hsome => hhead hsome item rfl
      rw [separateItems, neighbours, hgap, hneighbour, hitem, hinner, hrest, hnone]
      exact ⟨rfl, rfl⟩

theorem separateBranches_eq_self : ∀ branches : List Pattern, (∀ branch ∈ branches, NoNeighbours branch) →
    separateBranches branches = branches ∧ branchNeighbours branches = []
  | [], _ => ⟨rfl, rfl⟩
  | branch :: rest, h => by
      obtain ⟨hbranch, hinner⟩ := separateItems_eq_self none branch (h branch List.mem_cons_self)
        fun hsome => nomatch hsome
      obtain ⟨hrest, hnone⟩ := separateBranches_eq_self rest fun b hb => h b (List.mem_cons_of_mem _ hb)
      rw [separateBranches, branchNeighbours, hbranch, hinner, hrest, hnone]
      exact ⟨rfl, rfl⟩
end

end Pattern

/-! ### The rules of a tree -/

/-- A rule, its pattern with spaces put in, and the neighbours that they are put between. -/
structure SpacedRule where
  rule : MatchRule
  pattern : Pattern
  pairs : List (Value × String)

namespace SpacedRule

/-- The rule with the pattern that has the spaces. -/
def edited (s : SpacedRule) : MatchRule := { s.rule with pattern := s.pattern }

/-- One warning for every space, about its neighbours. -/
def warnings (s : SpacedRule) : List Diagnostic :=
  s.pairs.map fun (capture, field) =>
    .about .consecutiveCaptures s.rule.source ("`" ++ capture.render ++ "` and `" ++ field ++ "`")

end SpacedRule

namespace Spacing

/-- What the pass makes of one rule. -/
theorem exists_spacedRule (rule : MatchRule) : ∃ s : SpacedRule, s.rule = rule ∧
    s.edited = onPattern Pattern.separateCaptures rule ∧ s.warnings = neighbourWarnings rule ∧
    Pattern.Spaced none rule.pattern s.pattern s.pairs ∧ s.pattern.NoNeighbours := by
  obtain ⟨pairs, hspaced, hnames⟩ := Pattern.exists_spaced none rule.pattern
  refine ⟨⟨rule, rule.pattern.separateCaptures, pairs⟩, rfl, rfl, ?_, hspaced,
    Pattern.noNeighbours_separateItems none rule.pattern⟩
  have hnames : Pattern.neighbours none rule.pattern = pairs.map Pattern.inWords := hnames
  rw [neighbourWarnings, hnames, List.map_map]
  rfl

theorem exists_spacedRules (rules : List MatchRule) : ∃ spaced : List SpacedRule,
    rules = spaced.map SpacedRule.rule ∧
    rules.map (onPattern Pattern.separateCaptures) = spaced.map SpacedRule.edited ∧
    rules.flatMap neighbourWarnings = spaced.flatMap SpacedRule.warnings ∧
    ∀ s ∈ spaced, Pattern.Spaced none s.rule.pattern s.pattern s.pairs ∧ s.pattern.NoNeighbours := by
  induction rules with
  | nil => exact ⟨[], rfl, rfl, rfl, fun _ h => nomatch h⟩
  | cons rule rest ih =>
      obtain ⟨s, rfl, hedited, hwarnings, hs⟩ := exists_spacedRule rule
      obtain ⟨spaced, hrules, hall, hreports, hspaced⟩ := ih
      refine ⟨s :: spaced, ?_, ?_, ?_, List.forall_mem_cons.mpr ⟨hs, hspaced⟩⟩
      · rw [List.map_cons, hrules]
      · rw [List.map_cons, List.map_cons, hedited, hall]
      · rw [List.flatMap_cons, List.flatMap_cons, hwarnings, hreports]

/-- A tree without neighbours is left as it is, without a warning. -/
theorem separateCaptures_eq_self {t : RuleTree} (h : ∀ rule ∈ t.rules, rule.pattern.NoNeighbours) :
    separateCaptures t = (t, []) := by
  have hsame : ∀ rule ∈ t.rules,
      rule.pattern.separateCaptures = rule.pattern ∧ Pattern.neighbours none rule.pattern = [] :=
    fun rule hrule => Pattern.separateItems_eq_self none rule.pattern (h rule hrule)
      fun hsome => nomatch hsome
  have htree := t.onPattern_eq_self fun rule hrule => (hsame rule hrule).1
  have hwarnings : t.rules.flatMap neighbourWarnings = [] := by
    refine List.flatMap_eq_nil_iff.mpr fun rule hrule => ?_
    rw [neighbourWarnings, (hsame rule hrule).2]
    rfl
  rw [separateCaptures, htree, hwarnings]

/-- **Neighbouring captures are separated, and nothing else changes.** The pass only changes patterns. Into
the pattern of each rule it puts single spaces, each between a capture and the field directly behind it, at
any depth, and it warns once about each, in the order of the rules and from left to right. No field is
directly behind a capture then, so that a second run changes nothing and warns about nothing. -/
theorem separates_neighbours (t : RuleTree) :
    (separateCaptures t).1.withoutPatterns = t.withoutPatterns ∧
    (∃ spaced : List SpacedRule,
      t.rules = spaced.map SpacedRule.rule ∧
      (separateCaptures t).1.rules = spaced.map SpacedRule.edited ∧
      (separateCaptures t).2 = spaced.flatMap SpacedRule.warnings ∧
      ∀ s ∈ spaced, Pattern.Spaced none s.rule.pattern s.pattern s.pairs ∧ s.pattern.NoNeighbours) ∧
    separateCaptures (separateCaptures t).1 = ((separateCaptures t).1, []) := by
  obtain ⟨spaced, hrules, hedited, hwarnings, hspaced⟩ := exists_spacedRules t.rules
  have hafter : (separateCaptures t).1.rules = spaced.map SpacedRule.edited :=
    (t.rules_mapRules _).trans hedited
  refine ⟨t.withoutPatterns_onPattern _, ⟨spaced, hrules, hafter, hwarnings, hspaced⟩, ?_⟩
  refine separateCaptures_eq_self fun rule hrule => ?_
  rw [hafter] at hrule
  obtain ⟨s, hs, rfl⟩ := List.mem_map.mp hrule
  exact (hspaced s hs).2

end Spacing

end LogRules

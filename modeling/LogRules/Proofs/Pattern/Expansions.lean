import LogRules.Proofs.Pattern.Anchored
import LogRules.Proofs.Tree.RuleEdits

/-! # Expansions of a pattern

An expansion of a pattern has one branch in the place of each group (`Pattern.expand`). Anchoring groups moves
constants into groups and gives branches a constant to end at. When neighbouring constants are joined
(`Pattern.Joined`) it keeps every expansion, but for a space behind each branch that ends in a field and that
neither the end of the pattern nor a constant follows (`Pattern.keepsExpansions_anchorGroups`). -/

namespace LogRules

namespace Pattern

/-! ### One branch for each group -/

/-- The pattern with one branch in the place of each group, and with what `behind` makes of the branch and
the items after the group put behind the branch. There is none when the choices are not one number of a
branch for each group. -/
def expandWith (behind : Pattern → Pattern → Pattern) : Pattern → List Nat → Option Pattern
  | [], [] => some []
  | [], _ :: _ => none
  | .value v :: rest, choices => (expandWith behind rest choices).map (.value v :: ·)
  | .alternatives _ :: _, [] => none
  | .alternatives branches :: rest, i :: choices =>
    branches[i]?.bind fun branch =>
      (expandWith behind rest choices).map (branch ++ behind branch rest ++ ·)

/-- The pattern with one branch in the place of each group. -/
def expand : Pattern → List Nat → Option Pattern := expandWith fun _ _ => []

/-- The pattern begins with a constant. -/
def beginsWithConstant : Pattern → Bool
  | .value (.constant _) :: _ => true
  | _ => false

/-- The last item of the pattern is a field. -/
def EndsWithField (p : Pattern) : Prop := ∃ front name, p = front ++ [.value (.field name)]

theorem endsWithField_iff {p : Pattern} : EndsWithField p ↔ endsInField p = true := by
  rw [endsInField, Option.any_eq_true]
  constructor
  · rintro ⟨front, name, rfl⟩
    exact ⟨_, List.getLast?_concat, rfl⟩
  · rintro ⟨item, hlast, hfield⟩
    obtain ⟨front, rfl⟩ := List.getLast?_eq_some_iff.mp hlast
    rcases item with (text | name | alias?) | branches
    · cases hfield
    · exact ⟨front, name, rfl⟩
    · cases hfield
    · cases hfield

instance (p : Pattern) : Decidable (EndsWithField p) := decidable_of_iff _ endsWithField_iff.symm

/-- A space behind a branch that ends in a field, when the group is not the last item and no constant
directly follows it. -/
def closingSpace (branch rest : Pattern) : Pattern :=
  if EndsWithField branch ∧ rest ≠ [] ∧ ¬ beginsWithConstant rest then [.value (.constant " ")] else []

/-- The numbers of branches of the groups, in their order. -/
def branchCounts (p : Pattern) : List Nat :=
  p.filterMap fun
    | .alternatives branches => some branches.length
    | .value _ => none

theorem closingSpace_of_not_endsInField {branch : Pattern} (h : ¬ endsInField branch = true) (rest : Pattern) :
    closingSpace branch rest = [] :=
  if_neg fun hclosing => h (endsWithField_iff.mp hclosing.1)

/-! ### Joining constants -/

/-- The second pattern is the first with each longest run of constants joined to one, and with all other
items as they are. -/
inductive Joined : Pattern → Pattern → Prop where
  | nil : Joined [] []
  | item {item : PatternItem} {p q : Pattern} (hitem : ∀ text, item ≠ .value (.constant text))
      (h : Joined p q) : Joined (item :: p) (item :: q)
  | run {texts : List String} {p q : Pattern} (htexts : texts ≠ []) (hend : ¬ beginsWithConstant p)
      (h : Joined p q) :
      Joined (texts.map (fun text => .value (.constant text)) ++ p) (.value (.constant (String.join texts)) :: q)

theorem Joined.beginsWithConstant_eq {p q : Pattern} (h : Joined p q) :
    beginsWithConstant q = beginsWithConstant p := by
  cases h with
  | nil => rfl
  | item hitem h =>
      next item p q =>
        rcases item with (text | name | alias?) | branches
        · exact absurd rfl (hitem text)
        all_goals rfl
  | @run texts p q htexts hend h =>
      cases texts with
      | nil => exact absurd rfl htexts
      | cons text rest => rfl

theorem consMerged_of_not_beginsWithConstant (item : PatternItem) {q : Pattern} (h : ¬ beginsWithConstant q) :
    consMerged item q = item :: q := by
  rcases consMerged_cases item q with heq | ⟨a, b, behind, -, rfl, -⟩
  · exact heq
  · exact absurd rfl h

/-- Constants in front of a pattern that does not begin with one become one constant. -/
theorem foldr_consMerged_run {texts : List String} (htexts : texts ≠ []) {q : Pattern}
    (hend : ¬ beginsWithConstant q) :
    (texts.map (fun text => PatternItem.value (.constant text))).foldr consMerged q =
      .value (.constant (String.join texts)) :: q := by
  induction texts with
  | nil => exact absurd rfl htexts
  | cons text rest ih =>
      rw [List.map_cons, List.foldr_cons]
      cases rest with
      | nil =>
          rw [List.map_nil, List.foldr_nil, consMerged_of_not_beginsWithConstant _ hend]
          simp [String.join]
      | cons next rest =>
          rw [ih (List.cons_ne_nil _ _)]
          simp [consMerged, String.join_cons]

/-- Merging is the only way to join constants. -/
theorem Joined.eq_mergeConstants {p q : Pattern} (h : Joined p q) : q = mergeConstants p := by
  induction h with
  | nil => rfl
  | @item item p q hitem h ih =>
      rcases consMerged_cases item (mergeConstants p) with heq | ⟨text, -, -, rfl, -, -⟩
      · rw [ih]
        exact heq.symm
      · exact absurd rfl (hitem text)
  | @run texts p q htexts hend h ih =>
      rw [mergeConstants, List.foldr_append, ← mergeConstants, ← ih]
      exact (foldr_consMerged_run htexts (h.beginsWithConstant_eq ▸ hend)).symm

/-- A constant in front is a run of its own, or joins the run that follows. -/
theorem Joined.cons {p q : Pattern} (h : Joined p q) (item : PatternItem) :
    Joined (item :: p) (consMerged item q) := by
  rcases item with (text | name | alias?) | branches
  · by_cases hp : beginsWithConstant p = true
    · cases h with
      | nil => cases hp
      | @item next p q hnext h =>
          rcases next with (text | name | alias?) | branches
          · exact absurd rfl (hnext text)
          all_goals cases hp
      | @run texts p q htexts hend h =>
          have hrun := Joined.run (List.cons_ne_nil text texts) hend h
          rwa [String.join_cons] at hrun
    · rw [consMerged_of_not_beginsWithConstant _ (h.beginsWithConstant_eq ▸ hp)]
      have hrun := Joined.run (List.cons_ne_nil text []) hp h
      rwa [String.join_cons, String.join_nil, String.append_empty] at hrun
  all_goals exact .item (fun _ heq => by cases heq) h

theorem joined_iff {p q : Pattern} : Joined p q ↔ q = mergeConstants p := by
  refine ⟨Joined.eq_mergeConstants, ?_⟩
  rintro rfl
  induction p with
  | nil => exact .nil
  | cons item rest ih => exact ih.cons item

theorem mergeConstants_append (p q : Pattern) :
    mergeConstants (p ++ q) = p.foldr consMerged (mergeConstants q) := List.foldr_append

/-- Constants that are merged in front of a pattern may be merged before. -/
theorem foldr_consMerged_consMerged (item : PatternItem) (p q : Pattern) :
    (consMerged item p).foldr consMerged q = consMerged item (p.foldr consMerged q) := by
  rcases consMerged_cases item p with heq | ⟨a, b, rest, rfl, rfl, heq⟩
  · rw [heq, List.foldr_cons]
  · rw [heq, List.foldr_cons, List.foldr_cons]
    -- all that matters of the rest is whether it begins with a constant
    rcases hrest : rest.foldr consMerged q with _ | ⟨next, others⟩
    · rfl
    · rcases next with (text | name | alias?) | branches
      · simp [consMerged, String.append_assoc]
      all_goals rfl

theorem mergeConstants_mergeConstants_append (p q : Pattern) :
    mergeConstants (mergeConstants p ++ q) = mergeConstants (p ++ q) := by
  rw [mergeConstants_append, mergeConstants_append]
  induction p with
  | nil => rfl
  | cons item rest ih =>
      have hmerge : mergeConstants (item :: rest) = consMerged item (mergeConstants rest) := rfl
      rw [hmerge, foldr_consMerged_consMerged, ih, List.foldr_cons]

/-- A branch with a constant merged to its end stands for the branch and the constant. -/
theorem mergeConstants_appendMerged_append (branch q : Pattern) (v : Value) :
    mergeConstants (appendMerged branch v ++ q) = mergeConstants (branch ++ .value v :: q) := by
  rw [appendMerged, mergeConstants_mergeConstants_append, List.append_assoc, List.singleton_append]

/-- What follows may be changed as long as it merges to the same. -/
theorem map_mergeConstants_append {p : Pattern} {q? q'? : Option Pattern}
    (h : q?.map mergeConstants = q'?.map mergeConstants) :
    (q?.map (p ++ ·)).map mergeConstants = (q'?.map (p ++ ·)).map mergeConstants := by
  cases q? with
  | none =>
      cases q'? with
      | none => rfl
      | some q' => cases h
  | some q =>
      cases q'? with
      | none => cases h
      | some q' =>
          have hmerged : mergeConstants q = mergeConstants q' := Option.some.inj h
          simp [mergeConstants_append, hmerged]

/-! ### Anchoring groups -/

theorem expandWith_group (behind : Pattern → Pattern → Pattern) (branches : List Pattern) (rest : Pattern)
    (i : Nat) (choices : List Nat) :
    expandWith behind (.alternatives branches :: rest) (i :: choices) =
      branches[i]?.bind fun branch =>
        (expandWith behind rest choices).map (branch ++ behind branch rest ++ ·) := rfl

/-- A group that comes with other branches has the same expansions when each branch, with what is put behind
it, merges to the same. -/
theorem map_mergeConstants_expand_group {branches : List Pattern} {f : Pattern → Pattern} {rest rest' : Pattern}
    (hgroup : ∀ branch ∈ branches, ∀ choices,
      ((expand rest' choices).map (f branch ++ ·)).map mergeConstants =
        ((expandWith closingSpace rest choices).map (branch ++ closingSpace branch rest ++ ·)).map
          mergeConstants) (choices : List Nat) :
    (expand (.alternatives (branches.map f) :: rest') choices).map mergeConstants =
      (expandWith closingSpace (.alternatives branches :: rest) choices).map mergeConstants := by
  cases choices with
  | nil => rfl
  | cons i choices =>
      rw [expand, expandWith_group, expandWith_group, List.getElem?_map]
      cases hbranch : branches[i]? with
      | none => rfl
      | some branch =>
          have hsame := hgroup branch (List.mem_of_getElem? hbranch) choices
          simpa [expand] using hsame

section Groups

variable {branches : List Pattern} {rest rest' : Pattern}
  (hrest : ∀ choices, (expand rest' choices).map mergeConstants =
    (expandWith closingSpace rest choices).map mergeConstants)

include hrest

/-- A group whose branches stay, when no space is put behind any of them. -/
theorem map_mergeConstants_expand_same (hclosing : ∀ branch ∈ branches, closingSpace branch rest = [])
    (choices : List Nat) :
    (expand (.alternatives branches :: rest') choices).map mergeConstants =
      (expandWith closingSpace (.alternatives branches :: rest) choices).map mergeConstants := by
  have hbranches : ∀ branch ∈ branches, ∀ choices,
      ((expand rest' choices).map (id branch ++ ·)).map mergeConstants =
        ((expandWith closingSpace rest choices).map (branch ++ closingSpace branch rest ++ ·)).map
          mergeConstants := by
    intro branch hbranch choices
    rw [hclosing branch hbranch, List.append_nil]
    exact map_mergeConstants_append (hrest choices)
  have hgroup := map_mergeConstants_expand_group hbranches choices
  rwa [List.map_id] at hgroup

/-- A group whose branches take the constant behind it. -/
theorem map_mergeConstants_expand_constant (text : String) (choices : List Nat) :
    (expand (.alternatives (branches.map (appendMerged · (.constant text))) :: rest') choices).map mergeConstants =
      (expandWith closingSpace (.alternatives branches :: .value (.constant text) :: rest) choices).map
        mergeConstants := by
  refine map_mergeConstants_expand_group (fun branch _ choices => ?_) choices
  have hclosing : closingSpace branch (.value (.constant text) :: rest) = [] := by
    simp [closingSpace, beginsWithConstant]
  have hmerged := map_mergeConstants_append (p := branch ++ [.value (.constant text)]) (hrest choices)
  simp only [Option.map_map] at hmerged
  rw [hclosing, expandWith]
  simp only [Option.map_map]
  calc (expand rest' choices).map (mergeConstants ∘ (appendMerged branch (.constant text) ++ ·))
      = (expand rest' choices).map (mergeConstants ∘ (branch ++ [.value (.constant text)] ++ ·)) := by
        refine congrArg (Option.map · _) (funext fun q => ?_)
        simp [mergeConstants_appendMerged_append]
    _ = (expandWith closingSpace rest choices).map
          (mergeConstants ∘ (branch ++ [.value (.constant text)] ++ ·)) := hmerged
    _ = _ := by
        refine congrArg (Option.map · _) (funext fun q => ?_)
        simp

/-- A group whose branches that end in a field get a space. -/
theorem map_mergeConstants_expand_space (hne : rest ≠ []) (hbehind : ¬ beginsWithConstant rest)
    (choices : List Nat) :
    (expand (.alternatives (branches.map fun branch =>
        if endsInField branch then appendMerged branch (.constant " ") else branch) :: rest') choices).map
        mergeConstants =
      (expandWith closingSpace (.alternatives branches :: rest) choices).map mergeConstants := by
  refine map_mergeConstants_expand_group (fun branch _ choices => ?_) choices
  have hmerged := map_mergeConstants_append (p := branch ++ closingSpace branch rest) (hrest choices)
  rw [← hmerged]
  simp only [Option.map_map]
  refine congrArg (Option.map · _) (funext fun q => ?_)
  by_cases hfield : endsInField branch = true
  · have hclosing : closingSpace branch rest = [.value (.constant " ")] :=
      if_pos ⟨endsWithField_iff.mpr hfield, hne, hbehind⟩
    simp [hclosing, hfield, mergeConstants_appendMerged_append]
  · simp [closingSpace_of_not_endsInField hfield, hfield]

end Groups

/-- **Anchoring keeps every expansion** up to the merging of constants, but for the closing spaces. -/
theorem expand_anchorGroups (p : Pattern) (choices : List Nat) :
    (expand (anchorGroups p) choices).map mergeConstants =
      (expandWith closingSpace p choices).map mergeConstants := by
  fun_induction anchorGroups p generalizing choices with
  | case1 branches next rest hends ih =>
      -- no branch ends in a field, so the group stays and no space is put behind a branch
      have hnone : ∀ branch ∈ branches, ¬ endsInField branch = true := by simpa using hends
      exact map_mergeConstants_expand_same ih
        (fun branch hbranch => closingSpace_of_not_endsInField (hnone branch hbranch) _) choices
  | case2 branches rest hends text ih => exact map_mergeConstants_expand_constant ih text choices
  | case3 branches next rest hends anchored hnext ih =>
      have hbehind : ¬ beginsWithConstant (next :: rest) := by
        rcases next with (text | name | alias?) | inner
        · exact absurd rfl (hnext text)
        all_goals exact Bool.false_ne_true
      exact map_mergeConstants_expand_space ih (List.cons_ne_nil _ _) hbehind choices
  | case4 item rest hitem ih =>
      cases item with
      | value v =>
          have hrest := map_mergeConstants_append (p := [.value v]) (ih choices)
          exact hrest
      | alternatives branches =>
          cases rest with
          | nil =>
              -- nothing follows the last group
              exact map_mergeConstants_expand_same ih (fun branch _ => by simp [closingSpace]) choices
          | cons next rest => exact (hitem branches next rest rfl rfl).elim
  | case5 => cases choices <;> rfl

/-- The branch that ends in a field gets a space, the other branch does not. -/
example :
    let p : Pattern := [.alternatives [[.value (.field "a")], [.value (.constant "b")]], .value (.field "c")]
    expand (anchorGroups p) [0] =
        some [.value (.field "a"), .value (.constant " "), .value (.field "c")] ∧
      expand (anchorGroups p) [1] = some [.value (.constant "b"), .value (.field "c")] :=
  ⟨rfl, rfl⟩

theorem branchCounts_anchorGroups (p : Pattern) : branchCounts (anchorGroups p) = branchCounts p := by
  unfold branchCounts
  fun_induction anchorGroups p with
  | case1 branches next rest hends ih => simpa using ih
  | case2 branches rest hends text ih => simpa using ih
  | case3 branches next rest hends anchored hnext ih =>
      rw [List.filterMap_cons, List.filterMap_cons, ih]
      simp [anchored]
  | case4 item rest hitem ih => rw [List.filterMap_cons, List.filterMap_cons, ih]
  | case5 => rfl

/-- A pattern in which no group that something follows has a branch that ends in a field is left as it is. -/
theorem anchorGroups_eq_self {p : Pattern} (h : p.IsChain fun a _ => ∀ branches, a = .alternatives branches →
    ∀ branch ∈ branches, ¬ endsInField branch = true) : anchorGroups p = p := by
  fun_induction anchorGroups p with
  | case1 branches next rest hends ih => rw [ih h.tail]
  | case2 branches rest hends text ih =>
      have hnone := (List.isChain_cons_cons.mp h).1 branches rfl
      exact absurd (by simpa using hnone) hends
  | case3 branches next rest hends anchored hnext ih =>
      have hnone := (List.isChain_cons_cons.mp h).1 branches rfl
      exact absurd (by simpa using hnone) hends
  | case4 item rest hitem ih => rw [ih h.tail]
  | case5 => rfl

/-- Patterns that merge to the same are the same when neighbouring constants are joined. -/
theorem rel_joined {p? q? : Option Pattern} (h : p?.map mergeConstants = q?.map mergeConstants) :
    Option.Rel (fun p q => ∃ joined, Joined p joined ∧ Joined q joined) p? q? := by
  cases p? with
  | none =>
      cases q? with
      | none => exact .none
      | some q => cases h
  | some p =>
      cases q? with
      | none => cases h
      | some q => exact .some ⟨_, joined_iff.mpr rfl, joined_iff.mpr (Option.some.inj h)⟩

/-- What anchoring groups leaves of a pattern. -/
structure KeepsExpansions (p q : Pattern) : Prop where
  /-- The groups stay, in their order and with as many branches. -/
  groups : branchCounts q = branchCounts p
  /-- Each expansion is the one with the closing spaces when neighbouring constants are joined. -/
  expansions : ∀ choices, Option.Rel (fun after before => ∃ joined, Joined after joined ∧ Joined before joined)
    (expand q choices) (expandWith closingSpace p choices)
  /-- A group that something follows has no branch that ends in a field. -/
  closed : q.IsChain fun a _ => ∀ branches, a = .alternatives branches →
    ∀ branch ∈ branches, ¬ EndsWithField branch

theorem keepsExpansions_anchorGroups (p : Pattern) : KeepsExpansions p (anchorGroups p) where
  groups := branchCounts_anchorGroups p
  expansions choices := rel_joined (expand_anchorGroups p choices)
  closed := (closed_anchorGroups p).imp fun _ _ hclosed branches heq branch hbranch hends =>
    hclosed branches heq branch hbranch (endsWithField_iff.mp hends)

end Pattern

namespace Spacing

/-- **Anchoring groups keeps every expansion.** The pass only changes patterns. In the pattern of each rule it
keeps the groups, and every choice of branches gives what it gave before when neighbouring constants are joined,
with a single space behind each branch that ended in a field and that neither the end of the pattern nor a
constant followed. No branch of a group that something follows ends in a field then, and a second run changes
nothing. -/
theorem anchorGroups_keeps_expansions (t : RuleTree) :
    (anchorGroups t).withoutPatterns = t.withoutPatterns ∧
    List.Forall₂ (fun rule rule' => rule' = { rule with pattern := rule'.pattern } ∧
      Pattern.KeepsExpansions rule.pattern rule'.pattern) t.rules (anchorGroups t).rules ∧
    anchorGroups (anchorGroups t) = anchorGroups t := by
  have hrules : (anchorGroups t).rules = t.rules.map (onPattern Pattern.anchorGroups) := t.rules_mapRules _
  refine ⟨t.withoutPatterns_onPattern _, ?_, ?_⟩
  · rw [hrules, List.forall₂_map_right_iff, List.forall₂_same]
    exact fun rule _ => ⟨rfl, Pattern.keepsExpansions_anchorGroups rule.pattern⟩
  · refine RuleTree.onPattern_eq_self _ fun rule hrule => ?_
    rw [hrules] at hrule
    obtain ⟨old, -, rfl⟩ := List.mem_map.mp hrule
    exact Pattern.anchorGroups_eq_self (Pattern.closed_anchorGroups old.pattern)

end Spacing

end LogRules

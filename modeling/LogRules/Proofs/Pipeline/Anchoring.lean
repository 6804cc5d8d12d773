import LogRules.Proofs.Pattern.Anchored
import LogRules.Proofs.Pipeline.Executable

/-! # Right anchors in finished trees

The rules of a finished tree are those that the passes before sharing end with, so a condition that the
passes establish holds of all of them, in the root and in the bindings (`Parser.forall_rules_of_build`). Every
field of a finished pattern has a right anchor, unless a field stands directly in front of a group in it; and
there is no such field unless the device has one (`Parser.anchored_of_build`). -/

namespace LogRules

/-! ### Rules of a tree -/

namespace RuleTree

variable {R : MatchRule → Prop} {t : RuleTree}

theorem Fits.forall_rules (h : t.Fits R) (ht : t.IsUnshared) : ∀ rule ∈ t.rules, R rule := by
  intro rule hrule
  obtain ⟨onSuccess, hn⟩ := mem_rules.mp hrule
  have hroot : .matchRule rule onSuccess ∈ t.root.preorder := by
    rw [nodes, ht.bindings] at hn
    simpa [Table.values, Table.empty] using hn
  exact h _ hroot

theorem fits_of_forall_rules (h : t.Fits fun _ => True) (hrules : ∀ rule ∈ t.rules, R rule) :
    t.Fits R := by
  intro n hn
  have hfits := h n hn
  cases n with
  | matchRule rule onSuccess => exact hrules rule (mem_rules.mpr ⟨onSuccess, mem_nodes_of_root hn⟩)
  | _ => exact hfits

end RuleTree

namespace Parser

/-- Passes before sharing that establish a condition on rules establish it for the finished tree. -/
theorem forall_rules_of_build {config : Config} {d : Device} {parser : Parser} {R R' : MatchRule → Prop}
    (hbuild : build config d = .ok parser) (htakes : (Pipeline.beforeSharing config).Takes R R')
    (hassembled : (assemble d).1.Fits R) : ∀ rule ∈ parser.tree.rules, R' rule := by
  obtain ⟨t, more, hbefore, -, hunshared, htree, -, -⟩ := exists_run_of_build hbuild
  have hfits : t.Fits R' := htakes config _ t more hbefore hassembled
  have hfolded : (Calls.foldConstants t).Fits R' :=
    Pass.takes_evalConstantFunctions config t _ [] rfl hfits
  rw [htree]
  exact (RuleTree.forall_extractShared config (hfolded.forall_rules hunshared)
    (A := fun _ => True) fun _ _ => trivial).1

end Parser

/-! ### Edits of rules -/

/-- The pattern is regular, and its fields have right anchors unless one stands in front of a group. -/
structure MatchRule.IsAnchored (rule : MatchRule) : Prop where
  regular : rule.pattern.Regular
  anchored_iff : rule.pattern.Anchored ↔ rule.pattern.GroupsApart

/-- No field of the pattern stands directly in front of a group. -/
def MatchRule.HasGroupsApart (rule : MatchRule) : Prop := rule.pattern.GroupsApart

theorem Spacing.isAnchored_anchorGroups {rule : MatchRule} (h : rule.IsReady) :
    (onPattern Pattern.anchorGroups rule).IsAnchored where
  regular := (isReady_anchorGroups h).regular
  anchored_iff := (Pattern.anchored_anchorGroups_iff h.regular h.capturesApart).trans
    (Pattern.groupsApart_anchorGroups rule.pattern).symm

theorem Spacing.hasGroupsApart_stripMessageRule {rule : MatchRule} (h : rule.HasGroupsApart) :
    (stripMessageRule rule).HasGroupsApart := by
  unfold stripMessageRule
  split
  · exact (Pattern.groupsApart_stripLeadingSpace rule.pattern).mpr h
  · exact h

theorem Payload.hasGroupsApart_recordField {rule : MatchRule} (h : rule.HasGroupsApart) :
    (recordField rule).HasGroupsApart := by
  unfold recordField
  split <;> exact h

theorem Spacing.hasGroupsApart_separateCaptures {rule : MatchRule} (h : rule.HasGroupsApart) :
    (onPattern Pattern.separateCaptures rule).HasGroupsApart :=
  (Pattern.groupsApart_separateItems none rule.pattern).mpr h

theorem Spacing.hasGroupsApart_anchorGroups {rule : MatchRule} (h : rule.HasGroupsApart) :
    (onPattern Pattern.anchorGroups rule).HasGroupsApart :=
  (Pattern.groupsApart_anchorGroups rule.pattern).mpr h

namespace Pipeline

theorem takes_isAnchored (config : Config) :
    (beforeSharing config).Takes MatchRule.IsRead MatchRule.IsAnchored :=
  takes_edits config takes_preChecks (fun _ => Spacing.isChecked_stripMessageRule)
    (fun _ => Payload.isChecked_recordField) (fun _ => Spacing.isReady_separateCaptures)
    (fun _ => Spacing.isAnchored_anchorGroups)

/-- No pass puts a field in front of a group. -/
theorem takes_hasGroupsApart (config : Config) :
    (beforeSharing config).Takes MatchRule.HasGroupsApart MatchRule.HasGroupsApart := by
  have hchecks : Stage.Takes [.payloadInMessages, .payloadPosition, .payloadOverlap, .functionArity]
      MatchRule.HasGroupsApart MatchRule.HasGroupsApart := by
    refine .same fun pass hpass => ?_
    simp only [List.mem_cons, List.not_mem_nil, or_false] at hpass
    rcases hpass with rfl | rfl | rfl | rfl <;> exact Pass.takes_check _ _
  exact takes_edits config hchecks (fun _ => Spacing.hasGroupsApart_stripMessageRule)
    (fun _ => Payload.hasGroupsApart_recordField) (fun _ => Spacing.hasGroupsApart_separateCaptures)
    (fun _ => Spacing.hasGroupsApart_anchorGroups)

end Pipeline

namespace Parser

/-- **Every field has a right anchor** in the patterns of a finished tree, but in those with a field directly
in front of a group; and a device without such a field ends in a tree of anchored patterns. -/
theorem anchored_of_build (config : Config) (d : Device) (parser : Parser)
    (hbuild : build config d = .ok parser) :
    (∀ rule ∈ parser.tree.rules,
      rule.pattern.Regular ∧ (rule.pattern.Anchored ↔ rule.pattern.GroupsApart)) ∧
    ((∀ rule ∈ (assemble d).1.rules, rule.pattern.GroupsApart) →
      ∀ rule ∈ parser.tree.rules, rule.pattern.Anchored) := by
  have hread : (assemble d).1.Fits MatchRule.IsRead :=
    everywhere_assemble (fun rule hpattern hinput => ⟨hpattern, hinput⟩)
      (fun effect heffect => heffect.isNoLookup.looksUpIn _) d
  have hrules := forall_rules_of_build hbuild (Pipeline.takes_isAnchored config) hread
  refine ⟨fun rule hrule => ⟨(hrules rule hrule).regular, (hrules rule hrule).anchored_iff⟩, ?_⟩
  intro hapart rule hrule
  have hassembled : (assemble d).1.Fits MatchRule.HasGroupsApart :=
    RuleTree.fits_of_forall_rules (everywhere_assemble (fun _ _ _ => trivial)
      (fun effect heffect => heffect.isNoLookup.looksUpIn _) d) hapart
  have hgroups := forall_rules_of_build hbuild (Pipeline.takes_hasGroupsApart config) hassembled
  exact (hrules rule hrule).anchored_iff.mpr (hgroups rule hrule)

/-- A message record with this content behind a header that leaves the rest of the message to it. -/
def deviceOf (content : String) : Device :=
  { headers := [{ id1 := "h", id2 := "h", content := "<messageid>: <!payload>" }]
    messages := [{ id1 := "m", id2 := "m", content }] }

/-- Two captures side by side, and a group with a branch that ends in one. -/
theorem anchored_of_build_groupBetween : ∃ parser,
    build {} (deviceOf "<a><b>, {x <c>|y}.") = .ok parser ∧
      ∀ rule ∈ parser.tree.rules, rule.pattern.Anchored := by
  have hsome : (build {} (deviceOf "<a><b>, {x <c>|y}.")).toOption.isSome = true := by decide +kernel
  obtain ⟨parser, hparser⟩ := Option.isSome_iff_exists.mp hsome
  have hbuild := eq_ok_of_toOption hparser
  exact ⟨parser, hbuild, (anchored_of_build {} _ parser hbuild).2 (by decide +kernel)⟩

/-- The field in front of the group has no anchor. -/
theorem not_forall_anchored_of_build : ¬ ∀ (config : Config) (d : Device) (parser : Parser),
    build config d = .ok parser → ∀ rule ∈ parser.tree.rules, rule.pattern.Anchored := by
  intro h
  have hmeets : (build {} (deviceOf "<a>{ x| y}")).toOption.any (fun parser =>
      parser.tree.rules.any fun rule => !decide rule.pattern.GroupsApart) = true := by decide +kernel
  obtain ⟨parser, hparser, hany⟩ := (Option.any_eq_true _ _).mp hmeets
  obtain ⟨rule, hrule, hnot⟩ := List.any_eq_true.mp hany
  have hanchored := h {} _ parser (eq_ok_of_toOption hparser) rule hrule
  have hapart : rule.pattern.GroupsApart := (Pattern.fieldsAnchored_iff.mp hanchored.items).2
  rw [decide_eq_true hapart] at hnot
  cases hnot

end Parser

end LogRules

import LogRules.Proofs.Matching.Accepted
import LogRules.Proofs.Pipeline.Assembled
import LogRules.Proofs.Processing.Failures

/-! # What passes do for the rules

A condition on match rules is followed through the passes (`Pass.Takes`). Checks of payload markers turn
well formed patterns into regular ones with an alias that is captured once, and captures are taken apart
later on; no other pass takes any of this away. Along the way every look-up names a value map of the tree
and every message id points to a node (`RuleTree.Fits`). -/

namespace LogRules

/-- A look-up names one of the value maps. -/
def Effect.LooksUpIn (maps : List String) : Effect → Prop
  | .lookup _ name _ => name ∈ maps
  | _ => True

theorem Effect.IsNoLookup.looksUpIn {effect : Effect} (h : effect.IsNoLookup) (maps : List String) :
    effect.LooksUpIn maps := by
  cases effect with
  | lookup target map key => exact absurd rfl (h target map key)
  | _ => trivial

/-- Rules satisfy the condition, look-ups name value maps of the tree, and message ids point to nodes
that are there. -/
def RuleTree.Fits (R : MatchRule → Prop) (t : RuleTree) : Prop :=
  t.root.Everywhere (Node.Fits R (Effect.LooksUpIn t.valueMaps.keys))

/-- Rules that satisfy the first condition satisfy the second after the pass. -/
def Pass.Takes (pass : Pass) (R R' : MatchRule → Prop) : Prop :=
  ∀ config t t' reports, pass.apply config t = .ok (t', reports) → t.Fits R → t'.Fits R'

/-- Rules that satisfy the first condition satisfy the second after the passes of a stage. -/
def Stage.Takes (passes : List Pass) (R R' : MatchRule → Prop) : Prop :=
  ∀ stage config t t' reports, runPasses stage config t passes = .ok (t', reports) →
    t.Fits R → t'.Fits R'

/-- Rules that satisfy the first condition satisfy the second after the stages. -/
def Pipeline.Takes (stages : Pipeline) (R R' : MatchRule → Prop) : Prop :=
  ∀ config t t' reports, Pipeline.run config t stages = .ok (t', reports) → t.Fits R → t'.Fits R'

variable {R R' R'' : MatchRule → Prop}

/-! ### One pass after the other -/

theorem Stage.Takes.nil : Takes [] R R := by
  intro stage config t t' reports h ht
  cases h
  exact ht

theorem Stage.Takes.cons {pass : Pass} {rest : List Pass} (hpass : pass.Takes R R')
    (hrest : Takes rest R' R'') : Takes (pass :: rest) R R'' := by
  intro stage config t t' reports h ht
  obtain ⟨t₁, first, others, hfirst, hothers, -⟩ := runPasses_cons_eq_ok.mp h
  exact hrest stage config t₁ t' others hothers (hpass config t t₁ first hfirst ht)

/-- Passes that change nothing about the condition. -/
theorem Stage.Takes.same {passes : List Pass} (h : ∀ pass ∈ passes, pass.Takes R R) :
    Takes passes R R := by
  induction passes with
  | nil => exact .nil
  | cons pass rest ih =>
      have hrest : Takes rest R R := ih fun p hp => h p (List.mem_cons_of_mem _ hp)
      exact .cons (h pass List.mem_cons_self) hrest

theorem Pipeline.Takes.nil : Takes [] R R := by
  intro config t t' reports h ht
  cases h
  exact ht

theorem Pipeline.Takes.cons {stage : Stage} {rest : Pipeline} (hstage : Stage.Takes stage.passes R R')
    (hrest : Takes rest R' R'') : Takes (stage :: rest) R R'' := by
  intro config t t' reports h ht
  obtain ⟨t₁, first, others, hfirst, hothers, -⟩ := run_cons_eq_ok.mp h
  exact hrest config t₁ t' others hothers (hstage stage.name config t t₁ first hfirst ht)

/-! ### Kinds of passes -/

namespace Pass

theorem takes_check (name : String) (f : RuleTree → Except PassError Unit) :
    (check name f).Takes R R := by
  intro config t t' reports h ht
  obtain ⟨_, -, heq⟩ := map_eq_ok.mp h
  cases heq
  exact ht

/-- A check of all rules adds what it finds out about them. -/
theorem takes_checkRules (name : String) {f : MatchRule → Except PassError Unit}
    (hf : ∀ rule, f rule = .ok () → R rule → R' rule) :
    (check name fun t => t.rules.forM f).Takes R R' := by
  intro config t t' reports h ht
  obtain ⟨_, hcheck, heq⟩ := map_eq_ok.mp h
  cases heq
  intro n hn
  have hfits := ht n hn
  cases n with
  | matchRule rule onSuccess =>
      have hrule : rule ∈ t.rules :=
        List.mem_filterMap.mpr ⟨_, RuleTree.mem_nodes_of_root hn, rfl⟩
      exact hf rule (forM_eq_ok.mp hcheck rule hrule) hfits
  | _ => exact hfits

theorem takes_mapRules (name : String) {f : MatchRule → MatchRule} (hf : ∀ rule, R rule → R' (f rule)) :
    (change name (RuleTree.mapNodes (Node.mapRules f))).Takes R R' := by
  intro config t t' reports h ht
  cases h
  exact Node.everywhere_mapRules hf ht

theorem takes_mapActions (name : String) {f : Action → Node} (hf : ∀ a : Action, a.BecomesNode (f a)) :
    (change name (RuleTree.mapNodes (Node.mapActions f))).Takes R R := by
  intro config t t' reports h ht
  cases h
  refine Node.everywhere_mapActions (fun a ha => ?_) ht
  rcases hf a with heq | heq | ⟨b, heq, hb⟩
  · exact .inl heq
  · exact .inr ⟨a, heq, ha⟩
  · exact .inr ⟨b, heq, hb.looksUpIn _⟩

/-- A pass on effects that makes look-ups of value maps of the tree only. -/
theorem takes_tryEffects (name : String) {f : RuleTree → Action → Except PassError Effect}
    (hf : ∀ t a effect, f t a = .ok effect →
      effect = a.effect ∨ effect.LooksUpIn t.valueMaps.keys) :
    (tryChange name fun t => t.tryNodes (Node.tryEffects (f t))).Takes R R := by
  intro config t t' reports h ht
  obtain ⟨t₁, ht₁, heq⟩ := map_eq_ok.mp h
  cases heq
  obtain ⟨root, hroot, ht₁⟩ := bind_eq_ok.mp ht₁
  obtain ⟨bindings, -, ht₁⟩ := bind_eq_ok.mp ht₁
  cases ht₁
  refine Node.everywhere_tryEffects (fun a effect heffect ha => ?_) hroot ht
  rcases hf t a effect heffect with rfl | hlookup
  · exact ha
  · exact hlookup

end Pass

/-! ### Conditions on rules -/

namespace MatchRule

/-- The pattern of the rule was read, and the rule is one of a header or of a message. -/
structure IsRead (rule : MatchRule) : Prop where
  pattern : rule.pattern.WellFormed
  input : rule.input = messageInput ∨ rule.input = payloadInput

/-- The rule was read, and message patterns have no payload marker. -/
structure HasMarkerInHeader (rule : MatchRule) : Prop extends rule.IsRead where
  noMarker : rule.input = payloadInput → ¬ rule.pattern.containsPayload = true

/-- The pattern is regular. -/
def IsRegular (rule : MatchRule) : Prop := rule.pattern.Regular

/-- The pattern is regular and captures the alias of its marker once. -/
structure IsChecked (rule : MatchRule) : Prop where
  regular : rule.pattern.Regular
  aliasOnce : rule.pattern.AliasOnce

/-- No captures are side by side in the pattern either. -/
structure IsReady (rule : MatchRule) : Prop extends rule.IsChecked where
  capturesApart : rule.pattern.CapturesApart

theorem IsReady.hasMatcher {rule : MatchRule} (h : rule.IsReady) : rule.pattern.HasMatcher :=
  Matching.ofPattern_fails_only h.regular h.aliasOnce h.capturesApart

end MatchRule

namespace Payload

variable {rule : MatchRule}

theorem hasMarkerInHeader_of_check (hcheck : checkMessageRule rule = .ok ()) (h : rule.IsRead) :
    rule.HasMarkerInHeader := by
  refine ⟨h, fun hinput hcontains => ?_⟩
  rw [checkMessageRule, if_pos (by simp [hinput, hcontains])] at hcheck
  cases hcheck

theorem regular_of_check (hcheck : checkHeaderRule rule = .ok ()) (h : rule.HasMarkerInHeader) :
    rule.IsRegular := by
  refine Pattern.regular_of_wellFormed h.pattern fun hcontains => ?_
  have hinput : rule.input = messageInput := by
    rcases h.input with hmessage | hpayload
    · exact hmessage
    · exact absurd hcontains (h.noMarker hpayload)
  rw [checkHeaderRule, if_neg (by simp [hinput, hcontains])] at hcheck
  split at hcheck
  · cases hcheck
  · next hcount =>
      refine ⟨Nat.le_of_not_gt hcount, ?_⟩
      split at hcheck
      · next alias? hlast => exact ⟨alias?, hlast⟩
      · cases hcheck

theorem isChecked_of_check (hcheck : checkAlias rule = .ok ()) (h : rule.IsRegular) :
    rule.IsChecked := by
  refine ⟨h, fun name hname hstart => ?_⟩
  simp only [checkAlias, hname] at hcheck
  rw [if_neg (by simpa using hstart)] at hcheck
  split at hcheck
  · next hcount => exact eq_of_beq hcount
  · cases hcheck

theorem isChecked_recordField (h : rule.IsChecked) : (recordField rule).IsChecked := by
  unfold recordField
  split
  · exact ⟨h.regular, h.aliasOnce⟩
  · exact h

end Payload

namespace Spacing

variable {rule : MatchRule}

theorem isChecked_stripMessageRule (h : rule.IsChecked) : (stripMessageRule rule).IsChecked := by
  unfold stripMessageRule
  split
  · exact ⟨Pattern.regular_stripLeadingSpace h.regular,
      Pattern.aliasOnce_stripLeadingSpace h.aliasOnce⟩
  · exact h

theorem isReady_separateCaptures (h : rule.IsChecked) :
    (onPattern Pattern.separateCaptures rule).IsReady where
  regular := Pattern.regular_separateItems h.regular none
  aliasOnce := Pattern.aliasOnce_separateCaptures h.aliasOnce
  capturesApart := Pattern.capturesApart_separateCaptures rule.pattern

theorem isReady_anchorGroups (h : rule.IsReady) : (onPattern Pattern.anchorGroups rule).IsReady where
  regular := (Pattern.anchors_anchorGroups h.regular).regular h.regular
  aliasOnce := (Pattern.anchors_anchorGroups h.regular).aliasOnce h.aliasOnce
  capturesApart := (Pattern.anchors_anchorGroups h.regular).capturesApart h.capturesApart

end Spacing

/-! ### Effects -/

namespace Calls

theorem lookupEffect_cases {maps : List String} {a : Action} {effect : Effect}
    (h : lookupEffect maps a = .ok effect) : effect = a.effect ∨ effect.LooksUpIn maps := by
  unfold lookupEffect at h
  split at h
  · next inv heffect =>
      split at h
      · next hmap =>
          split at h
          · cases h
            exact .inr hmap
          · cases h
      · cases h
        exact .inl rfl
  · cases h
    exact .inl rfl

theorem assignmentEffect_cases {maps : List String} {a : Action} {effect : Effect}
    (h : assignmentEffect a = .ok effect) : effect = a.effect ∨ effect.LooksUpIn maps := by
  unfold assignmentEffect at h
  split at h
  · split at h
    · obtain ⟨arg, -, rfl⟩ := map_eq_ok.mp h
      exact .inr trivial
    · split at h
      · obtain ⟨arg, -, rfl⟩ := map_eq_ok.mp h
        exact .inr trivial
      · cases h
        exact .inl rfl
  · cases h
    exact .inl rfl

theorem timeEffect_cases {maps : List String} {a : Action} {effect : Effect}
    (h : timeEffect a = .ok effect) : effect = a.effect ∨ effect.LooksUpIn maps := by
  unfold timeEffect at h
  split at h
  · split at h
    · obtain ⟨reading, -, heq⟩ := bind_eq_ok.mp h
      cases heq
      split <;> exact .inr trivial
    · cases h
      exact .inl rfl
  · cases h
    exact .inl rfl

end Calls

/-! ### The standard pipeline -/

namespace Pass

theorem takes_payloadInMessages :
    payloadInMessages.Takes MatchRule.IsRead MatchRule.HasMarkerInHeader :=
  takes_checkRules _ fun _ => Payload.hasMarkerInHeader_of_check

theorem takes_payloadPosition :
    payloadPosition.Takes MatchRule.HasMarkerInHeader MatchRule.IsRegular :=
  takes_checkRules _ fun _ => Payload.regular_of_check

theorem takes_payloadOverlap : payloadOverlap.Takes MatchRule.IsRegular MatchRule.IsChecked :=
  takes_checkRules _ fun _ => Payload.isChecked_of_check

theorem takes_consecutiveCaptures
    (hseparate : ∀ rule, R rule → R' (Spacing.onPattern Pattern.separateCaptures rule)) :
    consecutiveCaptures.Takes R R' := by
  intro config t t' reports h ht
  cases h
  exact Node.everywhere_mapRules hseparate ht

theorem takes_selectTimestamp : selectTimestamp.Takes R R := by
  intro config t t' reports h ht
  cases h
  exact ht

theorem takes_evalConstantFunctions : evalConstantFunctions.Takes R R :=
  takes_mapActions _ Calls.becomesNode_constantNode

theorem takes_removeNoops : removeNoops.Takes R R := by
  intro config t t' reports h ht
  cases h
  exact Node.everywhere_dropNoops ht

end Pass

namespace Pipeline

/-- The checks of payload markers make patterns regular. -/
theorem takes_preChecks : Stage.Takes
    [.payloadInMessages, .payloadPosition, .payloadOverlap, .functionArity]
    MatchRule.IsRead MatchRule.IsChecked := by
  refine .cons Pass.takes_payloadInMessages ?_
  refine .cons Pass.takes_payloadPosition ?_
  refine .cons Pass.takes_payloadOverlap ?_
  exact .cons (Pass.takes_check _ _) .nil

theorem takes_preActions (config : Config)
    (hstrip : ∀ rule, R rule → R (Spacing.stripMessageRule rule))
    (hrecord : ∀ rule, R rule → R (Payload.recordField rule)) : Stage.Takes
    ((if config.stripLeadingSpace then [.stripLeadingSpace] else []) ++ [.recordPayloadField])
    R R := by
  refine .same fun pass hpass => ?_
  rcases List.mem_append.mp hpass with hpass | hpass
  · split at hpass
    · cases List.mem_singleton.mp hpass
      exact Pass.takes_mapRules _ hstrip
    · cases hpass
  · cases List.mem_singleton.mp hpass
    exact Pass.takes_mapRules _ hrecord

/-- The edits of actions leave patterns alone; those of captures do what they do to every rule. -/
theorem takes_transforms
    (hseparate : ∀ rule, R rule → R' (Spacing.onPattern Pattern.separateCaptures rule))
    (hanchor : ∀ rule, R' rule → R'' (Spacing.onPattern Pattern.anchorGroups rule)) : Stage.Takes
    [.valueMapReferences, .assignmentCalls, .stripSysval, .stripSameFieldCopies,
      .removeSpecialFields, .convertTimeCalls, .removeNoops, .consecutiveCaptures,
      .alternativesEndingInCapture, .selectTimestamp]
    R R'' := by
  refine .cons (Pass.takes_tryEffects _ fun _ _ _ => Calls.lookupEffect_cases) ?_
  refine .cons (Pass.takes_tryEffects _ fun _ _ _ => Calls.assignmentEffect_cases) ?_
  refine .cons (Pass.takes_mapActions _ Calls.becomesNode_sysvalNode) ?_
  refine .cons (Pass.takes_mapActions _ Calls.becomesNode_copyNode) ?_
  refine .cons (Pass.takes_mapActions _ Calls.becomesNode_specialNode) ?_
  refine .cons (Pass.takes_tryEffects _ fun _ _ _ => Calls.timeEffect_cases) ?_
  refine .cons Pass.takes_removeNoops ?_
  refine .cons (Pass.takes_consecutiveCaptures hseparate) ?_
  refine .cons (Pass.takes_mapRules _ hanchor) ?_
  exact .cons Pass.takes_selectTimestamp .nil

/-- What the checks at the start and the four edits of rules do to every rule, the passes do to the rules
of a tree. -/
theorem takes_edits (config : Config) {R S S' S'' : MatchRule → Prop}
    (hchecks : Stage.Takes [.payloadInMessages, .payloadPosition, .payloadOverlap, .functionArity] R S)
    (hstrip : ∀ rule, S rule → S (Spacing.stripMessageRule rule))
    (hrecord : ∀ rule, S rule → S (Payload.recordField rule))
    (hseparate : ∀ rule, S rule → S' (Spacing.onPattern Pattern.separateCaptures rule))
    (hanchor : ∀ rule, S' rule → S'' (Spacing.onPattern Pattern.anchorGroups rule)) :
    (beforeSharing config).Takes R S'' := by
  refine .cons hchecks ?_
  refine .cons (takes_preActions config hstrip hrecord) ?_
  exact .cons (takes_transforms hseparate hanchor) .nil

/-- Rules that were read are ready when shared nodes are extracted. -/
theorem takes_beforeSharing (config : Config) :
    (beforeSharing config).Takes MatchRule.IsRead MatchRule.IsReady :=
  takes_edits config takes_preChecks (fun _ => Spacing.isChecked_stripMessageRule)
    (fun _ => Payload.isChecked_recordField) (fun _ => Spacing.isReady_separateCaptures)
    (fun _ => Spacing.isReady_anchorGroups)

end Pipeline

end LogRules

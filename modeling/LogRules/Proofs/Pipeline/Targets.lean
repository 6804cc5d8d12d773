import LogRules.Proofs.Pipeline.Rewriting

/-! # Actions without a target

The last checks refuse calls without a target, and look at nothing but calls. Calls that are replaced before
get past them (`Effect.IsReplaced`): those of value maps, assignments, readings of dates and durations, and
joined constants. When no call without a target is replaced, the check does what it should: no action of a
finished tree is without a target, and a call without one stops the build, if the number of nodes does not
(`Parser.targets_of_build`). -/

namespace LogRules

/-- The effect is a call that is replaced by a look-up, an assignment, a reading or a constant. -/
def Effect.IsReplaced (maps : List String) : Effect → Prop
  | .call inv =>
      inv.function ∈ maps ∨ inv.function ∈ [Invocation.constantFunction, "PARMVAL", "HDR"] ∨
        inv.function ∈ Calls.timeFunctions ∨
        inv.function = "STRCAT" ∧ ∀ arg ∈ Calls.dropSpecial inv.args, arg.isConstant = true
  | _ => False

instance (maps : List String) (effect : Effect) : Decidable (effect.IsReplaced maps) := by
  cases effect <;> unfold Effect.IsReplaced <;> infer_instance

/-! ### What is made of a call that is not replaced -/

namespace Calls

theorem withEffect?_self {f : Action → Except PassError Effect} {a : Action} (h : f a = .ok a.effect) :
    Node.withEffect? f a = some a := by
  rw [Node.withEffect?, h]
  rfl

theorem forall_isConstant_of_mapM {args : List Value} {texts : List String}
    (h : args.mapM Value.constant? = some texts) : ∀ arg ∈ args, arg.isConstant = true := by
  induction args generalizing texts with
  | nil => exact fun _ h => nomatch h
  | cons arg rest ih =>
      rw [List.mapM_cons] at h
      obtain ⟨text, harg, h⟩ := Option.bind_eq_some_iff.mp h
      obtain ⟨others, hrest, -⟩ := Option.bind_eq_some_iff.mp h
      refine List.forall_mem_cons.mpr ⟨?_, ih hrest⟩
      rw [Value.isConstant, harg]
      rfl

/-- A call that is not replaced only loses a special field in front of its arguments, and a call of `SYSVAL`
goes away. -/
theorem finished_of_not_isReplaced {maps : List String} {inv : Invocation} {source : SourceLoc}
    (h : ¬ (Effect.call inv).IsReplaced maps) :
    finished maps ⟨.call inv, source⟩ =
      if inv.function = "SYSVAL" then none
      else some ⟨.call { inv with args := dropSpecial inv.args }, source⟩ := by
  obtain ⟨hmaps, h⟩ := not_or.mp h
  obtain ⟨hassign, h⟩ := not_or.mp h
  obtain ⟨htime, hjoin⟩ := not_or.mp h
  have hlookup : lookupEffect maps ⟨.call inv, source⟩ = .ok (.call inv) := if_neg hmaps
  have hassignment : assignmentEffect ⟨.call inv, source⟩ = .ok (.call inv) := by
    simp only [List.mem_cons, List.not_mem_nil, or_false, not_or] at hassign
    obtain ⟨hconstant, hparmval, hhdr⟩ := hassign
    simp [assignmentEffect, hconstant, hparmval, hhdr]
  have hreading : timeEffect ⟨.call { inv with args := dropSpecial inv.args }, source⟩ =
      .ok (.call { inv with args := dropSpecial inv.args }) := if_neg htime
  have hfold : constantNode ⟨.call { inv with args := dropSpecial inv.args }, source⟩ =
      .action ⟨.call { inv with args := dropSpecial inv.args }, source⟩ := by
    unfold constantNode
    dsimp only
    split
    · next hfunction =>
        split
        · next texts htexts =>
            exact absurd ⟨eq_of_beq hfunction, forall_isConstant_of_mapM htexts⟩ hjoin
        · rfl
    · rfl
  simp only [finished, rewritten, withEffect?_self hlookup, withEffect?_self hassignment,
    Option.bind_eq_bind, Option.bind_some]
  by_cases hsysval : inv.function = "SYSVAL"
  · simp [sysvalNode, call?, hsysval, Node.action?]
  · have hkept : sysvalNode ⟨.call inv, source⟩ = .action ⟨.call inv, source⟩ := by
      simp [sysvalNode, call?, hsysval]
    simp [hkept, hsysval, Node.action?, copyNode, specialNode, withEffect?_self hreading, hfold]

end Calls

/-! ### Targets stay -/

/-- Nothing, or an action with the same target, is in the place of the action. -/
def Action.KeepsTarget (a : Action) (n : Node) : Prop :=
  n = .noop ∨ ∃ b : Action, n = .action b ∧ b.effect.target = a.effect.target

namespace Calls

variable {a b : Action} {effect : Effect}

theorem target_withEffect? {f : Action → Except PassError Effect}
    (hf : ∀ {effect}, f a = .ok effect → effect.target = a.effect.target)
    (h : Node.withEffect? f a = some b) : b.effect.target = a.effect.target := by
  obtain ⟨effect, heffect, rfl⟩ := Option.map_eq_some_iff.mp h
  exact hf (eq_ok_of_toOption heffect)

theorem target_lookupEffect {maps : List String} (h : lookupEffect maps a = .ok effect) :
    effect.target = a.effect.target := by
  obtain ⟨old, source⟩ := a
  cases old with
  | call inv =>
      simp only [lookupEffect] at h
      split at h
      · split at h
        · cases h
          rfl
        · cases h
      · cases h
        rfl
  | _ => cases h; rfl

theorem target_assignmentEffect (h : assignmentEffect a = .ok effect) :
    effect.target = a.effect.target := by
  obtain ⟨old, source⟩ := a
  cases old with
  | call inv =>
      simp only [assignmentEffect] at h
      split at h
      · obtain ⟨arg, -, rfl⟩ := map_eq_ok.mp h
        rfl
      · split at h
        · obtain ⟨arg, -, rfl⟩ := map_eq_ok.mp h
          rfl
        · cases h
          rfl
  | _ => cases h; rfl

theorem target_timeReading {inv : Invocation} {reading : TimeReading}
    (h : timeReading a inv = .ok reading) : reading.target = inv.target := by
  unfold timeReading at h
  dsimp only at h
  split at h
  · cases h
  · split at h
    · cases h
    · obtain ⟨fields, -, h⟩ := bind_eq_ok.mp h
      obtain ⟨formats, -, h⟩ := bind_eq_ok.mp h
      cases h
      rfl

theorem target_timeEffect (h : timeEffect a = .ok effect) : effect.target = a.effect.target := by
  obtain ⟨old, source⟩ := a
  cases old with
  | call inv =>
      simp only [timeEffect] at h
      split at h
      · obtain ⟨reading, hreading, heq⟩ := bind_eq_ok.mp h
        cases heq
        have htarget : reading.target = inv.target := target_timeReading hreading
        split <;> exact htarget
      · cases h
        rfl
  | _ => cases h; rfl

theorem target_action? {n : Node} (hn : a.KeepsTarget n) (h : n.action? = some b) :
    b.effect.target = a.effect.target := by
  rcases hn with rfl | ⟨c, rfl, hc⟩
  · cases h
  · cases h
    exact hc

theorem keepsTarget_sysvalNode (a : Action) : a.KeepsTarget (sysvalNode a) := by
  unfold sysvalNode
  split
  · split
    · exact .inl rfl
    · exact .inr ⟨a, rfl, rfl⟩
  · exact .inr ⟨a, rfl, rfl⟩

theorem keepsTarget_copyNode (a : Action) : a.KeepsTarget (copyNode a) := by
  unfold copyNode
  split
  · split
    · exact .inl rfl
    · exact .inr ⟨a, rfl, rfl⟩
  · exact .inr ⟨a, rfl, rfl⟩

theorem keepsTarget_specialNode (a : Action) : a.KeepsTarget (specialNode a) := by
  unfold specialNode
  split
  · next inv heffect => exact .inr ⟨_, rfl, by rw [heffect]; rfl⟩
  · exact .inr ⟨a, rfl, rfl⟩

theorem keepsTarget_constantNode (a : Action) : a.KeepsTarget (constantNode a) := by
  unfold constantNode
  split
  · next inv heffect =>
      split
      · split
        · exact .inr ⟨_, rfl, by rw [heffect]; rfl⟩
        · exact .inr ⟨a, rfl, rfl⟩
      · exact .inr ⟨a, rfl, rfl⟩
  · exact .inr ⟨a, rfl, rfl⟩

/-- What is made of an action has the target of the action. -/
theorem target_finished {maps : List String} (h : finished maps a = some b) :
    b.effect.target = a.effect.target := by
  obtain ⟨a₆, hrewritten, hconstant⟩ := Option.bind_eq_some_iff.mp h
  obtain ⟨a₁, hlookup, hrewritten⟩ := Option.bind_eq_some_iff.mp hrewritten
  obtain ⟨a₂, hassignment, hrewritten⟩ := Option.bind_eq_some_iff.mp hrewritten
  obtain ⟨a₃, hsysval, hrewritten⟩ := Option.bind_eq_some_iff.mp hrewritten
  obtain ⟨a₄, hcopy, hrewritten⟩ := Option.bind_eq_some_iff.mp hrewritten
  obtain ⟨a₅, hspecial, htime⟩ := Option.bind_eq_some_iff.mp hrewritten
  calc b.effect.target
      = a₆.effect.target := target_action? (keepsTarget_constantNode a₆) hconstant
    _ = a₅.effect.target := target_withEffect? target_timeEffect htime
    _ = a₄.effect.target := target_action? (keepsTarget_specialNode a₄) hspecial
    _ = a₃.effect.target := target_action? (keepsTarget_copyNode a₃) hcopy
    _ = a₂.effect.target := target_action? (keepsTarget_sysvalNode a₂) hsysval
    _ = a₁.effect.target := target_withEffect? target_assignmentEffect hassignment
    _ = a.effect.target := target_withEffect? target_lookupEffect hlookup

end Calls

/-! ### What the check of calls finds -/

namespace Calls

/-- The check of a node fails for a call without a target or a reference without a binding. -/
theorem checkNode_eq_error {bindings : List String} {n : Node} {e : PassError}
    (h : checkNode bindings n = .error e) :
    (∃ a function, n = .action a ∧ e = actionError a (.missingTarget function)) ∨
      ∃ name, n = .reference name ∧ name ∉ bindings := by
  cases n with
  | action a =>
      rw [checkNode] at h
      split at h
      · cases h
      · next inv hcall =>
          split at h
          · cases h
            exact .inl ⟨a, inv.function, rfl, rfl⟩
          · cases h
  | reference name =>
      rw [checkNode] at h
      split at h
      · cases h
      · next hname => exact .inr ⟨name, rfl, hname⟩
  | _ => cases h

end Calls

namespace Sharing.Represents

variable {t t' : RuleTree} {μ : Meanings}

/-- An action of a tree is an action of every shared tree that stands for it, up to its place. -/
theorem exists_shared_action (h : Represents t.root μ t') (ht : t.root.IsPlain) {a : Action}
    (ha : .action a ∈ t.root.preorder) : ∃ b : Action, .action b ∈ t'.nodes ∧ b.effect = a.effect := by
  have hmem : (Node.action a).unlabelled ∈ t'.inlined.unlabelled.preorder := by
    rw [h.inlined_eq ht, Node.preorder_unlabelled]
    exact List.mem_map_of_mem ha
  rw [Node.preorder_unlabelled] at hmem
  obtain ⟨m, hm, heq⟩ := List.mem_map.mp hmem
  cases m with
  | action b =>
      have hsame : b.unlabelled = a.unlabelled := Node.action.inj heq
      have heffect := congrArg Action.effect hsame
      exact ⟨b, RuleTree.mem_nodes_of_inlined hm, heffect⟩
  | _ => cases heq

/-- A shared tree fails the check of nodes for a call without a target, when the tree has one, or because
it has too many nodes. -/
theorem exists_missingTarget (h : Represents t.root μ t') (ht : t.IsUnshared) {a : Action}
    {inv : Invocation} (ha : a ∈ t.actions) (heffect : a.effect = .call inv) (htarget : inv.target = "")
    (hfunction : inv.function ≠ "SYSVAL") :
    ∃ e, Calls.checkNodes t' = .error e ∧ ((∃ function loc, e = ⟨.missingTarget function, some loc⟩) ∨
      RuleTree.nodeLimit < t'.nodes.length ∧ e = Calls.limitError) := by
  rw [ht.actions_eq] at ha
  obtain ⟨b, hb, hsame⟩ := h.exists_shared_action ht.root (Node.mem_actions.mp ha)
  cases hcheck : Calls.checkNodes t' with
  | ok u =>
      have hok := Calls.checkNode_action_eq_ok.mp ((Calls.checkNodes_eq_ok.mp hcheck).2 _ hb) inv
        (hsame.trans heffect)
      exact absurd (by simp [htarget, hfunction]) hok
  | error e =>
      refine ⟨e, rfl, ?_⟩
      rcases Calls.checkNodes_eq_error hcheck with ⟨n, hn, he⟩ | hlimit
      · rcases Calls.checkNode_eq_error he with ⟨c, function, -, rfl⟩ | ⟨name, rfl, hname⟩
        · exact .inl ⟨function, c.source, rfl⟩
        · exact absurd (h.bound ht.root hn) hname
      · exact .inr hlimit

end Sharing.Represents

/-! ### Builds that stop at the check -/

namespace Parser

/-- An assembled action without a target is a call. -/
theorem exists_call_of_assemble {d : Device} {a : Action} (ha : a ∈ (assemble d).1.actions)
    (htarget : a.effect.target = "") : ∃ inv, a.effect = .call inv := by
  have hrecorded := everywhere_assemble (A := Effect.IsRecorded) (fun _ _ _ => trivial)
    (R := fun _ => True) (fun _ heffect => heffect) d
  rw [(isUnshared_assemble d).actions_eq, Node.mem_actions] at ha
  obtain ⟨effect, source⟩ := a
  rcases hrecorded _ ha with ⟨inv, rfl⟩ | ⟨value, rfl⟩
  · exact ⟨inv, rfl⟩
  · exact absurd htarget (show "eventcategory" ≠ "" by decide)

/-- When no call without a target is replaced, no action of a finished tree is without a target. -/
theorem target_ne_of_build {config : Config} {d : Device} {parser : Parser}
    (hbuild : build config d = .ok parser)
    (hkept : ∀ a ∈ (assemble d).1.actions, a.effect.target = "" →
      ¬ a.effect.IsReplaced (assemble d).1.valueMaps.keys) :
    ∀ a ∈ parser.tree.actions, a.effect.target ≠ "" := by
  obtain ⟨t, ht, -, -, htree, -⟩ := exists_unshared_of_build hbuild
  obtain ⟨-, -, -, -, -, -, hnodes, -⟩ := exists_run_of_build hbuild
  -- an action without a target is a call, before nodes are shared and after
  have hcalls : ∀ b ∈ t.actions, b.effect.target = "" →
      ∃ inv, b.effect = .call inv ∧ inv.function ≠ "SYSVAL" := by
    intro b hb htarget
    rw [actions_unshared ht] at hb
    obtain ⟨a, ha, hmade⟩ := List.mem_filterMap.mp hb
    have hnone : a.effect.target = "" := (Calls.target_finished hmade).symm.trans htarget
    obtain ⟨inv, heffect⟩ := exists_call_of_assemble ha hnone
    have hreplaced := hkept a ha hnone
    obtain ⟨effect, source⟩ := a
    obtain rfl : effect = .call inv := heffect
    rw [Calls.finished_of_not_isReplaced hreplaced] at hmade
    split at hmade
    · cases hmade
    · next hfunction =>
        cases hmade
        exact ⟨_, rfl, hfunction⟩
  have hshared := (RuleTree.forall_extractShared config (R := fun _ => True) (fun _ _ => trivial)
    hcalls).2
  rw [← htree] at hshared
  intro a ha htarget
  obtain ⟨inv, heffect, hfunction⟩ := hshared a ha htarget
  have hok := (Calls.checkNodes_eq_ok.mp hnodes).2 _ (RuleTree.mem_actions.mp ha)
  have hnone : inv.target = "" := by
    rw [heffect] at htarget
    exact htarget
  exact Calls.checkNode_action_eq_ok.mp hok inv heffect (by simp [hnone, hfunction])

/-- A call without a target that is not replaced stops the build, unless the number of nodes does. -/
theorem build_eq_missingTarget {config : Config} {d : Device} {a : Action} {inv : Invocation}
    (ha : a ∈ (assemble d).1.actions) (heffect : a.effect = .call inv) (htarget : inv.target = "")
    (hfunction : inv.function ≠ "SYSVAL")
    (hkept : ¬ a.effect.IsReplaced (assemble d).1.valueMaps.keys)
    (herrors : ¬ Diagnostic.hasErrors (assemble d).2) {t : RuleTree} (ht : t ∈ unshared? config d)
    (hmet : config.globalEntities = true ∨ config.detectDuplicates = true →
      Sharing.SignaturesDecide (Sharing.met config t)) :
    ∃ e, build config d = .error (.pass ⟨"validations", "generic validations", e⟩) ∧
      ((∃ function loc, e = ⟨.missingTarget function, some loc⟩) ∨
        RuleTree.nodeLimit < (Sharing.extractShared config t).nodes.length ∧ e = Calls.limitError) := by
  obtain ⟨t₁, more, hbefore, rfl, hunshared⟩ := exists_run_of_unshared ht
  -- the call is still there when nodes are shared
  have hleft : ⟨.call { inv with args := Calls.dropSpecial inv.args }, a.source⟩ ∈
      (Calls.foldConstants t₁).actions := by
    obtain ⟨effect, source⟩ := a
    obtain rfl : effect = .call inv := heffect
    rw [actions_unshared ht]
    refine List.mem_filterMap.mpr ⟨_, ha, ?_⟩
    rw [Calls.finished_of_not_isReplaced hkept, if_neg hfunction]
  obtain ⟨μ, hrep⟩ := Sharing.represents_extractShared hunshared.root hunshared.bindings
    (Sharing.signaturesDecide_met hmet)
  obtain ⟨e, hcheck, he⟩ := hrep.exists_missingTarget hunshared hleft rfl htarget hfunction
  exact ⟨e, build_eq_error herrors (Pipeline.run_standard_eq_error hbefore hcheck), he⟩

/-- What is made of an assembled action is in the finished tree. -/
theorem exists_finished_of_build {config : Config} {d : Device} {parser : Parser}
    (hbuild : build config d = .ok parser)
    (hmet : config.globalEntities = true ∨ config.detectDuplicates = true →
      ∀ t ∈ unshared? config d, Sharing.SignaturesDecide (Sharing.met config t))
    {a b : Action} (ha : a ∈ (assemble d).1.actions)
    (hmade : Calls.finished (assemble d).1.valueMaps.keys a = some b) :
    ∃ c ∈ parser.tree.actions, c.effect = b.effect := by
  obtain ⟨t, ht, hunshared, -, htree, -⟩ := exists_unshared_of_build hbuild
  obtain ⟨μ, hrep⟩ := Sharing.represents_extractShared hunshared.root hunshared.bindings
    (Sharing.signaturesDecide_met fun hshared => hmet hshared t ht)
  have hb : b ∈ t.root.actions := by
    rw [← hunshared.actions_eq, actions_unshared ht]
    exact List.mem_filterMap.mpr ⟨a, ha, hmade⟩
  obtain ⟨c, hc, heffect⟩ := hrep.exists_shared_action hunshared.root (Node.mem_actions.mp hb)
  rw [← htree] at hc
  exact ⟨c, RuleTree.mem_actions.mpr hc, heffect⟩

/-- **Targets of a finished tree.** Unless a call without a target is replaced, every action of a finished
tree has a target. A call without a target that is not replaced stops the build, unless a tree beyond the
limit of nodes does so first, and what replaces one that is replaced is in the finished tree, without a
target. Where nodes are shared, nodes with one signature have to be equal up to labels for an action to be
found again. -/
theorem targets_of_build (config : Config) (d : Device) :
    ((∀ a ∈ (assemble d).1.actions, a.effect.target = "" →
        ¬ a.effect.IsReplaced (assemble d).1.valueMaps.keys) →
      ∀ parser, build config d = .ok parser → ∀ a ∈ parser.tree.actions, a.effect.target ≠ "") ∧
    ((config.globalEntities = true ∨ config.detectDuplicates = true →
        ∀ t ∈ unshared? config d, Sharing.SignaturesDecide (Sharing.met config t)) →
      (∀ a ∈ (assemble d).1.actions, ∀ inv, a.effect = .call inv → inv.target = "" →
        inv.function ≠ "SYSVAL" → ¬ a.effect.IsReplaced (assemble d).1.valueMaps.keys →
        ¬ Diagnostic.hasErrors (assemble d).2 → ∀ t ∈ unshared? config d,
        ∃ e, build config d = .error (.pass ⟨"validations", "generic validations", e⟩) ∧
          ((∃ function loc, e = ⟨.missingTarget function, some loc⟩) ∨
            RuleTree.nodeLimit < (Sharing.extractShared config t).nodes.length ∧ e = Calls.limitError)) ∧
      ∀ parser, build config d = .ok parser → ∀ a ∈ (assemble d).1.actions, a.effect.target = "" →
        ∀ b, Calls.finished (assemble d).1.valueMaps.keys a = some b →
          ∃ c ∈ parser.tree.actions, c.effect = b.effect ∧ c.effect.target = "") := by
  refine ⟨fun hkept parser hbuild => target_ne_of_build hbuild hkept, fun hmet => ⟨?_, ?_⟩⟩
  · intro a ha inv heffect htarget hfunction hkept herrors t ht
    exact build_eq_missingTarget ha heffect htarget hfunction hkept herrors ht
      fun hshared => hmet hshared t ht
  · intro parser hbuild a ha htarget b hmade
    obtain ⟨c, hc, heffect⟩ := exists_finished_of_build hbuild hmet ha hmade
    exact ⟨c, hc, heffect, by rw [heffect, Calls.target_finished hmade, htarget]⟩

/-- A message record with two captures and these functions, behind a header that leaves the rest of the
message to it. -/
def deviceCalling (functions : String) : Device :=
  { headers := [{ id1 := "0001", id2 := "0001", content := "<messageid>: <!payload>" }]
    messages := [{ id1 := "m", id2 := "m:01", content := "<a> <b>", functions }] }

/-- Joined fields are a call that is not replaced: with a target the device builds, without one it does
not. -/
theorem targets_of_build_joinedFields :
    (∃ parser, build {} (deviceCalling "<@c:*PARMVAL(a)><@d:*STRCAT(a,b)>") = .ok parser ∧
      ∀ a ∈ parser.tree.actions, a.effect.target ≠ "") ∧
    ∃ function loc, build {} (deviceCalling "<@c:*PARMVAL(a)><*STRCAT(a,b)>") = .error
      (.pass ⟨"validations", "generic validations", ⟨.missingTarget function, some loc⟩⟩) := by
  constructor
  · have hsome : (build {} (deviceCalling "<@c:*PARMVAL(a)><@d:*STRCAT(a,b)>")).toOption.isSome = true := by
      decide +kernel
    obtain ⟨parser, hparser⟩ := Option.isSome_iff_exists.mp hsome
    have hbuild := eq_ok_of_toOption hparser
    exact ⟨parser, hbuild, (targets_of_build {} _).1 (by decide +kernel) parser hbuild⟩
  · -- the call of `STRCAT` is among the assembled actions
    have hcall : (assemble (deviceCalling "<@c:*PARMVAL(a)><*STRCAT(a,b)>")).1.actions.any (fun a =>
        a.effect.target == "" && (Calls.call? a).any (·.function != "SYSVAL") && !decide
          (a.effect.IsReplaced (assemble (deviceCalling
            "<@c:*PARMVAL(a)><*STRCAT(a,b)>")).1.valueMaps.keys)) = true := by
      decide +kernel
    obtain ⟨a, ha, hcall⟩ := List.any_eq_true.mp hcall
    simp only [Bool.and_eq_true, beq_iff_eq, Bool.not_eq_true', decide_eq_false_iff_not] at hcall
    obtain ⟨⟨htarget, hany⟩, hkept⟩ := hcall
    obtain ⟨inv, heffect⟩ := exists_call_of_assemble ha htarget
    have hfunction : inv.function ≠ "SYSVAL" := by
      simpa [Calls.call?, heffect] using hany
    have hnone : inv.target = "" := by
      rw [heffect] at htarget
      exact htarget
    have hsmall : (unshared? {} (deviceCalling "<@c:*PARMVAL(a)><*STRCAT(a,b)>")).any (fun t =>
        decide ((Sharing.extractShared {} t).nodes.length ≤ RuleTree.nodeLimit)) = true := by
      decide +kernel
    obtain ⟨t, ht, hsmall⟩ := (Option.any_eq_true _ _).mp hsmall
    obtain ⟨e, hbuild, ⟨function, loc, rfl⟩ | ⟨hlarge, -⟩⟩ :=
      ((targets_of_build {} _).2 (fun hshared => absurd hshared (by decide))).1 a ha inv heffect hnone
        hfunction hkept (by decide +kernel) t ht
    · exact ⟨function, loc, hbuild⟩
    · exact absurd (of_decide_eq_true hsmall) (Nat.not_le_of_lt hlarge)

/-- An assignment without a target gets past the check. -/
theorem not_forall_targets_of_build : ¬ ∀ (config : Config) (d : Device) (parser : Parser),
    build config d = .ok parser → ∀ a ∈ parser.tree.actions, a.effect.target ≠ "" := by
  intro h
  have huntargeted : (build {} (deviceCalling "<*PARMVAL(a)>")).toOption.any (fun parser =>
      parser.tree.actions.any fun a => a.effect.target == "") = true := by decide +kernel
  obtain ⟨parser, hparser, hany⟩ := (Option.any_eq_true _ _).mp huntargeted
  obtain ⟨a, ha, hnone⟩ := List.any_eq_true.mp hany
  exact h {} _ parser (eq_ok_of_toOption hparser) a ha (eq_of_beq hnone)

end Parser

end LogRules

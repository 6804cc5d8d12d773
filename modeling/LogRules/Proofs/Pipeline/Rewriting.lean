import LogRules.Proofs.Pipeline.Executable
import LogRules.Proofs.Tree.Actions

/-! # What passes do to the actions

Every pass before sharing edits the actions of a tree one by one, in their order: it keeps them all, or puts
another action or nothing in the place of each (`Pass.Rewrites`). The edits of all these passes together are
`Calls.finished`, so the actions that nodes are shared from are the assembled actions, each finished
(`Parser.actions_unshared`). -/

namespace LogRules

/-- An edit of one action, with the names of the value maps: another action, or nothing. -/
abbrev ActionEdit := List String → Action → Option Action

/-- The pass puts what the edit makes of an action in the place of every action. -/
def Pass.Rewrites (pass : Pass) (f : ActionEdit) : Prop :=
  ∀ config t t' reports, pass.apply config t = .ok (t', reports) →
    t'.valueMaps = t.valueMaps ∧ t'.root.actions = t.root.actions.filterMap (f t.valueMaps.keys)

/-- The passes of a stage together put what the edit makes of an action in the place of every action. -/
def Stage.Rewrites (passes : List Pass) (f : ActionEdit) : Prop :=
  ∀ stage config t t' reports, runPasses stage config t passes = .ok (t', reports) →
    t'.valueMaps = t.valueMaps ∧ t'.root.actions = t.root.actions.filterMap (f t.valueMaps.keys)

/-- The stages together put what the edit makes of an action in the place of every action. -/
def Pipeline.Rewrites (stages : Pipeline) (f : ActionEdit) : Prop :=
  ∀ config t t' reports, Pipeline.run config t stages = .ok (t', reports) →
    t'.valueMaps = t.valueMaps ∧ t'.root.actions = t.root.actions.filterMap (f t.valueMaps.keys)

/-- The pass keeps all actions. -/
def Pass.KeepsActions (pass : Pass) : Prop := pass.Rewrites fun _ => some

/-! ### One pass after the other -/

/-- Two edits one after the other, when the first is that of a tree and the second of what it leads to. -/
theorem filterMap_actions_trans {t t₁ t₂ : RuleTree} {f g : ActionEdit}
    (h : t₁.valueMaps = t.valueMaps ∧ t₁.root.actions = t.root.actions.filterMap (f t.valueMaps.keys))
    (h' : t₂.valueMaps = t₁.valueMaps ∧
      t₂.root.actions = t₁.root.actions.filterMap (g t₁.valueMaps.keys)) :
    t₂.valueMaps = t.valueMaps ∧ t₂.root.actions = t.root.actions.filterMap fun a =>
      (f t.valueMaps.keys a).bind (g t.valueMaps.keys) := by
  refine ⟨h'.1.trans h.1, ?_⟩
  rw [h'.2, h.2, h.1, List.filterMap_filterMap]

namespace Stage.Rewrites

variable {pass : Pass} {rest : List Pass} {f g : ActionEdit}

theorem nil : Rewrites [] fun _ => some := by
  intro stage config t t' reports h
  cases h
  exact ⟨rfl, List.filterMap_some.symm⟩

theorem cons (hpass : pass.Rewrites f) (hrest : Rewrites rest g) :
    Rewrites (pass :: rest) fun maps a => (f maps a).bind (g maps) := by
  intro stage config t t' reports h
  obtain ⟨t₁, first, others, hfirst, hothers, -⟩ := runPasses_cons_eq_ok.mp h
  exact filterMap_actions_trans (hpass config t t₁ first hfirst) (hrest stage config t₁ t' others hothers)

/-- A pass that keeps all actions in front of others. -/
theorem keep (hpass : pass.KeepsActions) (hrest : Rewrites rest g) : Rewrites (pass :: rest) g :=
  cons hpass hrest

theorem keepAll {passes : List Pass} (h : ∀ pass ∈ passes, pass.KeepsActions) :
    Rewrites passes fun _ => some := by
  induction passes with
  | nil => exact nil
  | cons pass rest ih =>
      exact keep (h pass List.mem_cons_self) (ih fun p hp => h p (List.mem_cons_of_mem _ hp))

/-- A pass with nothing but passes that keep all actions behind it. -/
theorem last (hpass : pass.Rewrites f) (hrest : ∀ p ∈ rest, p.KeepsActions) :
    Rewrites (pass :: rest) f := by
  have h := cons hpass (keepAll hrest)
  simp only [Option.bind_fun_some] at h
  exact h

end Stage.Rewrites

namespace Pipeline.Rewrites

variable {stage : Stage} {rest : Pipeline} {f g : ActionEdit}

theorem nil : Rewrites [] fun _ => some := by
  intro config t t' reports h
  cases h
  exact ⟨rfl, List.filterMap_some.symm⟩

theorem cons (hstage : Stage.Rewrites stage.passes f) (hrest : Rewrites rest g) :
    Rewrites (stage :: rest) fun maps a => (f maps a).bind (g maps) := by
  intro config t t' reports h
  obtain ⟨t₁, first, others, hfirst, hothers, -⟩ := run_cons_eq_ok.mp h
  exact filterMap_actions_trans (hstage stage.name config t t₁ first hfirst)
    (hrest config t₁ t' others hothers)

/-- A stage that keeps all actions in front of others. -/
theorem keep (hstage : Stage.Rewrites stage.passes fun _ => some) (hrest : Rewrites rest g) :
    Rewrites (stage :: rest) g :=
  cons hstage hrest

theorem single (hstage : Stage.Rewrites stage.passes f) : Rewrites [stage] f := by
  have h := cons hstage nil
  simp only [Option.bind_fun_some] at h
  exact h

end Pipeline.Rewrites

/-! ### Kinds of passes -/

namespace Pass

theorem keepsActions_check (name : String) (f : RuleTree → Except PassError Unit) :
    (check name f).KeepsActions := by
  intro config t t' reports h
  obtain ⟨_, -, heq⟩ := map_eq_ok.mp h
  cases heq
  exact ⟨rfl, List.filterMap_some.symm⟩

theorem keepsActions_mapRules (name : String) (f : MatchRule → MatchRule) :
    (change name (RuleTree.mapNodes (Node.mapRules f))).KeepsActions := by
  intro config t t' reports h
  cases h
  exact ⟨rfl, ((Node.actions_mapRules f).1 t.root).trans List.filterMap_some.symm⟩

theorem rewrites_mapActions (name : String) {f : Action → Node} (hf : ∀ a : Action, a.BecomesNode (f a)) :
    (change name (RuleTree.mapNodes (Node.mapActions f))).Rewrites fun _ a => (f a).action? := by
  intro config t t' reports h
  cases h
  exact ⟨rfl, (Node.actions_mapActions fun a => (hf a).isLeaf.2).1 t.root⟩

theorem rewrites_tryEffects (name : String) (f : List String → Action → Except PassError Effect) :
    (tryChange name fun t => t.tryNodes (Node.tryEffects (f t.valueMaps.keys))).Rewrites
      fun maps => Node.withEffect? (f maps) := by
  intro config t t' reports h
  obtain ⟨t₁, ht₁, heq⟩ := map_eq_ok.mp h
  cases heq
  obtain ⟨root, hroot, ht₁⟩ := bind_eq_ok.mp ht₁
  obtain ⟨bindings, -, ht₁⟩ := bind_eq_ok.mp ht₁
  cases ht₁
  exact ⟨rfl, (Node.actions_tryEffects (f t.valueMaps.keys)).1 t.root root hroot⟩

theorem keepsActions_removeNoops : removeNoops.KeepsActions := by
  intro config t t' reports h
  cases h
  exact ⟨rfl, (Node.actions_dropNoops.1 t.root).trans List.filterMap_some.symm⟩

theorem keepsActions_consecutiveCaptures : consecutiveCaptures.KeepsActions := by
  intro config t t' reports h
  cases h
  exact ⟨rfl, ((Node.actions_mapRules _).1 t.root).trans List.filterMap_some.symm⟩

theorem keepsActions_selectTimestamp : selectTimestamp.KeepsActions := by
  intro config t t' reports h
  cases h
  exact ⟨rfl, List.filterMap_some.symm⟩

end Pass

/-! ### The standard pipeline -/

namespace Calls

/-- What the passes before sharing make of an action. -/
def rewritten (maps : List String) (a : Action) : Option Action := do
  let a ← Node.withEffect? (lookupEffect maps) a
  let a ← Node.withEffect? assignmentEffect a
  let a ← (sysvalNode a).action?
  let a ← (copyNode a).action?
  let a ← (specialNode a).action?
  Node.withEffect? timeEffect a

/-- What the passes before sharing and the folding of constants make of an action. -/
def finished (maps : List String) (a : Action) : Option Action := do
  (constantNode (← rewritten maps a)).action?

end Calls

namespace Pipeline

theorem rewrites_transforms : Stage.Rewrites
    [.valueMapReferences, .assignmentCalls, .stripSysval, .stripSameFieldCopies,
      .removeSpecialFields, .convertTimeCalls, .removeNoops, .consecutiveCaptures,
      .alternativesEndingInCapture, .selectTimestamp] Calls.rewritten := by
  refine .cons (Pass.rewrites_tryEffects _ Calls.lookupEffect) ?_
  refine .cons (Pass.rewrites_tryEffects _ fun _ => Calls.assignmentEffect) ?_
  refine .cons (Pass.rewrites_mapActions _ Calls.becomesNode_sysvalNode) ?_
  refine .cons (Pass.rewrites_mapActions _ Calls.becomesNode_copyNode) ?_
  refine .cons (Pass.rewrites_mapActions _ Calls.becomesNode_specialNode) ?_
  refine .last (Pass.rewrites_tryEffects _ fun _ => Calls.timeEffect) fun pass hpass => ?_
  simp only [List.mem_cons, List.not_mem_nil, or_false] at hpass
  rcases hpass with rfl | rfl | rfl | rfl
  · exact Pass.keepsActions_removeNoops
  · exact Pass.keepsActions_consecutiveCaptures
  · exact Pass.keepsActions_mapRules _ _
  · exact Pass.keepsActions_selectTimestamp

/-- Checks and edits of rules keep all actions, so the transforms make what is made of an action. -/
theorem rewrites_beforeSharing (config : Config) : (beforeSharing config).Rewrites Calls.rewritten := by
  refine .keep (.keepAll fun pass hpass => ?_) (.keep (.keepAll fun pass hpass => ?_)
    (.single rewrites_transforms))
  · simp only [List.mem_cons, List.not_mem_nil, or_false] at hpass
    rcases hpass with rfl | rfl | rfl | rfl <;> exact Pass.keepsActions_check _ _
  · rcases List.mem_append.mp hpass with hpass | hpass
    · split at hpass
      · cases List.mem_singleton.mp hpass
        exact Pass.keepsActions_mapRules _ _
      · cases hpass
    · cases List.mem_singleton.mp hpass
      exact Pass.keepsActions_mapRules _ _

end Pipeline

theorem RuleTree.IsUnshared.actions_eq {t : RuleTree} (h : t.IsUnshared) : t.actions = t.root.actions := by
  rw [RuleTree.actions, RuleTree.nodes, h.bindings]
  show (t.root.preorder ++ []).filterMap _ = _
  rw [List.append_nil]
  rfl

namespace Parser

/-- Nodes are shared from what the passes before sharing end with, with constants folded. -/
theorem exists_run_of_unshared {config : Config} {d : Device} {t : RuleTree} (ht : t ∈ unshared? config d) :
    ∃ t₁ more, (Pipeline.beforeSharing config).run config (assemble d).1 = .ok (t₁, more) ∧
      t = Calls.foldConstants t₁ ∧ t.IsUnshared := by
  obtain ⟨⟨t₁, more⟩, hrun, rfl⟩ := Option.map_eq_some_iff.mp (Option.mem_def.mp ht)
  have hbefore := eq_ok_of_toOption hrun
  have ht₁ : t₁.IsUnshared := (Pipeline.run_of_ordinary (Pipeline.ordinary_beforeSharing config)
    (isUnshared_assemble d) hbefore).1
  exact ⟨t₁, more, hbefore, rfl, Pass.ordinary_evalConstantFunctions.unshared config t₁ _ [] rfl ht₁⟩

/-- The actions that nodes are shared from are the assembled actions, each finished, in their order. -/
theorem actions_unshared {config : Config} {d : Device} {t : RuleTree} (ht : t ∈ unshared? config d) :
    t.actions = (assemble d).1.actions.filterMap (Calls.finished (assemble d).1.valueMaps.keys) := by
  obtain ⟨t₁, more, hbefore, rfl, hunshared⟩ := exists_run_of_unshared ht
  have hfolds : Pass.evalConstantFunctions.Rewrites fun _ a => (Calls.constantNode a).action? :=
    Pass.rewrites_mapActions _ Calls.becomesNode_constantNode
  have hall := filterMap_actions_trans (g := fun _ a => (Calls.constantNode a).action?)
    (Pipeline.rewrites_beforeSharing config config _ t₁ more hbefore) (hfolds config t₁ _ [] rfl)
  rw [hunshared.actions_eq, (isUnshared_assemble d).actions_eq]
  exact hall.2

end Parser

end LogRules

import LogRules.Proofs.Result
import LogRules.Proofs.Tree.Everywhere
import LogRules.Transform.Standard
import LogRules.Assembly

/-! # Trees before sharing

No pass but the extraction of shared nodes looks at options or makes a reference or a binding
(`Pass.Ordinary`). A run of such passes is the same under all options and keeps a tree without
references and bindings as such (`Pipeline.run_of_ordinary`). -/

namespace LogRules

/-- The tree has no references and no bindings. -/
structure RuleTree.IsUnshared (t : RuleTree) : Prop where
  root : t.root.IsPlain
  bindings : t.bindings = .empty

namespace Node

/-! ### Edits that make no reference -/

theorem isPlain_iff_everywhere {n : Node} : n.IsPlain ↔ n.Everywhere fun m => ¬ m.IsReference := by
  constructor
  · rintro h m hm ⟨name, rfl⟩
    exact h name hm
  · exact fun h name hname => h _ hname ⟨name, rfl⟩

/-- An edit that makes no reference and takes the new children from the old ones. -/
theorem isPlain_edit {f : Node → Node}
    (href : ∀ n : Node, (f n).IsReference → n.IsReference)
    (hchildren : ∀ n : Node, ∀ c ∈ (f n).children, c ∈ n.children.map f) {n : Node}
    (h : n.IsPlain) : (f n).IsPlain := by
  have hstep : ∀ n : Node, ¬ n.IsReference → ¬ (f n).IsReference := fun n => mt (href n)
  exact isPlain_iff_everywhere.mpr (everywhere_edit hchildren hstep (isPlain_iff_everywhere.mp h))

theorem isPlain_mapRules (f : MatchRule → MatchRule) {n : Node} (h : n.IsPlain) :
    (n.mapRules f).IsPlain := by
  refine isPlain_edit ?_ (fun _ _ => mem_children_mapRules) h
  rintro n ⟨name, heq⟩
  cases n <;> cases heq
  exact ⟨name, rfl⟩

theorem isPlain_dropNoops {n : Node} (h : n.IsPlain) : n.dropNoops.IsPlain := by
  refine isPlain_edit ?_ (fun _ _ => mem_children_dropNoops) h
  rintro n ⟨name, heq⟩
  cases n <;> cases heq
  exact ⟨name, rfl⟩

theorem isPlain_mapActions {f : Action → Node} (hf : ∀ a, ¬ (f a).IsReference ∧ (f a).children = [])
    {n : Node} (h : n.IsPlain) : (n.mapActions f).IsPlain := by
  refine isPlain_edit ?_ ?_ h
  · rintro n ⟨name, heq⟩
    cases n with
    | action a => exact absurd ⟨name, heq⟩ (hf a).1
    | reference other => exact ⟨other, rfl⟩
    | _ => cases heq
  · intro n c hmem
    cases n with
    | action a =>
        rw [mapActions, (hf a).2] at hmem
        cases hmem
    | _ => simp_all [mapActions, children, mapActionsAll_eq_map]

theorem isPlain_tryEffects {ε : Type} (f : Action → Except ε Effect) :
    (∀ n m : Node, n.tryEffects f = .ok m → n.IsPlain → m.IsPlain) ∧
    ∀ nodes ms : List Node, tryEffectsAll f nodes = .ok ms → (∀ c ∈ nodes, c.IsPlain) →
      ∀ c ∈ ms, c.IsPlain := by
  refine forest_induction ?_ ?_ ?_
  · intro n ih m hm h
    obtain ⟨hn, hc⟩ := isPlain_iff.mp h
    cases n with
    | action a =>
        obtain ⟨effect, -, rfl⟩ := map_eq_ok.mp hm
        exact isPlain_action _
    | reference name => exact absurd ⟨name, rfl⟩ hn
    | noop =>
        cases hm
        exact h
    | _ =>
        obtain ⟨ms, hms, rfl⟩ := map_eq_ok.mp hm
        exact isPlain_of_children (by simp) (ih ms hms hc)
  · intro ms hms _
    cases hms
    intro _ hmem
    cases hmem
  · intro n rest hn hrest ms hms h
    obtain ⟨first, hfirst, hms⟩ := bind_eq_ok.mp hms
    obtain ⟨others, hothers, hms⟩ := bind_eq_ok.mp hms
    cases hms
    intro c hmem
    rcases List.mem_cons.mp hmem with rfl | hmem
    · exact hn _ hfirst (h n List.mem_cons_self)
    · exact hrest others hothers (fun d hd => h d (List.mem_cons_of_mem _ hd)) c hmem

end Node

namespace RuleTree.IsUnshared

variable {t : RuleTree}

theorem mapNodes {f : Node → Node} (hf : ∀ n : Node, n.IsPlain → (f n).IsPlain)
    (h : t.IsUnshared) : (t.mapNodes f).IsUnshared := by
  refine ⟨hf _ h.root, ?_⟩
  rw [RuleTree.mapNodes, h.bindings]
  rfl

theorem tryNodes {ε : Type} {f : Node → Except ε Node}
    (hf : ∀ n m : Node, f n = .ok m → n.IsPlain → m.IsPlain) (h : t.IsUnshared) {t' : RuleTree}
    (ht : t.tryNodes f = .ok t') : t'.IsUnshared := by
  obtain ⟨root, hroot, ht⟩ := bind_eq_ok.mp ht
  obtain ⟨bindings, hbindings, ht⟩ := bind_eq_ok.mp ht
  cases ht
  refine ⟨hf _ _ hroot h.root, ?_⟩
  rw [h.bindings] at hbindings
  cases hbindings
  rfl

end RuleTree.IsUnshared

/-! ### Edits of actions -/

/-- The effect does not look a key up. -/
def Effect.IsNoLookup (effect : Effect) : Prop :=
  ∀ target map key, effect ≠ .lookup target map key

/-- The action is dropped, kept, or replaced by one that looks nothing up. -/
def Action.BecomesNode (a : Action) (n : Node) : Prop :=
  n = .noop ∨ n = .action a ∨ ∃ b : Action, n = .action b ∧ b.effect.IsNoLookup

theorem Action.BecomesNode.isLeaf {a : Action} {n : Node} (h : a.BecomesNode n) :
    ¬ n.IsReference ∧ n.children = [] := by
  rcases h with rfl | rfl | ⟨b, rfl, -⟩ <;> exact ⟨(fun ⟨_, heq⟩ => nomatch heq), rfl⟩

namespace Calls

theorem becomesNode_sysvalNode (a : Action) : a.BecomesNode (sysvalNode a) := by
  unfold sysvalNode
  split
  · split
    · exact .inl rfl
    · exact .inr (.inl rfl)
  · exact .inr (.inl rfl)

theorem becomesNode_copyNode (a : Action) : a.BecomesNode (copyNode a) := by
  unfold copyNode
  split
  · split
    · exact .inl rfl
    · exact .inr (.inl rfl)
  · exact .inr (.inl rfl)

theorem becomesNode_specialNode (a : Action) : a.BecomesNode (specialNode a) := by
  unfold specialNode
  split
  · exact .inr (.inr ⟨_, rfl, fun _ _ _ heq => nomatch heq⟩)
  · exact .inr (.inl rfl)

theorem becomesNode_constantNode (a : Action) : a.BecomesNode (constantNode a) := by
  unfold constantNode
  split
  · split
    · split
      · exact .inr (.inr ⟨_, rfl, fun _ _ _ heq => nomatch heq⟩)
      · exact .inr (.inl rfl)
    · exact .inr (.inl rfl)
  · exact .inr (.inl rfl)

end Calls

/-! ### Passes -/

/-- The pass does not look at options and leaves trees without references and bindings as such. -/
structure Pass.Ordinary (pass : Pass) : Prop where
  options : ∀ config config', pass.apply config = pass.apply config'
  unshared : ∀ config t t' reports, pass.apply config t = .ok (t', reports) →
    t.IsUnshared → t'.IsUnshared

namespace Pass

theorem ordinary_check (name : String) (f : RuleTree → Except PassError Unit) :
    (check name f).Ordinary := by
  refine ⟨fun _ _ => rfl, fun config t t' reports h ht => ?_⟩
  obtain ⟨_, -, heq⟩ := map_eq_ok.mp h
  cases heq
  exact ht

theorem ordinary_change (name : String) {f : RuleTree → RuleTree}
    (hf : ∀ t : RuleTree, t.IsUnshared → (f t).IsUnshared) : (change name f).Ordinary := by
  refine ⟨fun _ _ => rfl, fun config t t' reports h ht => ?_⟩
  cases h
  exact hf t ht

theorem ordinary_tryChange (name : String) {f : RuleTree → Except PassError RuleTree}
    (hf : ∀ t t' : RuleTree, f t = .ok t' → t.IsUnshared → t'.IsUnshared) :
    (tryChange name f).Ordinary := by
  refine ⟨fun _ _ => rfl, fun config t t' reports h ht => ?_⟩
  obtain ⟨t₁, ht₁, heq⟩ := map_eq_ok.mp h
  cases heq
  exact hf t t' ht₁ ht

theorem ordinary_report (name : String) {f : RuleTree → RuleTree × List Diagnostic}
    (hf : ∀ t : RuleTree, t.IsUnshared → (f t).1.IsUnshared) : (report name f).Ordinary := by
  refine ⟨fun _ _ => rfl, fun config t t' reports h ht => ?_⟩
  have heq : f t = (t', reports) := Except.ok.inj h
  have hft := hf t ht
  rw [heq] at hft
  exact hft

/-- A pass on match rules. -/
theorem ordinary_mapRules (name : String) (f : MatchRule → MatchRule) :
    (change name (RuleTree.mapNodes (Node.mapRules f))).Ordinary :=
  ordinary_change name fun _ ht => ht.mapNodes fun _ => Node.isPlain_mapRules f

/-- A pass on actions. -/
theorem ordinary_mapActions (name : String) {f : Action → Node} (hf : ∀ a : Action, a.BecomesNode (f a)) :
    (change name (RuleTree.mapNodes (Node.mapActions f))).Ordinary :=
  ordinary_change name fun _ ht => ht.mapNodes fun _ => Node.isPlain_mapActions fun a => (hf a).isLeaf

/-- A pass on effects. -/
theorem ordinary_tryEffects (name : String) (f : RuleTree → Action → Except PassError Effect) :
    (tryChange name fun t => t.tryNodes (Node.tryEffects (f t))).Ordinary :=
  ordinary_tryChange name fun t _ h ht => ht.tryNodes (Node.isPlain_tryEffects (f t)).1 h

end Pass

/-! ### Runs -/

theorem Stage.runPasses_cons_eq_ok {stage : String} {config : Config} {t t' : RuleTree}
    {pass : Pass} {rest : List Pass} {reports : List Diagnostic} :
    runPasses stage config t (pass :: rest) = .ok (t', reports) ↔
      ∃ t₁ first others, pass.apply config t = .ok (t₁, first) ∧
        runPasses stage config t₁ rest = .ok (t', others) ∧ reports = first ++ others := by
  rw [runPasses]
  cases pass.apply config t with
  | error e =>
      constructor
      · exact fun h => nomatch h
      · exact fun ⟨_, _, _, h, _⟩ => nomatch h
  | ok result =>
      obtain ⟨t₁, first⟩ := result
      rw [map_eq_ok]
      constructor
      · rintro ⟨⟨t₂, others⟩, hrest, heq⟩
        cases heq
        exact ⟨t₁, first, others, rfl, hrest, rfl⟩
      · rintro ⟨t₂, first', others, heq, hrest, rfl⟩
        cases heq
        exact ⟨(t', others), hrest, rfl⟩

theorem Pipeline.run_cons_eq_ok {config : Config} {t t' : RuleTree} {stage : Stage}
    {rest : Pipeline} {reports : List Diagnostic} :
    Pipeline.run config t (stage :: rest) = .ok (t', reports) ↔
      ∃ t₁ first others, Stage.runPasses stage.name config t stage.passes = .ok (t₁, first) ∧
        Pipeline.run config t₁ rest = .ok (t', others) ∧ reports = first ++ others := by
  rw [run, bind_eq_ok]
  constructor
  · rintro ⟨⟨t₁, first⟩, hfirst, h⟩
    obtain ⟨⟨t₂, others⟩, hrest, heq⟩ := bind_eq_ok.mp h
    cases heq
    exact ⟨t₁, first, others, hfirst, hrest, rfl⟩
  · rintro ⟨t₁, first, others, hfirst, hrest, rfl⟩
    exact ⟨(t₁, first), hfirst, bind_eq_ok.mpr ⟨(t', others), hrest, rfl⟩⟩

theorem Pipeline.run_append_eq_ok {config : Config} {t t' : RuleTree} {stages stages' : Pipeline}
    {reports : List Diagnostic} :
    Pipeline.run config t (stages ++ stages') = .ok (t', reports) ↔
      ∃ t₁ first others, Pipeline.run config t stages = .ok (t₁, first) ∧
        Pipeline.run config t₁ stages' = .ok (t', others) ∧ reports = first ++ others := by
  induction stages generalizing t reports with
  | nil =>
      constructor
      · exact fun h => ⟨t, [], reports, rfl, h, rfl⟩
      · rintro ⟨t₁, first, others, hfirst, hrest, rfl⟩
        cases hfirst
        exact hrest
  | cons stage rest ih =>
      rw [List.cons_append, run_cons_eq_ok]
      constructor
      · rintro ⟨t₁, first, more, hstage, hmore, rfl⟩
        obtain ⟨t₂, second, others, hrest, hothers, rfl⟩ := ih.mp hmore
        refine ⟨t₂, first ++ second, others, ?_, hothers, (List.append_assoc ..).symm⟩
        exact run_cons_eq_ok.mpr ⟨t₁, first, second, hstage, hrest, rfl⟩
      · rintro ⟨t₂, both, others, hboth, hothers, rfl⟩
        obtain ⟨t₁, first, second, hstage, hrest, rfl⟩ := run_cons_eq_ok.mp hboth
        refine ⟨t₁, first, second ++ others, hstage, ?_, List.append_assoc ..⟩
        exact ih.mpr ⟨t₂, second, others, hrest, hothers, rfl⟩

/-- Ordinary passes do the same under all options and keep a tree unshared. -/
theorem Stage.runPasses_of_ordinary {stage : String} {config : Config} {t t' : RuleTree}
    {passes : List Pass} {reports : List Diagnostic} (hpasses : ∀ pass ∈ passes, pass.Ordinary)
    (ht : t.IsUnshared) (h : runPasses stage config t passes = .ok (t', reports)) :
    t'.IsUnshared ∧ ∀ config', runPasses stage config' t passes = .ok (t', reports) := by
  induction passes generalizing t reports with
  | nil =>
      cases h
      exact ⟨ht, fun _ => rfl⟩
  | cons pass rest ih =>
      obtain ⟨t₁, first, others, hpass, hrest, rfl⟩ := runPasses_cons_eq_ok.mp h
      have hordinary := hpasses pass List.mem_cons_self
      obtain ⟨ht', hsame⟩ := ih (fun p hp => hpasses p (List.mem_cons_of_mem _ hp))
        (hordinary.unshared config t t₁ first hpass ht) hrest
      refine ⟨ht', fun config' => runPasses_cons_eq_ok.mpr ⟨t₁, first, others, ?_, hsame config', rfl⟩⟩
      exact hordinary.options config config' ▸ hpass

/-- Stages of ordinary passes do the same under all options and keep a tree unshared. -/
theorem Pipeline.run_of_ordinary {config : Config} {t t' : RuleTree} {stages : Pipeline}
    {reports : List Diagnostic} (hstages : ∀ stage ∈ stages, ∀ pass ∈ stage.passes, pass.Ordinary)
    (ht : t.IsUnshared) (h : Pipeline.run config t stages = .ok (t', reports)) :
    t'.IsUnshared ∧ ∀ config', Pipeline.run config' t stages = .ok (t', reports) := by
  induction stages generalizing t reports with
  | nil =>
      cases h
      exact ⟨ht, fun _ => rfl⟩
  | cons stage rest ih =>
      obtain ⟨t₁, first, others, hstage, hrest, rfl⟩ := run_cons_eq_ok.mp h
      obtain ⟨ht₁, hsame₁⟩ :=
        Stage.runPasses_of_ordinary (hstages stage List.mem_cons_self) ht hstage
      obtain ⟨ht', hsame⟩ := ih (fun s hs => hstages s (List.mem_cons_of_mem _ hs)) ht₁ hrest
      exact ⟨ht', fun config' =>
        run_cons_eq_ok.mpr ⟨t₁, first, others, hsame₁ config', hsame config', rfl⟩⟩

/-! ### The standard pipeline -/

namespace Pass

theorem ordinary_removeNoops : removeNoops.Ordinary :=
  ordinary_change _ fun _ ht => ht.mapNodes fun _ => Node.isPlain_dropNoops

theorem ordinary_consecutiveCaptures : consecutiveCaptures.Ordinary :=
  ordinary_report _ fun _ ht => ht.mapNodes fun _ => Node.isPlain_mapRules _

theorem ordinary_selectTimestamp : selectTimestamp.Ordinary :=
  ordinary_report _ fun _ ht => ⟨ht.root, ht.bindings⟩

theorem ordinary_stripSysval : stripSysval.Ordinary :=
  ordinary_mapActions _ Calls.becomesNode_sysvalNode

theorem ordinary_stripSameFieldCopies : stripSameFieldCopies.Ordinary :=
  ordinary_mapActions _ Calls.becomesNode_copyNode

theorem ordinary_removeSpecialFields : removeSpecialFields.Ordinary :=
  ordinary_mapActions _ Calls.becomesNode_specialNode

theorem ordinary_evalConstantFunctions : evalConstantFunctions.Ordinary :=
  ordinary_mapActions _ Calls.becomesNode_constantNode

end Pass

/-- The stages of the standard pipeline before shared nodes are extracted. -/
def Pipeline.beforeSharing (config : Config) : Pipeline := (standard config).take 3

/-- What holds of every check, of the two edits of stage two and of the ten transforms holds of all passes
before sharing. -/
theorem Pipeline.forall_beforeSharing {P : Pass → Prop} (config : Config)
    (hchecks : ∀ name f, P (.check name f))
    (hpre : P .stripLeadingSpace ∧ P .recordPayloadField)
    (htransforms : List.Forall P [.valueMapReferences, .assignmentCalls, .stripSysval,
      .stripSameFieldCopies, .removeSpecialFields, .convertTimeCalls, .removeNoops,
      .consecutiveCaptures, .alternativesEndingInCapture, .selectTimestamp]) :
    ∀ stage ∈ beforeSharing config, ∀ pass ∈ stage.passes, P pass := by
  intro stage hstage pass hpass
  simp only [beforeSharing, standard, List.take_succ_cons, List.take_zero, List.mem_cons,
    List.not_mem_nil, or_false] at hstage
  rcases hstage with rfl | rfl | rfl
  · simp only [List.mem_cons, List.not_mem_nil, or_false] at hpass
    rcases hpass with rfl | rfl | rfl | rfl <;> exact hchecks _ _
  · rcases List.mem_append.mp hpass with hpass | hpass
    · split at hpass
      · cases List.mem_singleton.mp hpass
        exact hpre.1
      · cases hpass
    · cases List.mem_singleton.mp hpass
      exact hpre.2
  · exact List.forall_iff_forall_mem.mp htransforms pass hpass

theorem Pipeline.ordinary_beforeSharing (config : Config) :
    ∀ stage ∈ beforeSharing config, ∀ pass ∈ stage.passes, pass.Ordinary := by
  refine forall_beforeSharing config Pass.ordinary_check
    ⟨Pass.ordinary_mapRules _ _, Pass.ordinary_mapRules _ _⟩ ⟨?_, ?_, ?_, ?_, ?_, ?_, ?_, ?_, ?_, ?_⟩
  · exact Pass.ordinary_tryEffects _ fun t => Calls.lookupEffect t.valueMaps.keys
  · exact Pass.ordinary_tryEffects _ fun _ => Calls.assignmentEffect
  · exact Pass.ordinary_stripSysval
  · exact Pass.ordinary_stripSameFieldCopies
  · exact Pass.ordinary_removeSpecialFields
  · exact Pass.ordinary_tryEffects _ fun _ => Calls.timeEffect
  · exact Pass.ordinary_removeNoops
  · exact Pass.ordinary_consecutiveCaptures
  · exact Pass.ordinary_mapRules ..
  · exact Pass.ordinary_selectTimestamp

end LogRules

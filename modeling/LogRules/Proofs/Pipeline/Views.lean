import LogRules.Proofs.Pipeline.Unshared
import LogRules.Proofs.Processing.Dispatch
import LogRules.Proofs.Tree.LocalEdits

/-! # Passes edit what a message is shown

A local edit of a root edits the view of every id and of no id node by node (`Node.view?_edit`). All passes
before shared nodes are extracted make local edits (`Pipeline.isLocal_beforeSharing`), so trees which look
alike to messages of an id look alike after them (`Pipeline.run_looksAlike`), whatever the nodes of other ids
are. -/

namespace LogRules

/-! ### Local edits of views -/

section Forall

variable {α β : Type} {f : α → Option β} {xs : List α} {ys : List β}

theorem filterMap_of_forall₂ (h : List.Forall₂ (fun x y => f x = some y) xs ys) : xs.filterMap f = ys := by
  induction h with
  | nil => rfl
  | cons hx _ ih => rw [List.filterMap_cons_some hx, ih]

theorem getElem?_of_forall₂ (h : List.Forall₂ (fun x y => f x = some y) xs ys) (i : Nat) :
    ys[i]? = xs[i]?.bind f := by
  induction h generalizing i with
  | nil => rfl
  | cons hx _ ih =>
      cases i with
      | zero => exact hx.symm
      | succ i => exact ih i

end Forall

/-- The view with every node edited. -/
def View.edit (f : Node → Option Node) (v : View) : View := ⟨v.headers.filterMap f, v.message?.bind f⟩

namespace Node

variable {f : Node → Option Node}

theorem part?_edit (hf : IsLocal f) {id? : Option String} {n m : Node} {v : View} (hm : f n = some m)
    (hv : n.part? id? = some v) : m.part? id? = some (v.edit f) := by
  obtain ⟨index, nodes, rfl, hmessage⟩ := part?_eq_some hv
  obtain ⟨parts, rfl, hparts⟩ := hf.branches (.chain _) hm
  obtain _ | ⟨hfirst, hparts⟩ := hparts
  obtain _ | ⟨hsecond, hparts⟩ := hparts
  cases hparts
  obtain ⟨headers, rfl, hheaders⟩ := hf.branches (.linearSelect _) hfirst
  obtain ⟨nodes', rfl, hnodes⟩ := hf.branches (.messageIdSelect _ _) hsecond
  have hmessage' : (v.edit f).message? =
      id?.bind fun id => (index.get? id).bind fun i => nodes'[i]? := by
    rw [View.edit, hmessage]
    simp only [Option.bind_assoc, getElem?_of_forall₂ hnodes]
    rfl
  show some (View.mk headers _) = some (View.mk _ (v.edit f).message?)
  rw [hmessage']
  exact congrArg (fun hs => some (View.mk hs _)) (filterMap_of_forall₂ hheaders).symm

/-- An edit of a root edits the view node by node. -/
theorem view?_edit (hf : IsLocal f) {id? : Option String} {n m : Node} {v : View} (hm : f n = some m)
    (hv : n.view? id? = some v) : m.view? id? = some (v.edit f) := by
  refine part?_edit hf ?_ hv
  rw [hf.labels, hm, Option.map_some]

end Node

/-! ### Trees that look alike -/

/-- Messages with this id, or without one, are shown the same of both trees. -/
structure RuleTree.LooksAlike (id? : Option String) (t t' : RuleTree) : Prop where
  valueMaps : t'.valueMaps = t.valueMaps
  view : ∃ v, t.root.view? id? = some v ∧ t'.root.view? id? = some v

/-- The pass makes an edit of the root that is local, and at most looks at the names of value maps. -/
def Pass.IsLocal (pass : Pass) : Prop :=
  ∃ f : List String → Node → Option Node, (∀ maps, Node.IsLocal (f maps)) ∧
    ∀ config t t' reports, pass.apply config t = .ok (t', reports) →
      t'.valueMaps = t.valueMaps ∧ f t.valueMaps.keys t.root = some t'.root

section Runs

variable {id? : Option String} {config : Config} {t t' t₁ t₁' : RuleTree} {reports reports' : List Diagnostic}

theorem Pass.IsLocal.looksAlike {pass : Pass} (hpass : pass.IsLocal)
    (h : pass.apply config t = .ok (t₁, reports)) (h' : pass.apply config t' = .ok (t₁', reports'))
    (halike : t.LooksAlike id? t') : t₁.LooksAlike id? t₁' := by
  obtain ⟨f, hf, hedit⟩ := hpass
  obtain ⟨hmaps, hroot⟩ := hedit config t t₁ reports h
  obtain ⟨hmaps', hroot'⟩ := hedit config t' t₁' reports' h'
  obtain ⟨v, hv, hv'⟩ := halike.view
  rw [halike.valueMaps] at hroot'
  refine ⟨hmaps'.trans (halike.valueMaps.trans hmaps.symm), v.edit (f t.valueMaps.keys), ?_, ?_⟩
  · exact Node.view?_edit (hf _) hroot hv
  · exact Node.view?_edit (hf _) hroot' hv'

theorem Stage.runPasses_looksAlike {stage : String} {passes : List Pass}
    (hpasses : ∀ pass ∈ passes, pass.IsLocal)
    (h : runPasses stage config t passes = .ok (t₁, reports))
    (h' : runPasses stage config t' passes = .ok (t₁', reports'))
    (halike : t.LooksAlike id? t') : t₁.LooksAlike id? t₁' := by
  induction passes generalizing t t' reports reports' with
  | nil =>
      cases h
      cases h'
      exact halike
  | cons pass rest ih =>
      obtain ⟨t₂, first, others, hpass, hrest, -⟩ := runPasses_cons_eq_ok.mp h
      obtain ⟨t₂', first', others', hpass', hrest', -⟩ := runPasses_cons_eq_ok.mp h'
      have hnext := (hpasses pass List.mem_cons_self).looksAlike hpass hpass' halike
      exact ih (fun p hp => hpasses p (List.mem_cons_of_mem _ hp)) hrest hrest' hnext

theorem Pipeline.run_looksAlike {stages : Pipeline}
    (hstages : ∀ stage ∈ stages, ∀ pass ∈ stage.passes, pass.IsLocal)
    (h : Pipeline.run config t stages = .ok (t₁, reports))
    (h' : Pipeline.run config t' stages = .ok (t₁', reports'))
    (halike : t.LooksAlike id? t') : t₁.LooksAlike id? t₁' := by
  induction stages generalizing t t' reports reports' with
  | nil =>
      cases h
      cases h'
      exact halike
  | cons stage rest ih =>
      obtain ⟨t₂, first, others, hstage, hrest, -⟩ := run_cons_eq_ok.mp h
      obtain ⟨t₂', first', others', hstage', hrest', -⟩ := run_cons_eq_ok.mp h'
      have hnext := Stage.runPasses_looksAlike (hstages stage List.mem_cons_self) hstage hstage' halike
      exact ih (fun s hs => hstages s (List.mem_cons_of_mem _ hs)) hrest hrest' hnext

end Runs

/-! ### Kinds of passes -/

namespace Pass

theorem isLocal_check (name : String) (f : RuleTree → Except PassError Unit) : (check name f).IsLocal := by
  refine ⟨fun _ => some, fun _ => Node.isLocal_some, fun config t t' reports h => ?_⟩
  obtain ⟨_, -, heq⟩ := map_eq_ok.mp h
  cases heq
  exact ⟨rfl, rfl⟩

/-- A pass that edits nodes. -/
theorem isLocal_mapNodes (name : String) {g : Node → Node} (hg : Node.IsLocal fun n => some (g n)) :
    (change name (RuleTree.mapNodes g)).IsLocal := by
  refine ⟨fun _ n => some (g n), fun _ => hg, fun config t t' reports h => ?_⟩
  cases h
  exact ⟨rfl, rfl⟩

/-- A pass on match rules. -/
theorem isLocal_mapRules (name : String) {f : MatchRule → MatchRule}
    (hf : ∀ rule : MatchRule, f rule.unlabelled = (f rule).unlabelled) :
    (change name (RuleTree.mapNodes (Node.mapRules f))).IsLocal :=
  isLocal_mapNodes name (Node.isLocal_mapRules hf)

/-- A pass on actions. -/
theorem isLocal_mapActions (name : String) {f : Action → Node}
    (hf : ∀ a : Action, f a.unlabelled = (f a).unlabelled) :
    (change name (RuleTree.mapNodes (Node.mapActions f))).IsLocal :=
  isLocal_mapNodes name (Node.isLocal_mapActions hf)

/-- A pass on effects. -/
theorem isLocal_tryEffects (name : String) {f : List String → Action → Except PassError Effect}
    (hf : ∀ maps (a : Action), (f maps a.unlabelled).toOption = (f maps a).toOption) :
    (tryChange name fun t => t.tryNodes (Node.tryEffects (f t.valueMaps.keys))).IsLocal := by
  refine ⟨fun maps n => (n.tryEffects (f maps)).toOption,
    fun maps => Node.isLocal_tryEffects (hf maps), fun config t t' reports h => ?_⟩
  obtain ⟨t₁, ht₁, heq⟩ := map_eq_ok.mp h
  cases heq
  obtain ⟨root, hroot, ht₁⟩ := bind_eq_ok.mp ht₁
  obtain ⟨bindings, -, ht₁⟩ := bind_eq_ok.mp ht₁
  cases ht₁
  exact ⟨rfl, congrArg Except.toOption hroot⟩

theorem isLocal_removeNoops : removeNoops.IsLocal := isLocal_mapNodes _ Node.isLocal_dropNoops

end Pass

/-! ### Labels in the passes -/

namespace Spacing

theorem onPattern_unlabelled (f : Pattern → Pattern) (rule : MatchRule) :
    onPattern f rule.unlabelled = (onPattern f rule).unlabelled := rfl

theorem stripMessageRule_unlabelled (rule : MatchRule) :
    stripMessageRule rule.unlabelled = (stripMessageRule rule).unlabelled := by
  unfold stripMessageRule
  cases h : rule.input == payloadInput <;> simp [MatchRule.unlabelled, h, onPattern]

end Spacing

theorem Payload.recordField_unlabelled (rule : MatchRule) :
    recordField rule.unlabelled = (recordField rule).unlabelled := by
  unfold recordField
  cases h : rule.input == messageInput <;> simp [MatchRule.unlabelled, h]

namespace Calls

theorem sysvalNode_unlabelled (a : Action) : sysvalNode a.unlabelled = (sysvalNode a).unlabelled := by
  obtain ⟨effect, source⟩ := a
  cases effect with
  | call inv =>
      simp only [sysvalNode, call?, Action.unlabelled]
      split <;> rfl
  | _ => rfl

theorem copyNode_unlabelled (a : Action) : copyNode a.unlabelled = (copyNode a).unlabelled := by
  obtain ⟨effect, source⟩ := a
  cases effect with
  | setField target value =>
      simp only [copyNode, Action.unlabelled]
      split <;> rfl
  | _ => rfl

theorem specialNode_unlabelled (a : Action) : specialNode a.unlabelled = (specialNode a).unlabelled := by
  obtain ⟨effect, source⟩ := a
  cases effect <;> rfl

theorem constantNode_unlabelled (a : Action) : constantNode a.unlabelled = (constantNode a).unlabelled := by
  obtain ⟨effect, source⟩ := a
  cases effect with
  | call inv =>
      simp only [constantNode, Action.unlabelled]
      split
      · cases inv.args.mapM Value.constant? <;> rfl
      · rfl
  | _ => rfl

/-- The place of an action only occurs in errors. -/
theorem lookupEffect_unlabelled (maps : List String) (a : Action) :
    (lookupEffect maps a.unlabelled).toOption = (lookupEffect maps a).toOption := by
  obtain ⟨effect, source⟩ := a
  cases effect with
  | call inv =>
      simp only [lookupEffect, Action.unlabelled]
      split
      · obtain ⟨target, function, args⟩ := inv
        rcases args with _ | ⟨key, _ | ⟨other, rest⟩⟩ <;> rfl
      · rfl
  | _ => rfl

theorem onlyArg_unlabelled (a : Action) (inv : Invocation) :
    (onlyArg a.unlabelled inv).toOption = (onlyArg a inv).toOption := by
  obtain ⟨target, function, args⟩ := inv
  rcases args with _ | ⟨arg, _ | ⟨other, rest⟩⟩ <;> rfl

theorem assignmentEffect_unlabelled (a : Action) :
    (assignmentEffect a.unlabelled).toOption = (assignmentEffect a).toOption := by
  have hargs := onlyArg_unlabelled a
  obtain ⟨effect, source⟩ := a
  cases effect with
  | call inv =>
      simp only [assignmentEffect, Action.unlabelled] at hargs ⊢
      split
      · rw [toOption_map, toOption_map, hargs]
      · split
        · rw [toOption_map, toOption_map, hargs]
        · rfl
  | _ => rfl

theorem fieldArg_unlabelled (a : Action) (inv : Invocation) (arg : Value) :
    (fieldArg a.unlabelled inv arg).toOption = (fieldArg a inv arg).toOption := by
  cases arg <;> rfl

theorem formatArg_unlabelled (a : Action) (inv : Invocation) (text : String) :
    (formatArg a.unlabelled inv text).toOption = (formatArg a inv text).toOption := by
  unfold formatArg
  cases TimeFormat.read text <;> rfl

theorem timeReading_unlabelled (a : Action) (inv : Invocation) :
    (timeReading a.unlabelled inv).toOption = (timeReading a inv).toOption := by
  unfold timeReading
  dsimp only
  split
  · rfl
  · split
    · rfl
    · simp only [toOption_bind]
      rw [toOption_mapM fun arg _ => fieldArg_unlabelled a inv arg,
        toOption_mapM fun text _ => formatArg_unlabelled a inv text]

theorem timeEffect_unlabelled (a : Action) :
    (timeEffect a.unlabelled).toOption = (timeEffect a).toOption := by
  have hreading := timeReading_unlabelled a
  obtain ⟨effect, source⟩ := a
  cases effect with
  | call inv =>
      simp only [timeEffect, Action.unlabelled] at hreading ⊢
      split
      · rw [toOption_bind, toOption_bind, hreading]
      · rfl
  | _ => rfl

end Calls

/-! ### The standard pipeline -/

namespace Pass

theorem isLocal_stripLeadingSpace : stripLeadingSpace.IsLocal :=
  isLocal_mapRules _ Spacing.stripMessageRule_unlabelled

theorem isLocal_recordPayloadField : recordPayloadField.IsLocal :=
  isLocal_mapRules _ Payload.recordField_unlabelled

theorem isLocal_consecutiveCaptures : consecutiveCaptures.IsLocal := by
  have hlocal := Node.isLocal_mapRules (Spacing.onPattern_unlabelled Pattern.separateCaptures)
  refine ⟨fun _ n => some (n.mapRules _), fun _ => hlocal, fun config t t' reports h => ?_⟩
  cases h
  exact ⟨rfl, rfl⟩

theorem isLocal_selectTimestamp : selectTimestamp.IsLocal := by
  refine ⟨fun _ => some, fun _ => Node.isLocal_some, fun config t t' reports h => ?_⟩
  cases h
  exact ⟨rfl, rfl⟩

theorem isLocal_evalConstantFunctions : evalConstantFunctions.IsLocal :=
  isLocal_mapActions _ Calls.constantNode_unlabelled

end Pass

theorem Pipeline.isLocal_beforeSharing (config : Config) :
    ∀ stage ∈ beforeSharing config, ∀ pass ∈ stage.passes, pass.IsLocal := by
  refine forall_beforeSharing config Pass.isLocal_check
    ⟨Pass.isLocal_stripLeadingSpace, Pass.isLocal_recordPayloadField⟩
    ⟨?_, ?_, ?_, ?_, ?_, ?_, ?_, ?_, ?_, ?_⟩
  · exact Pass.isLocal_tryEffects _ Calls.lookupEffect_unlabelled
  · exact Pass.isLocal_tryEffects _ fun _ => Calls.assignmentEffect_unlabelled
  · exact Pass.isLocal_mapActions _ Calls.sysvalNode_unlabelled
  · exact Pass.isLocal_mapActions _ Calls.copyNode_unlabelled
  · exact Pass.isLocal_mapActions _ Calls.specialNode_unlabelled
  · exact Pass.isLocal_tryEffects _ fun _ => Calls.timeEffect_unlabelled
  · exact Pass.isLocal_removeNoops
  · exact Pass.isLocal_consecutiveCaptures
  · exact Pass.isLocal_mapRules _ (Spacing.onPattern_unlabelled _)
  · exact Pass.isLocal_selectTimestamp

end LogRules

import LogRules.Build
import LogRules.Proofs.Pipeline.Assembled
import LogRules.Proofs.Processing.Inlining
import LogRules.Proofs.Sharing.Nodes
import LogRules.Proofs.Sharing.Sizes

/-! # Sharing and processing

A build that shares nodes runs the passes of a build that does not, extracts shared nodes from the
tree that the other build ends with, and checks the result (`Parser.build_withSharing`). When the
extraction takes no two nodes for one that differ in more than labels, the result passes unless it has
too many nodes, and every message gets the fields and errors that it gets without sharing
(`Parser.sharing_invisible`). -/

namespace LogRules

/-- The options with other settings for sharing. -/
def Config.withSharing (config : Config) (globalEntities detectDuplicates : Bool) : Config :=
  { config with globalEntities, detectDuplicates }

namespace Calls

/-! ### What the last checks accept -/

/-- The check of nodes from a place on stays within the limit and accepts every node. -/
theorem checkNodesFrom_eq_ok {bindings : List String} {nodes : List Node} {count : Nat}
    (hcount : count ≤ RuleTree.nodeLimit) :
    checkNodesFrom bindings count nodes = .ok () ↔
      count + nodes.length ≤ RuleTree.nodeLimit ∧ ∀ n ∈ nodes, checkNode bindings n = .ok () := by
  induction nodes generalizing count with
  | nil => exact ⟨fun _ => ⟨hcount, List.forall_mem_nil _⟩, fun _ => rfl⟩
  | cons n rest ih =>
      rw [checkNodesFrom, List.length_cons, List.forall_mem_cons]
      by_cases hlimit : count + 1 > RuleTree.nodeLimit
      · rw [if_pos hlimit]
        refine iff_of_false (fun h => ?_) (fun h => by omega)
        cases h
      · rw [if_neg hlimit, bind_eq_ok]
        constructor
        · rintro ⟨⟨⟩, hn, hrest⟩
          obtain ⟨hle, hall⟩ := (ih (Nat.le_of_not_lt hlimit)).mp hrest
          exact ⟨by omega, hn, hall⟩
        · rintro ⟨hle, hn, hall⟩
          exact ⟨(), hn, (ih (Nat.le_of_not_lt hlimit)).mpr ⟨by omega, hall⟩⟩

/-- The check of nodes accepts a tree within the limit whose nodes it accepts. -/
theorem checkNodes_eq_ok {t : RuleTree} :
    checkNodes t = .ok () ↔ t.nodes.length ≤ RuleTree.nodeLimit ∧
      ∀ n ∈ t.nodes, checkNode t.bindings.keys n = .ok () := by
  rw [checkNodes, checkNodesFrom_eq_ok (Nat.zero_le _), Nat.zero_add]

theorem checkNodesFrom_eq_error {bindings : List String} {nodes : List Node} {count : Nat} {e : PassError}
    (h : checkNodesFrom bindings count nodes = .error e) :
    (∃ n ∈ nodes, checkNode bindings n = .error e) ∨
      RuleTree.nodeLimit < count + nodes.length ∧ e = limitError := by
  induction nodes generalizing count with
  | nil => cases h
  | cons n rest ih =>
      rw [checkNodesFrom] at h
      split at h
      · next hlimit =>
          cases h
          rw [List.length_cons]
          exact .inr ⟨by omega, rfl⟩
      · cases hn : checkNode bindings n with
        | error e' =>
            rw [hn] at h
            cases h
            exact .inl ⟨n, List.mem_cons_self, hn⟩
        | ok u =>
            rw [hn] at h
            rcases ih h with ⟨m, hm, herror⟩ | ⟨hlimit, rfl⟩
            · exact .inl ⟨m, List.mem_cons_of_mem _ hm, herror⟩
            · rw [List.length_cons]
              exact .inr ⟨by omega, rfl⟩

/-- The check of nodes fails for one of them, or for their number. -/
theorem checkNodes_eq_error {t : RuleTree} {e : PassError} (h : checkNodes t = .error e) :
    (∃ n ∈ t.nodes, checkNode t.bindings.keys n = .error e) ∨
      RuleTree.nodeLimit < t.nodes.length ∧ e = limitError := by
  rw [checkNodes] at h
  simpa only [Nat.zero_add] using checkNodesFrom_eq_error h

theorem checkNode_action_eq_ok {bindings : List String} {a : Action} :
    checkNode bindings (.action a) = .ok () ↔
      ∀ inv, a.effect = .call inv → ¬ (inv.target.isEmpty && inv.function != "SYSVAL") := by
  obtain ⟨effect, source⟩ := a
  cases effect with
  | call inv =>
      simp only [checkNode, call?]
      constructor
      · rintro h inv' heq hempty
        cases heq
        rw [if_pos hempty] at h
        cases h
      · exact fun h => if_neg (h inv rfl)
  | _ => exact ⟨(fun _ _ heq => nomatch heq), fun _ => rfl⟩

theorem checkRunsOf_eq_ok {a : Action} :
    checkRunsOf a = .ok () ↔
      ∀ inv, a.effect = .call inv → ∃ b, Builtin.ofName? inv.function = some b ∧ ¬ b.replaced := by
  obtain ⟨effect, source⟩ := a
  cases effect with
  | call inv =>
      simp only [checkRunsOf, call?]
      constructor
      · rintro h inv' heq
        cases heq
        cases hb : Builtin.ofName? inv.function with
        | none =>
            rw [hb] at h
            cases h
        | some b =>
            refine ⟨b, rfl, fun hreplaced => ?_⟩
            simp only [hb, hreplaced, if_true] at h
            cases h
      · intro h
        obtain ⟨b, hb, hreplaced⟩ := h inv rfl
        simp only [hb]
        exact if_neg hreplaced
  | _ => exact ⟨(fun _ _ heq => nomatch heq), fun _ => rfl⟩

end Calls

namespace Sharing.Represents

variable {t t' : RuleTree} {μ : Meanings}

/-- An action of a shared tree is an action of the tree that it was taken from, up to its place. -/
theorem exists_action (h : Represents t.root μ t') {a : Action} (ha : .action a ∈ t'.nodes) :
    ∃ b : Action, .action b ∈ t.nodes ∧ b.effect = a.effect := by
  have hmem := h.meaning_mem ha
  rw [Node.preorder_unlabelled] at hmem
  obtain ⟨m, hm, heq⟩ := List.mem_map.mp hmem
  cases m with
  | action b =>
      have heffect := congrArg Action.effect (Node.action.inj heq)
      exact ⟨b, RuleTree.mem_nodes_of_root hm, heffect⟩
  | _ => cases heq

/-- The nodes of a shared tree pass the check of calls and references. -/
theorem checkNode_eq_ok (h : Represents t.root μ t') (ht : t.IsUnshared)
    (hcheck : Calls.checkNodes t = .ok ()) : ∀ n ∈ t'.nodes, Calls.checkNode t'.bindings.keys n = .ok () := by
  intro n hn
  cases n with
  | action a =>
      obtain ⟨b, hb, heffect⟩ := h.exists_action hn
      have hok := Calls.checkNode_action_eq_ok.mp ((Calls.checkNodes_eq_ok.mp hcheck).2 _ hb)
      rw [heffect] at hok
      exact Calls.checkNode_action_eq_ok.mpr hok
  | reference name => exact if_pos (h.bound ht.root hn)
  | _ => rfl

/-- A shared tree passes the check of nodes, unless it has too many. -/
theorem checkNodes_eq (h : Represents t.root μ t') (ht : t.IsUnshared) (hcheck : Calls.checkNodes t = .ok ()) :
    Calls.checkNodes t' =
      if t'.nodes.length ≤ RuleTree.nodeLimit then .ok () else .error Calls.limitError := by
  have hnodes := h.checkNode_eq_ok ht hcheck
  split
  · next hlimit => exact Calls.checkNodes_eq_ok.mpr ⟨hlimit, hnodes⟩
  · next hlimit =>
      cases herror : Calls.checkNodes t' with
      | ok u => exact absurd (Calls.checkNodes_eq_ok.mp herror).1 hlimit
      | error e =>
          rcases Calls.checkNodes_eq_error herror with ⟨n, hn, hfails⟩ | ⟨-, rfl⟩
          · rw [hnodes n hn] at hfails
            cases hfails
          · rfl

/-- A shared tree passes the check of functions. -/
theorem checkRuns_eq_ok (h : Represents t.root μ t') (hcheck : Calls.checkRuns t = .ok ()) :
    Calls.checkRuns t' = .ok () := by
  refine forM_eq_ok.mpr fun a ha => ?_
  obtain ⟨b, hb, heffect⟩ := h.exists_action (RuleTree.mem_actions.mp ha)
  have hok := Calls.checkRunsOf_eq_ok.mp (forM_eq_ok.mp hcheck _ (RuleTree.mem_actions.mpr hb))
  rw [heffect] at hok
  exact Calls.checkRunsOf_eq_ok.mpr hok

end Sharing.Represents

namespace Pipeline

/-! ### The standard pipeline with and without sharing -/

/-- The stage that folds constants, and extracts shared nodes if the options say so. -/
def optimizations (config : Config) : Stage :=
  ⟨"optimizations", .evalConstantFunctions ::
    (if config.detectDuplicates || config.globalEntities then [.extractShared] else [])⟩

/-- The checks at the end. -/
def validations : Stage := ⟨"validations", [.validate, .unknownFunctionCalls]⟩

theorem standard_eq (config : Config) :
    standard config = beforeSharing config ++ [optimizations config, validations] := rfl

/-- A check leaves the tree as it is. -/
theorem runPasses_check_cons_eq_ok {stage name : String} {config : Config} {t : RuleTree}
    {f : RuleTree → Except PassError Unit} {rest : List Pass}
    {result : RuleTree × List Diagnostic} :
    Stage.runPasses stage config t (.check name f :: rest) = .ok result ↔
      f t = .ok () ∧ Stage.runPasses stage config t rest = .ok result := by
  obtain ⟨t', reports⟩ := result
  rw [Stage.runPasses_cons_eq_ok]
  constructor
  · rintro ⟨t₁, first, others, hcheck, hrest, rfl⟩
    obtain ⟨_, hf, heq⟩ := map_eq_ok.mp hcheck
    cases heq
    exact ⟨hf, hrest⟩
  · rintro ⟨hf, hrest⟩
    exact ⟨t, [], reports, map_eq_ok.mpr ⟨(), hf, rfl⟩, hrest, rfl⟩

theorem runPasses_validations {config : Config} {t : RuleTree}
    {result : RuleTree × List Diagnostic} :
    Stage.runPasses validations.name config t validations.passes = .ok result ↔
      Calls.checkNodes t = .ok () ∧ Calls.checkRuns t = .ok () ∧ result = (t, []) := by
  unfold validations Pass.validate Pass.unknownFunctionCalls
  rw [runPasses_check_cons_eq_ok, runPasses_check_cons_eq_ok, Stage.runPasses, Except.ok.injEq,
    eq_comm (a := result)]

/-- Constants are folded before nodes are shared. Without sharing nothing else happens, and the
extraction without options does nothing either. -/
theorem runPasses_optimizations (config : Config) (t : RuleTree) :
    Stage.runPasses (optimizations config).name config t (optimizations config).passes =
      .ok (Sharing.extractShared config (Calls.foldConstants t), []) := by
  unfold optimizations
  cases hd : config.detectDuplicates with
  | true => rfl
  | false =>
      cases hg : config.globalEntities with
      | true => rfl
      | false => simp [Stage.runPasses, Pass.evalConstantFunctions, Pass.change,
          Sharing.extractShared, hd, hg]

/-- A run of the standard pipeline: the passes before sharing, the extraction, and the checks of
what it gives. -/
theorem run_standard_eq_ok {config : Config} {t t' : RuleTree} {reports : List Diagnostic} :
    (standard config).run config t = .ok (t', reports) ↔
      ∃ t₁, (beforeSharing config).run config t = .ok (t₁, reports) ∧
        t' = Sharing.extractShared config (Calls.foldConstants t₁) ∧
        Calls.checkNodes t' = .ok () ∧ Calls.checkRuns t' = .ok () := by
  rw [standard_eq, run_append_eq_ok]
  constructor
  · rintro ⟨t₁, first, others, hfirst, hothers, rfl⟩
    obtain ⟨t₂, second, third, hopt, hlast, rfl⟩ := run_cons_eq_ok.mp hothers
    rw [runPasses_optimizations] at hopt
    cases hopt
    obtain ⟨t₃, fourth, fifth, hval, hnil, rfl⟩ := run_cons_eq_ok.mp hlast
    obtain ⟨hnodes, hruns, heq⟩ := runPasses_validations.mp hval
    cases heq
    cases hnil
    simp only [List.append_nil]
    exact ⟨t₁, hfirst, rfl, hnodes, hruns⟩
  · rintro ⟨t₁, hfirst, rfl, hnodes, hruns⟩
    refine ⟨t₁, reports, [], hfirst, ?_, (List.append_nil _).symm⟩
    refine run_cons_eq_ok.mpr ⟨_, [], [], runPasses_optimizations config t₁, ?_, rfl⟩
    refine run_cons_eq_ok.mpr ⟨_, [], [], ?_, rfl, rfl⟩
    exact runPasses_validations.mpr ⟨hnodes, hruns, rfl⟩

theorem run_append_of_eq_ok {config : Config} {t t₁ : RuleTree} {stages rest : Pipeline}
    {first : List Diagnostic} (h : Pipeline.run config t stages = .ok (t₁, first)) :
    Pipeline.run config t (stages ++ rest) =
      (fun result => (result.1, first ++ result.2)) <$> Pipeline.run config t₁ rest := by
  induction stages generalizing t first with
  | nil =>
      cases h
      exact (id_map _).symm
  | cons stage others ih =>
      obtain ⟨t₂, second, third, hstage, hothers, rfl⟩ := run_cons_eq_ok.mp h
      rw [List.cons_append, run, hstage]
      show (run config t₂ (others ++ rest) >>= _) = _
      rw [ih hothers]
      cases run config t₁ rest with
      | error e => rfl
      | ok result => exact congrArg Except.ok (congrArg _ (List.append_assoc ..).symm)

theorem runPasses_validations_eq_error {config : Config} {t : RuleTree} {e : PassError}
    (hcheck : Calls.checkNodes t = .error e) :
    Stage.runPasses validations.name config t validations.passes =
      .error ⟨"validations", "generic validations", e⟩ := by
  have hvalidate : Pass.validate.apply config t = .error e := by
    show (fun _ => (t, [])) <$> Calls.checkNodes t = _
    rw [hcheck]
    rfl
  unfold validations
  rw [Stage.runPasses, hvalidate]
  rfl

/-- The error of the check of calls is the error of the run. -/
theorem run_standard_eq_error {config : Config} {t t₁ : RuleTree} {more : List Diagnostic} {e : PassError}
    (hbefore : (beforeSharing config).run config t = .ok (t₁, more))
    (hcheck : Calls.checkNodes (Sharing.extractShared config (Calls.foldConstants t₁)) = .error e) :
    (standard config).run config t = .error ⟨"validations", "generic validations", e⟩ := by
  rw [standard_eq, run_append_of_eq_ok hbefore, run, runPasses_optimizations]
  show _ <$> (Pipeline.run config (Sharing.extractShared config (Calls.foldConstants t₁))
    [validations] >>= _) = _
  rw [run, runPasses_validations_eq_error hcheck]
  rfl

end Pipeline

namespace Parser

theorem build_eq_ok {config : Config} {d : Device} {parser : Parser} :
    build config d = .ok parser ↔ ¬ Diagnostic.hasErrors (assemble d).2 ∧
      ∃ t more, (Pipeline.standard config).run config (assemble d).1 = .ok (t, more) ∧
        parser = ⟨t, config, (assemble d).2 ++ more⟩ := by
  simp only [build, buildWith]
  split
  · next h => exact ⟨(fun heq => nomatch heq), fun hne => absurd h hne.1⟩
  · next h =>
      constructor
      · intro hbuild
        cases hrun : (Pipeline.standard config).run config (assemble d).1 with
        | error e =>
            rw [hrun] at hbuild
            cases hbuild
        | ok result =>
            rw [hrun] at hbuild
            cases hbuild
            exact ⟨h, _, _, rfl, rfl⟩
      · rintro ⟨-, t, more, hrun, rfl⟩
        rw [hrun]

theorem build_eq_error {config : Config} {d : Device} {e : StageError}
    (herrors : ¬ Diagnostic.hasErrors (assemble d).2)
    (hrun : (Pipeline.standard config).run config (assemble d).1 = .error e) :
    build config d = .error (.pass e) := by
  simp only [build, buildWith]
  rw [if_neg herrors, hrun]

/-- A build runs the passes before sharing, folds constants and extracts shared nodes, and its result
passes the checks at the end. -/
theorem exists_run_of_build {config : Config} {d : Device} {parser : Parser}
    (hbuild : build config d = .ok parser) :
    ∃ t more, (Pipeline.beforeSharing config).run config (assemble d).1 = .ok (t, more) ∧
      t.IsUnshared ∧ (Calls.foldConstants t).IsUnshared ∧
      parser.tree = Sharing.extractShared config (Calls.foldConstants t) ∧
      Calls.checkNodes parser.tree = .ok () ∧ Calls.checkRuns parser.tree = .ok () := by
  obtain ⟨-, t, more, hrun, rfl⟩ := build_eq_ok.mp hbuild
  obtain ⟨t₁, hbefore, htree, hnodes, hruns⟩ := Pipeline.run_standard_eq_ok.mp hrun
  have ht₁ : t₁.IsUnshared := (Pipeline.run_of_ordinary (Pipeline.ordinary_beforeSharing config)
    (isUnshared_assemble d) hbefore).1
  have hfold := Pass.ordinary_evalConstantFunctions.unshared config t₁ _ [] rfl ht₁
  exact ⟨t₁, more, hbefore, ht₁, hfold, htree, hnodes, hruns⟩

/-- What a build without sharing ends with has no references and no bindings. -/
theorem isUnshared_of_build {config : Config} {d : Device} {plain : Parser}
    (hglobal : config.globalEntities = false) (hdup : config.detectDuplicates = false)
    (hbuild : build config d = .ok plain) : plain.tree.IsUnshared := by
  obtain ⟨t, more, -, -, hfold, htree, -, -⟩ := exists_run_of_build hbuild
  rw [htree]
  simpa [Sharing.extractShared, hglobal, hdup] using hfold

/-- A build that shares nodes extracts them from the tree of the build that does not, and fails if the
result has too many nodes. -/
theorem build_withSharing {config : Config} {d : Device} {plain : Parser}
    (hglobal : config.globalEntities = false) (hdup : config.detectDuplicates = false)
    (hbuild : build config d = .ok plain) (g dd : Bool)
    (hmet : Sharing.SignaturesDecide (Sharing.met (config.withSharing g dd) plain.tree)) :
    build (config.withSharing g dd) d =
      if (Sharing.extractShared (config.withSharing g dd) plain.tree).nodes.length ≤ RuleTree.nodeLimit then
        .ok ⟨Sharing.extractShared (config.withSharing g dd) plain.tree, config.withSharing g dd,
          plain.diagnostics⟩
      else .error (.pass ⟨"validations", "generic validations", Calls.limitError⟩) := by
  have hunshared := isUnshared_of_build hglobal hdup hbuild
  obtain ⟨herrors, t, more, hrun, rfl⟩ := build_eq_ok.mp hbuild
  obtain ⟨t₁, hbefore, rfl, hnodes, hruns⟩ := Pipeline.run_standard_eq_ok.mp hrun
  have hsame : Sharing.extractShared config (Calls.foldConstants t₁) = Calls.foldConstants t₁ := by
    simp [Sharing.extractShared, hglobal, hdup]
  rw [hsame] at hunshared hnodes hruns hmet
  obtain ⟨μ, hrep⟩ := Sharing.represents_extractShared hunshared.root hunshared.bindings hmet
  have hbefore' := (Pipeline.run_of_ordinary (Pipeline.ordinary_beforeSharing config)
    (isUnshared_assemble d) hbefore).2 (config.withSharing g dd)
  have hcheck := hrep.checkNodes_eq hunshared hnodes
  rw [hsame]
  split
  · next hlimit =>
      rw [if_pos hlimit] at hcheck
      refine build_eq_ok.mpr ⟨herrors, _, more, ?_, rfl⟩
      exact Pipeline.run_standard_eq_ok.mpr ⟨t₁, hbefore', rfl, hcheck, hrep.checkRuns_eq_ok hruns⟩
  · next hlimit =>
      rw [if_neg hlimit] at hcheck
      exact build_eq_error herrors (Pipeline.run_standard_eq_error hbefore' hcheck)

/-- A tree with at most half of the nodes that it may have is not too large when nodes are shared. -/
theorem build_withSharing_of_small {config : Config} {d : Device} {plain : Parser}
    (hglobal : config.globalEntities = false) (hdup : config.detectDuplicates = false)
    (hbuild : build config d = .ok plain) (g dd : Bool)
    (hmet : Sharing.SignaturesDecide (Sharing.met (config.withSharing g dd) plain.tree))
    (hsmall : 2 * plain.tree.nodes.length ≤ RuleTree.nodeLimit) :
    build (config.withSharing g dd) d =
      .ok ⟨Sharing.extractShared (config.withSharing g dd) plain.tree, config.withSharing g dd,
        plain.diagnostics⟩ := by
  rw [build_withSharing hglobal hdup hbuild g dd hmet, if_pos]
  exact (Sharing.length_nodes_extractShared _ _).trans hsmall

/-- **Sharing is invisible** to a device whose build takes no two nodes for one that differ in more
than labels: sharing leads to a tree with at most twice as many nodes, which can run whenever the tree
without sharing can, and every message gets the same fields and the same errors. The build gives that
tree, with the same reports, unless it is beyond the limit of nodes. -/
theorem sharing_invisible (config : Config) (d : Device) (plain : Parser)
    (hglobal : config.globalEntities = false) (hdup : config.detectDuplicates = false)
    (hbuild : build config d = .ok plain) (g dd : Bool)
    (hmet : Sharing.SignaturesDecide (Sharing.met (config.withSharing g dd) plain.tree)) :
    ∃ t : RuleTree, t.nodes.length ≤ 2 * plain.tree.nodes.length ∧
      (build (config.withSharing g dd) d =
        if t.nodes.length ≤ RuleTree.nodeLimit then .ok ⟨t, config.withSharing g dd, plain.diagnostics⟩
        else .error (.pass ⟨"validations", "generic validations", Calls.limitError⟩)) ∧
      ∀ year p, Processor.ofTree year config plain.tree = .ok p →
        ∃ q, Processor.ofTree year (config.withSharing g dd) t = .ok q ∧
          ∀ message, (q.process message).fields = (p.process message).fields ∧
            (q.process message).errors = (p.process message).errors := by
  have hunshared := isUnshared_of_build hglobal hdup hbuild
  refine ⟨_, Sharing.length_nodes_extractShared _ _, build_withSharing hglobal hdup hbuild g dd hmet,
    fun year p hp => ?_⟩
  obtain ⟨μ, hrep⟩ := Sharing.represents_extractShared hunshared.root hunshared.bindings hmet
  have hself := Sharing.represents_self hunshared.root hunshared.bindings
  have hplain := RuleTree.inlined_isPlain (hself.wellReferenced hunshared.root)
  have hplain' := RuleTree.inlined_isPlain (hrep.wellReferenced hunshared.root)
  have hmaps := (Sharing.extractShared_frame (config.withSharing g dd) plain.tree).1
  have hinlined := (hrep.inlined_eq hunshared.root).trans (hself.inlined_eq hunshared.root).symm
  exact Processor.ofTree_process_eq hplain hplain' hmaps hinlined rfl hp

/-! ### Two rules with one pattern -/

/-- Two message rules that differ in their ids. -/
def twinDevice : Device :=
  { messages := [{ id1 := "A", id2 := "A", content := "<a>" },
      { id1 := "B", id2 := "B", content := "<a>" }] }

def twinRule (id : String) (index : Nat) : Node :=
  .matchRule ⟨id, payloadInput, [.value (.field "a")], none, .ofRecord .message index none⟩ []

/-- The tree of `twinDevice`. -/
def twinTree : RuleTree where
  root := .chain [.linearSelect [],
    .messageIdSelect ⟨[("A", 0), ("B", 1)]⟩ [twinRule "A" 0, twinRule "B" 1]]
  valueMaps := .empty
  bindings := .empty
  timestampField := none

theorem read_twin : Pattern.read "<a>" = .ok [.value (.field "a")] := by
  have hsplit : Pattern.Segment.split "<a>" = .ok [.text ⟨"<a>", 0, []⟩] :=
    eq_ok_of_toOption (by decide +kernel)
  have hchars : "<a>".toList = ['<', 'a', '>'] := by decide
  have hlexemes : Pattern.lexemes ['<', 'a', '>'] = .ok [.tag (.field "a")] :=
    eq_ok_of_toOption (by decide +kernel)
  rw [Pattern.read, hsplit]
  simp only [bind, Except.bind, List.mapM_cons, List.mapM_nil, Pattern.readSegment,
    Pattern.readChunk, Pattern.readPlain, hchars, hlexemes]
  rfl

theorem messageNode_twin (index : Nat) (id : String) :
    Assembly.messageNode index { id1 := id, id2 := id, content := "<a>" } =
      (some (twinRule id index), []) := by
  have hne : "<a>".isEmpty = false := by decide +kernel
  simp only [Assembly.messageNode, Assembly.content, hne, read_twin]
  rfl

theorem assemble_twinDevice : assemble twinDevice = (twinTree, []) := by
  simp only [assemble, twinDevice, Assembly.messageNodes, messageNode_twin]
  rfl

theorem build_twinDevice :
    build {} twinDevice = .ok ⟨twinTree, {}, [.make .timestampNotSelected none none none]⟩ := by
  refine build_eq_ok.mpr ⟨?_, twinTree, [.make .timestampNotSelected none none none], ?_, ?_⟩
  · rw [assemble_twinDevice]
    decide
  · rw [assemble_twinDevice]
    rfl
  · rw [assemble_twinDevice]
    rfl

set_option maxRecDepth 4000 in
theorem met_twinTree : Sharing.met (Config.withSharing {} true true) twinTree =
    [.linearSelect [], twinRule "A" 0, twinRule "B" 1] := by
  rfl

theorem signaturesDecide_twinTree :
    Sharing.SignaturesDecide (Sharing.met (Config.withSharing {} true true) twinTree) := by
  rw [met_twinTree]
  intro m hm n hn
  simp only [List.mem_cons, List.not_mem_nil, or_false] at hm hn
  rcases hm with rfl | rfl | rfl <;> rcases hn with rfl | rfl | rfl <;>
    first
      | exact fun _ => rfl
      | exact fun h => absurd h (by decide +kernel)

theorem small_twinTree : 2 * twinTree.nodes.length ≤ RuleTree.nodeLimit := by decide +kernel

theorem sharing_invisible_twinDevice :
    ∃ shared, build (Config.withSharing {} true true) twinDevice = .ok shared ∧
      ∀ year p, Processor.ofTree year {} twinTree = .ok p →
        ∃ q, Processor.ofTree year (Config.withSharing {} true true) shared.tree = .ok q ∧
          ∀ message, (q.process message).fields = (p.process message).fields ∧
            (q.process message).errors = (p.process message).errors := by
  obtain ⟨t, hsize, hbuild, hsame⟩ :=
    sharing_invisible {} twinDevice _ rfl rfl build_twinDevice true true signaturesDecide_twinTree
  rw [if_pos (hsize.trans small_twinTree)] at hbuild
  exact ⟨_, hbuild, hsame⟩

/-! ### Two patterns with one text -/

/-- The errors of a message, when the device builds and can run. -/
def errorsOf (year : Int) (config : Config) (d : Device) (message : List UInt8) :
    Option (List RuntimeError) := do
  let parser ← (build config d).toOption
  let p ← (Processor.ofTree year config parser.tree).toOption
  return (p.process message).errors

theorem errorsOf_eq_some {year : Int} {config : Config} {d : Device} {message : List UInt8}
    {errors : List RuntimeError} :
    errorsOf year config d message = some errors ↔
      ∃ parser p, build config d = .ok parser ∧ Processor.ofTree year config parser.tree = .ok p ∧
        (p.process message).errors = errors := by
  simp only [errorsOf, Option.bind_eq_bind, Option.bind_eq_some_iff, Option.pure_def,
    Option.some.injEq]
  constructor
  · rintro ⟨parser, hbuild, p, hp, heq⟩
    exact ⟨parser, p, eq_ok_of_toOption hbuild, eq_ok_of_toOption hp, heq⟩
  · rintro ⟨parser, p, hbuild, hp, heq⟩
    exact ⟨parser, by rw [hbuild]; rfl, p, by rw [hp]; rfl, heq⟩

/-- The pattern of the first message rule is a group with one branch and the constant `|x` after it,
which moves into the branch. The pattern of the second is a group with two branches. Both have the
text `{<a>|x}`. -/
def ambiguousDevice : Device :=
  { headers := [{ id1 := "h", content := "<messageid>:<!payload>" }]
    messages := [{ id1 := "A", content := "{<a>}|x" }, { id1 := "B", content := "{<a>|x}" }] }

/-- Without sharing `B:h` captures `h` by the second rule; with sharing the first rule stands in its
place and does not match. -/
theorem not_forall_sharing_invisible :
    ¬ ∀ (config : Config) (d : Device) (plain : Parser), config.globalEntities = false →
      config.detectDuplicates = false → build config d = .ok plain → ∀ g dd : Bool,
      ∃ shared, build (config.withSharing g dd) d = .ok shared ∧
        ∀ year p, Processor.ofTree year config plain.tree = .ok p →
          ∃ q, Processor.ofTree year (config.withSharing g dd) shared.tree = .ok q ∧
            ∀ message, (q.process message).fields = (p.process message).fields ∧
              (q.process message).errors = (p.process message).errors := by
  intro h
  have hplain : errorsOf 2024 {} ambiguousDevice "B:h".toUTF8.toList = some [] := by
    decide +kernel
  have hshared : errorsOf 2024 (Config.withSharing {} true false) ambiguousDevice
      "B:h".toUTF8.toList = some [.noMatch] := by
    decide +kernel
  obtain ⟨plain, p, hbuild, hp, hnone⟩ := errorsOf_eq_some.mp hplain
  obtain ⟨shared, q, hbuild', hq, hone⟩ := errorsOf_eq_some.mp hshared
  obtain ⟨shared', hbuild'', hsame⟩ := h {} ambiguousDevice plain rfl rfl hbuild true false
  obtain ⟨q', hq', heq⟩ := hsame 2024 p hp
  cases hbuild'.symm.trans hbuild''
  cases hq.symm.trans hq'
  have herrors := (heq "B:h".toUTF8.toList).2
  rw [hone, hnone] at herrors
  cases herrors

end Parser

end LogRules

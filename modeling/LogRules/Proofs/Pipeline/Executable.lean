import LogRules.Proofs.Pipeline.Fitting
import LogRules.Proofs.Pipeline.Sharing

/-! # Builds that run

A build that succeeds gives a tree that can run (`Parser.build_runs`). It extracts shared nodes from a tree
whose rules are ready, and checks the functions of what the extraction gives. Inlining takes the shared tree
back to the tree before, up to labels, and a tree whose nodes fit fails for options, formats and aliases
only. -/

namespace LogRules

/-- A function that is not replaced before the rules run can run. -/
theorem Function.isSome_ofName? {name : String} {b : Builtin} (hb : Builtin.ofName? name = some b)
    (hreplaced : ¬ b.replaced) : (Function.ofName? name).isSome := by
  have hall : ∀ b ∈ Builtin.all, ¬ b.replaced → (Function.ofName? b.name).isSome := by decide
  have hname := List.find?_some hb
  rw [← eq_of_beq hname]
  exact hall b (List.mem_of_find?_eq_some hb) hreplaced

/-- An effect runs when its look-up names a value map and its call passed the last check. -/
theorem Effect.runs_of_check {a : Action} {maps : List String} (hlookup : a.effect.LooksUpIn maps)
    (hcheck : Calls.checkRunsOf a = .ok ()) : a.effect.Runs maps := by
  have hcall := Calls.checkRunsOf_eq_ok.mp hcheck
  obtain ⟨effect, source⟩ := a
  cases effect with
  | call inv =>
      obtain ⟨b, hb, hreplaced⟩ := hcall inv rfl
      exact Function.isSome_ofName? hb hreplaced
  | lookup target name key => exact hlookup
  | _ => trivial

/-- A tree that stands for a fitting tree inlines to nodes that can be compiled. -/
theorem Sharing.Represents.everywhere_inlined {t t' : RuleTree} {μ : Meanings}
    (h : Represents t.root μ t') (ht : t.IsUnshared) (hmaps : t'.valueMaps = t.valueMaps)
    (hfits : t.Fits MatchRule.IsReady) (hcheck : Calls.checkRuns t' = .ok ()) :
    t'.inlined.Everywhere
      (Node.Fits (fun rule => rule.pattern.HasMatcher) (Effect.Runs t'.valueMaps.keys)) := by
  have hlabels : ∀ rule rule' : MatchRule, rule.unlabelled = rule'.unlabelled →
      rule.IsReady → rule'.IsReady := by
    intro rule rule' heq hready
    have hunlabelled : rule.unlabelled.pattern = rule'.unlabelled.pattern :=
      congrArg MatchRule.pattern heq
    have hpattern : rule.pattern = rule'.pattern := hunlabelled
    exact ⟨⟨hpattern ▸ hready.regular, hpattern ▸ hready.aliasOnce⟩,
      hpattern ▸ hready.capturesApart⟩
  have hinlined := Node.everywhere_of_unlabelled_eq hlabels (h.inlined_eq ht.root).symm hfits
  intro n hn
  have hn' := hinlined n hn
  cases n with
  | matchRule rule onSuccess => exact MatchRule.IsReady.hasMatcher hn'
  | action a =>
      have ha : a ∈ t'.actions := RuleTree.mem_actions.mpr (RuleTree.mem_nodes_of_inlined hn)
      rw [hmaps]
      exact Effect.runs_of_check hn' (forM_eq_ok.mp hcheck a ha)
  | _ => exact hn'

namespace Parser

/-- The tree that a build takes shared nodes from. -/
def unshared? (config : Config) (d : Device) : Option RuleTree :=
  ((Pipeline.beforeSharing config).run config (assemble d).1).toOption.map fun result =>
    Calls.foldConstants result.1

/-- A build takes shared nodes from a tree that has none and whose rules are ready, and the functions of
what it ends with passed the last check. -/
theorem exists_unshared_of_build {config : Config} {d : Device} {parser : Parser}
    (hbuild : build config d = .ok parser) :
    ∃ t ∈ unshared? config d, t.IsUnshared ∧ t.Fits MatchRule.IsReady ∧
      parser.tree = Sharing.extractShared config t ∧ Calls.checkRuns parser.tree = .ok () := by
  obtain ⟨t₁, more, hbefore, -, hunshared, htree, -, hruns⟩ := exists_run_of_build hbuild
  have hassembled : (assemble d).1.Fits MatchRule.IsRead :=
    everywhere_assemble (fun rule hpattern hinput => ⟨hpattern, hinput⟩)
      (fun effect heffect => heffect.isNoLookup.looksUpIn _) d
  have hready : t₁.Fits MatchRule.IsReady :=
    Pipeline.takes_beforeSharing config config _ t₁ more hbefore hassembled
  refine ⟨Calls.foldConstants t₁, ?_, hunshared, ?_, htree, hruns⟩
  · rw [unshared?, hbefore]
    rfl
  · exact Pass.takes_evalConstantFunctions config t₁ _ [] rfl hready

/-- **A build that succeeds can run**, but for options that cannot be read, formats with a specifier that
has no meaning, and an alias that is not captured in every branch. When nodes are shared, nodes with one
signature have to be equal up to labels. -/
theorem build_runs (config : Config) (d : Device) (parser : Parser)
    (hbuild : build config d = .ok parser)
    (hmet : config.globalEntities = true ∨ config.detectDuplicates = true →
      ∀ t ∈ unshared? config d, Sharing.SignaturesDecide (Sharing.met config t)) (year : Int) :
    (∃ p, Processor.ofTree year config parser.tree = .ok p) ∨
      ∃ e, Processor.ofTree year config parser.tree = .error e ∧ e.Tolerated := by
  obtain ⟨t, ht, hunshared, hfits, htree, hruns⟩ := exists_unshared_of_build hbuild
  have hdecide := Sharing.signaturesDecide_met fun hshared => hmet hshared t ht
  obtain ⟨μ, hrep⟩ := Sharing.represents_extractShared hunshared.root hunshared.bindings hdecide
  rw [← htree] at hrep
  have hmaps : parser.tree.valueMaps = t.valueMaps := by
    rw [htree]
    exact (Sharing.extractShared_frame config t).1
  have hplain := RuleTree.inlined_isPlain (hrep.wellReferenced hunshared.root)
  have hnodes := hrep.everywhere_inlined hunshared hmaps hfits hruns
  have hfails := Processor.ofTree_fails_only hplain hnodes year config
  cases hresult : Processor.ofTree year config parser.tree with
  | ok p => exact .inl ⟨p, rfl⟩
  | error e => exact .inr ⟨e, rfl, hfails e hresult⟩

theorem unshared?_twinDevice : unshared? (Config.withSharing {} true true) twinDevice = some twinTree := by
  rw [unshared?, assemble_twinDevice]
  rfl

theorem build_runs_twinDevice :
    ∃ parser, build (Config.withSharing {} true true) twinDevice = .ok parser ∧
      ((∃ p, Processor.ofTree 2024 (Config.withSharing {} true true) parser.tree = .ok p) ∨
        ∃ e, Processor.ofTree 2024 (Config.withSharing {} true true) parser.tree = .error e ∧
          e.Tolerated) := by
  have hbuild := build_withSharing_of_small rfl rfl build_twinDevice true true signaturesDecide_twinTree
    small_twinTree
  refine ⟨_, hbuild, build_runs _ twinDevice _ hbuild (fun _ t ht => ?_) 2024⟩
  rw [unshared?_twinDevice] at ht
  cases ht
  exact signaturesDecide_twinTree

end Parser

end LogRules

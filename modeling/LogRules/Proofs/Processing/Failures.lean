import LogRules.Proofs.Processing.Inlining
import LogRules.Proofs.Tree.Everywhere

/-! # Why a tree cannot run

A tree whose nodes fit fails to compile for a few reasons only (`Processor.ofTree_fails_only`): options that
cannot be read, formats with a specifier that has no meaning, and a payload alias that is not captured in
every branch. Fitting rules have a matcher but for that alias, fitting effects name functions and value maps
that are known. -/

namespace LogRules

/-- Why a tree whose nodes fit may still fail. -/
inductive CompileError.Tolerated : CompileError → Prop
  | timezone (text : String) : Tolerated (.invalidTimezone text)
  | network (text : String) : Tolerated (.invalidNetwork text)
  | specifier (loc : SourceLoc) (letter : Char) : Tolerated (.unsupportedSpecifier loc letter)
  | durationSpecifier (loc : SourceLoc) (letter : Char) :
      Tolerated (.unsupportedDurationSpecifier loc letter)
  | aliasInSomeBranches (loc : SourceLoc) (field : String) :
      Tolerated (.pattern loc (.payloadNotInEveryAlternative field))

/-- The pattern has a matcher, unless its alias is not captured in every branch. -/
def Pattern.HasMatcher (p : Pattern) : Prop :=
  FailsOnlyWith (fun e => ∃ field, e = PatternError.payloadNotInEveryAlternative field)
    (Matcher.ofPattern p)

/-- The effect calls functions that can run and looks keys up in maps that are there. -/
def Effect.Runs (maps : List String) : Effect → Prop
  | .call inv => (Function.ofName? inv.function).isSome
  | .lookup _ name _ => name ∈ maps
  | _ => True

namespace Node

variable {settings : Settings} {maps : Table ValueMap}

theorem atLetter_fails_only {α : Type} {P : CompileError → Prop} {e : Char → CompileError}
    (h : ∀ c, P (e c)) (x : Except Char α) : FailsOnlyWith P (atLetter e x) := by
  cases x with
  | ok a => exact failsOnlyWith_ok a
  | error c => exact failsOnlyWith_error (h c)

theorem compileAction_fails_only {a : Action} (h : a.effect.Runs maps.keys) :
    FailsOnlyWith CompileError.Tolerated (compileAction settings maps a) := by
  obtain ⟨effect, source⟩ := a
  cases effect with
  | setField target value => cases value <;> exact failsOnlyWith_ok _
  | call inv =>
      obtain ⟨function, hfunction⟩ := Option.isSome_iff_exists.mp h
      simp only [compileAction, hfunction]
      exact failsOnlyWith_ok _
  | lookup target name key =>
      obtain ⟨map, hmap⟩ := Table.exists_get?_of_mem_keys h
      simp only [compileAction, hmap]
      exact failsOnlyWith_ok _
  | dateTime reading utc =>
      simp only [compileAction]
      refine (failsOnlyWith_mapM fun f _ => ?_).bind fun layouts _ => failsOnlyWith_ok _
      exact atLetter_fails_only (fun c => .specifier source c) _
  | duration reading =>
      simp only [compileAction]
      refine (failsOnlyWith_mapM fun f _ => ?_).bind fun formats _ => failsOnlyWith_ok _
      exact atLetter_fails_only (fun c => .durationSpecifier source c) _

theorem compilePattern_fails_only {rule : MatchRule} (h : rule.pattern.HasMatcher) :
    FailsOnlyWith CompileError.Tolerated (compilePattern rule) := by
  unfold compilePattern
  cases hpattern : Matcher.ofPattern rule.pattern with
  | ok matcher => exact failsOnlyWith_ok matcher
  | error e =>
      obtain ⟨field, rfl⟩ := h e hpattern
      exact failsOnlyWith_error (.aliasInSomeBranches rule.source field)

/-- The choice among programs that are there fails as one of them. -/
theorem chosenPrograms_fails_only {P : CompileError → Prop}
    {programs : List (Except CompileError Program)} (hprograms : ∀ x ∈ programs, FailsOnlyWith P x)
    {entries : List (String × Nat)} (hentries : ∀ e ∈ entries, e.2 < programs.length) :
    FailsOnlyWith P (chosenPrograms programs entries) := by
  induction entries with
  | nil => exact failsOnlyWith_ok []
  | cons e rest ih =>
      obtain ⟨id, i⟩ := e
      have hi : i < programs.length := hentries (id, i) List.mem_cons_self
      rw [chosenPrograms, List.getElem?_eq_getElem hi]
      refine (hprograms _ (List.getElem_mem hi)).bind fun program _ => ?_
      refine (ih fun e he => hentries e (List.mem_cons_of_mem _ he)).bind fun others _ => ?_
      exact failsOnlyWith_ok _

theorem length_compileEach (resolve : String → Except CompileError Program) (nodes : List Node) :
    (compileEach settings maps resolve nodes).length = nodes.length := by
  induction nodes with
  | nil => rfl
  | cons n rest ih => rw [compileEach, List.length_cons, List.length_cons, ih]

/-- A tree without references whose nodes fit. -/
theorem compile_fails_only {resolve : String → Except CompileError Program} :
    (∀ n : Node, n.IsPlain →
      n.Everywhere (Fits (fun rule => rule.pattern.HasMatcher) (Effect.Runs maps.keys)) →
        FailsOnlyWith CompileError.Tolerated (n.compile settings maps resolve)) ∧
    ∀ nodes : List Node, (∀ n ∈ nodes, n.IsPlain ∧
      n.Everywhere (Fits (fun rule => rule.pattern.HasMatcher) (Effect.Runs maps.keys))) →
        FailsOnlyWith CompileError.Tolerated (compileAll settings maps resolve nodes) ∧
        ∀ x ∈ compileEach settings maps resolve nodes, FailsOnlyWith CompileError.Tolerated x := by
  refine forest_induction ?_ ?_ ?_
  · intro n ih hplain h
    obtain ⟨hn, hfits⟩ := everywhere_iff.mp h
    obtain ⟨hreference, hplains⟩ := isPlain_iff.mp hplain
    obtain ⟨hall, heach⟩ := ih fun c hc => ⟨hplains c hc, hfits c hc⟩
    cases n with
    | chain nodes => exact hall.map _
    | linearSelect nodes => exact hall.map _
    | messageIdSelect index nodes =>
        rw [compile]
        refine (chosenPrograms_fails_only heach fun e he => ?_).map _
        rw [length_compileEach]
        exact hn e he
    | matchRule rule onSuccess =>
        exact (compilePattern_fails_only hn).bind fun matcher _ => hall.map _
    | action a => exact (compileAction_fails_only hn).map _
    | reference name => exact absurd ⟨name, rfl⟩ hreference
    | noop => exact failsOnlyWith_ok _
  · intro _
    exact ⟨failsOnlyWith_ok [], fun _ h => absurd h List.not_mem_nil⟩
  · intro n rest hn hrest h
    obtain ⟨hplain, hfits⟩ := h n List.mem_cons_self
    obtain ⟨hall, heach⟩ := hrest fun m hm => h m (List.mem_cons_of_mem _ hm)
    refine ⟨?_, ?_⟩
    · rw [compileAll]
      refine (hn hplain hfits).bind fun program _ => hall.bind fun programs _ => failsOnlyWith_ok _
    · intro x hx
      rw [compileEach] at hx
      rcases List.mem_cons.mp hx with rfl | hx
      · exact hn hplain hfits
      · exact heach x hx

end Node

/-- Options fail for the timezone and the networks. -/
theorem Settings.ofConfig_fails_only (year : Int) (config : Config) :
    FailsOnlyWith CompileError.Tolerated (Settings.ofConfig year config) := by
  have hrest : ∀ {f : String → Except CompileError Network.Block},
      (∀ text, FailsOnlyWith CompileError.Tolerated (f text)) → ∀ g : List Network.Block → Settings,
        FailsOnlyWith CompileError.Tolerated (do
          let networks ← config.localNetworks.mapM f
          return g networks) := by
    intro f hf g
    exact (failsOnlyWith_mapM fun text _ => hf text).bind fun networks _ => failsOnlyWith_ok _
  unfold Settings.ofConfig
  cases config.timezone with
  | none =>
      simp only [pure_bind]
      refine hrest (fun text => ?_) _
      split
      · exact failsOnlyWith_ok _
      · exact failsOnlyWith_error (.network text)
  | some text =>
      cases hoffset : Time.Offset.ofText? text with
      | none =>
          simp only [hoffset]
          exact failsOnlyWith_error (.timezone text)
      | some offset =>
          simp only [hoffset, pure_bind]
          refine hrest (fun text => ?_) _
          split
          · exact failsOnlyWith_ok _
          · exact failsOnlyWith_error (.network text)

/-- A tree that inlines to fitting nodes fails for options, formats and aliases. -/
theorem Processor.ofTree_fails_only {t : RuleTree} (hplain : t.inlined.IsPlain)
    (h : t.inlined.Everywhere
      (Node.Fits (fun rule => rule.pattern.HasMatcher) (Effect.Runs t.valueMaps.keys)))
    (year : Int) (config : Config) :
    FailsOnlyWith CompileError.Tolerated (Processor.ofTree year config t) := by
  unfold Processor.ofTree
  refine (Settings.ofConfig_fails_only year config).bind fun settings _ => ?_
  rw [RuleTree.compile_eq_inlined settings hplain]
  refine (Node.compile_fails_only.1 t.inlined hplain h).bind fun program _ => failsOnlyWith_ok _

end LogRules

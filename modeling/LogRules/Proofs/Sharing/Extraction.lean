import LogRules.Proofs.Sharing.Hoisting
import LogRules.Proofs.Sharing.Rounds

/-! # Extraction

Hoisting and deduplication under the options. `met` lists the nodes whose signatures a run compares,
and `Extracts` is the run with its two loops unbounded. A tree without bindings and references comes
out as a tree that stands for it (`represents_extractShared`), so inlining undoes the extraction
(`extractShared_undone_by_inlining`). -/

namespace LogRules.Sharing

/-- The tree that deduplication begins with. -/
def hoisted (config : Config) (t : RuleTree) : RuleTree :=
  if config.globalEntities then hoistEntities t else t

/-- The nodes whose signatures a run compares. -/
def met (config : Config) (t : RuleTree) : List Node :=
  (if config.globalEntities then metInHoisting t else []) ++
    if config.detectDuplicates then
      metInRounds ((hoisted config t).nodes.length + 1) 0 (hoisted config t)
    else []

/-- Without sharing no nodes are compared. -/
theorem signaturesDecide_met {config : Config} {t : RuleTree}
    (h : config.globalEntities = true ∨ config.detectDuplicates = true →
      SignaturesDecide (met config t)) : SignaturesDecide (met config t) := by
  by_cases hshared : config.globalEntities = true ∨ config.detectDuplicates = true
  · exact h hshared
  · obtain ⟨hglobal, hdup⟩ := not_or.mp hshared
    rw [met, if_neg hglobal, if_neg hdup]
    intro m hm
    cases hm

/-- A run under the options, with as many turns of its loops as they take. -/
def Extracts (config : Config) (t t' : RuleTree) : Prop :=
  ∃ t₁, (if config.globalEntities then Hoists t t₁ else t₁ = t) ∧
    if config.detectDuplicates then Rounds 0 t₁ t' else t' = t₁

theorem extractShared_eq (config : Config) (t : RuleTree) :
    extractShared config t =
      if config.detectDuplicates then removeDuplicates (hoisted config t) else hoisted config t := rfl

theorem extracts_extractShared (config : Config) (t : RuleTree) :
    Extracts config t (extractShared config t) := by
  refine ⟨hoisted config t, ?_, ?_⟩
  · unfold hoisted
    split
    · exact hoists_hoistEntities t
    · rfl
  · rw [extractShared_eq]
    split
    · exact rounds_removeDuplicates _
    · rfl

theorem label_ne (i k : Nat) : "dup" ++ toString k ≠ "entity" ++ toString i := by
  intro h
  have hlist := congrArg String.toList h
  rw [String.toList_append, String.toList_append] at hlist
  cases (List.cons.inj hlist).1

/-- Hoisting leaves the names of deduplication free. -/
theorem represents_hoisted {config : Config} {t : RuleTree} (hroot : t.root.IsPlain)
    (hbindings : t.bindings = .empty) (hmet : SignaturesDecide (met config t)) :
    ∃ μ, Represents t.root μ (hoisted config t) ∧ FreeFrom 0 (hoisted config t) := by
  unfold hoisted
  split
  · next hhoist =>
      have hmet' : SignaturesDecide (metInHoisting t) := by
        rw [met, if_pos hhoist] at hmet
        exact hmet.mono (List.subset_append_left _ _)
      obtain ⟨μ, hrep, hkeys⟩ := represents_hoistEntities hroot hbindings hmet'
      refine ⟨μ, hrep, fun k _ hk => ?_⟩
      obtain ⟨i, hi⟩ := hkeys _ hk
      exact label_ne i k hi
  · refine ⟨_, represents_self hroot hbindings, fun k _ hk => ?_⟩
    rw [hbindings] at hk
    cases hk

/-- The result of a run stands for the tree that the run began with. -/
theorem represents_extractShared {config : Config} {t : RuleTree} (hroot : t.root.IsPlain)
    (hbindings : t.bindings = .empty) (hmet : SignaturesDecide (met config t)) :
    ∃ μ, Represents t.root μ (extractShared config t) := by
  obtain ⟨μ, hrep, hfree⟩ := represents_hoisted hroot hbindings hmet
  rw [extractShared_eq]
  split
  · next hdedup =>
      rw [met, if_pos hdedup] at hmet
      exact represents_shareRounds hroot _ 0 hrep hfree (hmet.mono (List.subset_append_right _ _))
  · exact ⟨μ, hrep⟩

/-- Rounds only touch the root and the bindings. -/
theorem shareRounds_frame (bound next : Nat) (t : RuleTree) :
    (shareRounds bound next t).valueMaps = t.valueMaps ∧
      (shareRounds bound next t).timestampField = t.timestampField := by
  induction bound generalizing next t with
  | zero => exact ⟨rfl, rfl⟩
  | succ bound ih =>
      unfold shareRounds
      split
      · exact ⟨rfl, rfl⟩
      · dsimp only
        split
        · exact ⟨rfl, rfl⟩
        · exact ih _ _

theorem extractShared_frame (config : Config) (t : RuleTree) :
    (extractShared config t).valueMaps = t.valueMaps ∧
      (extractShared config t).timestampField = t.timestampField := by
  have hhoisted : (hoisted config t).valueMaps = t.valueMaps ∧
      (hoisted config t).timestampField = t.timestampField := by
    unfold hoisted
    split <;> exact ⟨rfl, rfl⟩
  rw [extractShared_eq]
  split
  · obtain ⟨hmaps, hfield⟩ := shareRounds_frame ((hoisted config t).nodes.length + 1) 0
      (hoisted config t)
    exact ⟨hmaps.trans hhoisted.1, hfield.trans hhoisted.2⟩
  · exact hhoisted

/-- **Extraction is undone by inlining.** Both loops end; in the result every reference names a
binding and no binding leads to itself; inlining leaves no reference and gives the old root up to
labels; and nothing but the root and the bindings changes. -/
theorem extractShared_undone_by_inlining (config : Config) (t : RuleTree)
    (hroot : t.root.IsPlain) (hbindings : t.bindings = .empty)
    (hmet : SignaturesDecide (met config t)) :
    Extracts config t (extractShared config t) ∧
      (extractShared config t).WellReferenced ∧
      (extractShared config t).inlined.IsPlain ∧
      (extractShared config t).inlined.unlabelled = t.root.unlabelled ∧
      (extractShared config t).valueMaps = t.valueMaps ∧
      (extractShared config t).timestampField = t.timestampField := by
  obtain ⟨μ, hrep⟩ := represents_extractShared hroot hbindings hmet
  have hwell := hrep.wellReferenced hroot
  obtain ⟨hmaps, hfield⟩ := extractShared_frame config t
  exact ⟨extracts_extractShared config t, hwell, RuleTree.inlined_isPlain hwell,
    hrep.inlined_eq hroot, hmaps, hfield⟩

/-! ### Two copies of a rule -/

/-- An action that occurs often. -/
def copiedAction (line : Nat) : Node :=
  .action ⟨.setField "vendor" (.constant "acme"), ⟨.message, 0, some line⟩⟩

/-- A rule that occurs often: an action comes twice in it. -/
def copiedRule (id : String) (line : Nat) : Node :=
  .matchRule ⟨id, "input", [.value (.field "user")], none, ⟨.message, 0, some line⟩⟩
    [copiedAction line, copiedAction (line + 1)]

/-- A tree with two copies of a rule. -/
def copies : RuleTree := ⟨.chain [copiedRule "A" 1, copiedRule "B" 3], .empty, .empty, none⟩

/-- Both kinds of sharing. -/
def shareAll : Config := { globalEntities := true, detectDuplicates := true }

set_option maxRecDepth 20000 in
theorem met_copies : met shareAll copies = [copiedRule "A" 1, copiedRule "B" 3,
    .chain [.reference "entity0", .reference "entity0"], copiedAction 1, copiedAction 2] := by rfl

/-- The copies differ in their labels and nothing else has the signature of another node. -/
theorem signaturesDecide_copies : SignaturesDecide (met shareAll copies) := by
  rw [met_copies]
  intro m hm n hn
  simp only [List.mem_cons, List.not_mem_nil, or_false] at hm hn
  rcases hm with rfl | rfl | rfl | rfl | rfl <;> rcases hn with rfl | rfl | rfl | rfl | rfl <;>
    first
      | exact fun _ => rfl
      | exact fun h => absurd h (by decide +kernel)

theorem copies_undone_by_inlining :
    Extracts shareAll copies (extractShared shareAll copies) ∧
      (extractShared shareAll copies).WellReferenced ∧
      (extractShared shareAll copies).inlined.IsPlain ∧
      (extractShared shareAll copies).inlined.unlabelled = copies.root.unlabelled ∧
      (extractShared shareAll copies).valueMaps = copies.valueMaps ∧
      (extractShared shareAll copies).timestampField = copies.timestampField := by
  refine extractShared_undone_by_inlining shareAll copies ?_ rfl signaturesDecide_copies
  intro name hname
  simp [copies, copiedRule, copiedAction, Node.preorder, Node.preorderAll] at hname

end LogRules.Sharing

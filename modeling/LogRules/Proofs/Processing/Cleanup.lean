import LogRules.Proofs.Processing.Blame
import LogRules.Proofs.Tree.LocalEdits

/-! # Cleaning up a tree

Three edits leave out what has no use in a run: they join constants, drop nodes that do nothing, and remove
copies of a field to itself. The first two do not change what a node does (`Node.perform_mapActions`,
`Node.perform_dropNoops`). A copy of a field to itself changes no field and fails when the field is not set, so
without it the errors that it is to blame for are missing and nothing else (`Node.sheds_mapActions_copyNode`). -/

namespace LogRules

/-- What is made of an action is the action itself, or an assignment of the constants that a call joins. -/
theorem Calls.constantNode_cases (a : Action) : constantNode a = .action a ∨
    ∃ inv texts, a.effect = .call inv ∧ inv.function = "STRCAT" ∧
      inv.args.mapM Value.constant? = some texts ∧
      constantNode a =
        .action { a with effect := .setField inv.target (.constant (String.join texts)) } := by
  unfold constantNode
  split
  · next inv heffect =>
      split
      · next hname =>
          split
          · next texts htexts => exact .inr ⟨inv, texts, heffect, eq_of_beq hname, htexts, rfl⟩
          · exact .inl rfl
      · exact .inl rfl
  · exact .inl rfl

/-- The action sets a field to its own value. -/
def Action.copiesItself (a : Action) : Bool :=
  match a.effect with
  | .setField target value => value.field? == some target
  | _ => false

theorem Action.effect_of_copiesItself {a : Action} (h : a.copiesItself = true) :
    ∃ target, a.effect = .setField target (.field target) := by
  unfold copiesItself at h
  split at h
  · next target value heffect =>
      cases value <;> simp [Value.field?] at h
      exact ⟨target, h ▸ heffect⟩
  · cases h

/-- What is made of an action is the action itself, unless it copies a field to itself. -/
theorem Calls.copyNode_eq (a : Action) :
    copyNode a = if a.copiesItself then .noop else .action a := by
  obtain ⟨effect, source⟩ := a
  cases effect <;> rfl

namespace Node

variable {settings : Settings} {maps : Table ValueMap}

/-! ### Edits that keep what compiles -/

theorem compiles_constantNode {a : Action} (h : (action a).Compiles settings maps) :
    (Calls.constantNode a).Compiles settings maps := by
  rcases Calls.constantNode_cases a with heq | ⟨inv, texts, -, -, -, heq⟩
  · rw [heq]
    exact h
  · rw [heq]
    exact ⟨_, rfl⟩

theorem compiles_copyNode {a : Action} (h : (action a).Compiles settings maps) :
    (Calls.copyNode a).Compiles settings maps := by
  rw [Calls.copyNode_eq]
  split
  · exact ⟨.noop, rfl⟩
  · exact h

/-! ### Edits without effect -/

/-- A node does the same with other actions that do the same. -/
theorem perform_mapActions {f : Action → Node}
    (hf : ∀ a, (f a).perform settings maps = (action a).perform settings maps) (n : Node) :
    (n.mapActions f).perform settings maps = n.perform settings maps := by
  induction n using child_induction with
  | step n ih =>
      cases haction : n.action? with
      | some a =>
          cases n <;> cases haction
          exact hf a
      | none =>
          rw [mapActions_eq_withChildren haction]
          refine perform_withChildren ?_
          rw [List.map_map]
          exact List.map_congr_left ih

theorem all_filter_isNoop (nodes : List Node) (s : Ledger) :
    Move.all ((nodes.filter (!·.isNoop)).map (perform settings maps)) s =
      Move.all (nodes.map (perform settings maps)) s := by
  induction nodes generalizing s with
  | nil => rfl
  | cons n rest ih =>
      cases n with
      | noop =>
          rw [List.filter_cons_of_neg (by simp [isNoop]), List.map_cons, Move.all_cons, perform,
            Performance.noted_succeed]
          exact ih s
      | _ =>
          rw [List.filter_cons_of_pos rfl, List.map_cons, List.map_cons, Move.all_cons, Move.all_cons]
          exact ih _

/-- What does nothing may be missing from match rules. -/
theorem perform_dropNoops (n : Node) : n.dropNoops.perform settings maps = n.perform settings maps := by
  induction n using child_induction with
  | step n ih =>
      have hchildren : (n.children.map dropNoops).map (perform settings maps) =
          n.children.map (perform settings maps) := by
        rw [List.map_map]
        exact List.map_congr_left ih
      rcases dropNoops_eq_withChildren n with heq | ⟨rule, onSuccess, rfl, heq⟩
      · rw [heq]
        exact perform_withChildren hchildren
      · rw [heq]
        have hall : Move.all (((onSuccess.map dropNoops).filter (!·.isNoop)).map
            (perform settings maps)) = Move.all (onSuccess.map (perform settings maps)) := by
          funext s
          rw [all_filter_isNoop]
          exact congrArg (Move.all · s) hchildren
        rw [perform, perform, performEach_eq_map, performEach_eq_map]
        unfold Move.matched
        rw [hall]

/-- Constants are read as they stand. -/
theorem mapM_readValue_constants {values : List Value} {texts : List String}
    (h : values.mapM Value.constant? = some texts) (fields : Fields) :
    values.mapM fields.readValue = .ok texts := by
  induction values generalizing texts with
  | nil =>
      cases h
      rfl
  | cons v rest ih =>
      rw [List.mapM_cons] at h
      obtain ⟨text, htext, h⟩ := Option.bind_eq_some_iff.mp h
      obtain ⟨others, hothers, h⟩ := Option.bind_eq_some_iff.mp h
      cases h
      have hread : fields.readValue v = .ok text := by
        cases v <;> cases htext
        rfl
      rw [List.mapM_cons, hread, ih hothers]
      rfl

/-- Joining constants always succeeds. -/
theorem apply_concat_constants {args : List Value} {texts : List String}
    (h : args.mapM Value.constant? = some texts) (target : String) (fields : Fields) :
    Operation.apply settings ⟨target, .call .concat args⟩ fields =
      .ok (fields.insert target (String.join texts)) := by
  simp only [Operation.apply, Operation.compute, mapM_readValue_constants h fields]
  rfl

/-- The constant that is joined is what the call would store. -/
theorem perform_constantNode (a : Action) :
    (Calls.constantNode a).perform settings maps = (action a).perform settings maps := by
  rcases Calls.constantNode_cases a with heq | ⟨inv, texts, hcall, hname, htexts, heq⟩
  · rw [heq]
  · have hfunction : Function.ofName? inv.function = some .concat := by
      rw [hname]
      rfl
    have hop : compileAction settings maps a = .ok ⟨inv.target, .call .concat inv.args⟩ := by
      simp only [compileAction, hcall, hfunction]
    funext s
    rw [heq, perform, perform, hop]
    simp only [Move.operated, apply_concat_constants htexts]
    rfl

end Node

/-! ### Copies of a field to itself -/

/-- A copy of a field to itself is to blame. -/
def Blame.isSelfCopy (b : Blame) : Bool := b.action?.any Action.copiesItself

/-- The ledger without the blames of copies of a field to itself. -/
def Ledger.withoutCopies (s : Ledger) : Ledger :=
  { s with blames := s.blames.filter (!·.isSelfCopy) }

@[simp] theorem Ledger.message_withoutCopies (s : Ledger) : s.withoutCopies.message = s.message := rfl

@[simp] theorem Ledger.fields_withoutCopies (s : Ledger) : s.withoutCopies.fields = s.fields := rfl

namespace Move

/-- The second move does the same as the first, but for blames of copies, and the first does not fail
with such a blame. -/
def Follows (f g : Move) : Prop :=
  ∀ s : Ledger, (∀ b, (f s).failure? = some b → b.isSelfCopy = false) ∧
    g s.withoutCopies = ⟨(f s).failure?, (f s).ledger.withoutCopies⟩

/-- With failures noted, the second move does the same as the first, but for blames of copies. -/
def Sheds (f g : Move) : Prop := ∀ s : Ledger, (g s.withoutCopies).noted = (f s).noted.withoutCopies

theorem Follows.sheds {f g : Move} (h : Follows f g) : Sheds f g := by
  intro s
  obtain ⟨hfailure, hg⟩ := h s
  rw [hg]
  simp only [Performance.noted, Ledger.withoutCopies, List.filter_append]
  cases hf : (f s).failure? with
  | none => rfl
  | some b => simp [hfailure b hf]

theorem follows_fail (e : RuntimeError) : Follows (.fail e) (.fail e) := by
  intro s
  refine ⟨fun b hb => ?_, rfl⟩
  cases hb
  rfl

theorem follows_succeed : Follows .succeed .succeed := by
  intro s
  refine ⟨fun b hb => ?_, rfl⟩
  cases hb

theorem all_withoutCopies {fs gs : List Move} (h : List.Forall₂ Sheds fs gs) (s : Ledger) :
    all gs s.withoutCopies = (all fs s).withoutCopies := by
  induction h generalizing s with
  | nil => rfl
  | @cons f g fs gs hfirst _ ih => rw [all_cons, all_cons, hfirst s, ih]

theorem follows_all {fs gs : List Move} (h : List.Forall₂ Sheds fs gs) :
    Follows (fun s => .succeed (all fs s)) fun s => .succeed (all gs s) := by
  intro s
  refine ⟨fun b hb => ?_, congrArg Performance.succeed (all_withoutCopies h s)⟩
  cases hb

theorem follows_first {fs gs : List Move} (h : List.Forall₂ Follows fs gs) :
    Follows (first fs) (first gs) := by
  induction h with
  | nil => exact follows_fail .selectFailed
  | @cons f g fs gs hfirst _ ih =>
      intro s
      obtain ⟨hfailure, hg⟩ := hfirst s
      rw [first, first, hg]
      cases hf : (f s).failure? with
      | none => simp [hf]
      | some b => exact ih (f s).ledger

theorem follows_chosen {fs gs : List Move} (h : List.Forall₂ Follows fs gs) (index : Table Nat) :
    Follows (chosen index fs) (chosen index gs) := by
  have hpick : ∀ i : Nat, Follows (fs[i]?.getD .succeed) (gs[i]?.getD .succeed) := by
    intro i
    induction h generalizing i with
    | nil => exact follows_succeed
    | cons hfirst _ ih =>
        cases i with
        | zero => exact hfirst
        | succ i => exact ih i
  intro s
  simp only [chosen, Ledger.fields_withoutCopies]
  cases s.fields.get? messageIdField with
  | none => exact follows_fail .messageIdMissing s
  | some id =>
      dsimp only
      cases index.get? id with
      | none => exact follows_fail (.messageIdNotMapped id) s
      | some i => exact hpick i s

theorem follows_matched {fs gs : List Move} (h : List.Forall₂ Sheds fs gs) (matcher : Matcher) :
    Follows (matched matcher fs) (matched matcher gs) := by
  intro s
  simp only [matched, Ledger.fields_withoutCopies, Ledger.message_withoutCopies]
  cases (matcher.attempts s.message).2 with
  | none => exact follows_fail .noMatch s
  | some m =>
      refine ⟨fun b hb => ?_, ?_⟩
      · cases hb
      · have hall := all_withoutCopies h
          { s with fields := s.fields.insertAll (m.values s.message) }
        exact congrArg
          (fun t : Ledger => Performance.succeed { t with message := s.message.drop m.rest }) hall

theorem follows_operated {settings : Settings} {a : Action} (h : a.copiesItself = false)
    (op : Operation) : Follows (operated settings a op) (operated settings a op) := by
  intro s
  simp only [operated, Ledger.fields_withoutCopies]
  cases op.apply settings s.fields with
  | ok fields =>
      refine ⟨fun b hb => ?_, rfl⟩
      cases hb
  | error e =>
      refine ⟨fun b hb => ?_, rfl⟩
      cases hb
      exact h

end Move

namespace Node

/-- An action, or a node that does nothing. -/
inductive IsStep : Node → Prop where
  | action (a : Action) : IsStep (.action a)
  | noop : IsStep .noop

/-- Actions and nodes that do nothing do not stand directly in chains and selections. -/
def StepsInRules (n : Node) : Prop :=
  ∀ m ∈ n.preorder, m.IsBranching → ∀ c ∈ m.children, ¬ c.IsStep

variable {settings : Settings} {maps : Table ValueMap}

/-- Copying a field to itself changes nothing, and fails for a field that is not set. -/
theorem apply_copy (settings : Settings) (target : String) (fields : Fields) :
    Operation.apply settings ⟨target, .value (.field target)⟩ fields = .ok fields ∨
      Operation.apply settings ⟨target, .value (.field target)⟩ fields =
        .error (.fieldNotFound target) := by
  simp only [Operation.apply, Operation.compute, Fields.readValue, Fields.read]
  cases hvalue : fields.get? target with
  | none => exact .inr rfl
  | some value => exact .inl (congrArg Except.ok (Table.insert_eq_self hvalue))

theorem compileAction_copy {a : Action} {target : String}
    (h : a.effect = .setField target (.field target)) :
    compileAction settings maps a = .ok ⟨target, .value (.field target)⟩ := by
  unfold compileAction
  rw [h]

theorem sheds_copyNode (a : Action) :
    Move.Sheds ((action a).perform settings maps) ((Calls.copyNode a).perform settings maps) := by
  rw [Calls.copyNode_eq]
  cases hcopy : a.copiesItself with
  | true =>
      obtain ⟨target, heffect⟩ := Action.effect_of_copiesItself hcopy
      intro s
      rw [if_pos rfl, perform, perform, compileAction_copy heffect, Performance.noted_succeed]
      rcases apply_copy settings target s.fields with hset | hunset
      · simp only [Move.operated, hset, Performance.noted_succeed]
      · simp [Move.operated, hunset, Performance.noted, Ledger.withoutCopies, Blame.isSelfCopy, hcopy]
  | false =>
      rw [if_neg Bool.false_ne_true, perform]
      split
      · exact Move.follows_succeed.sheds
      · exact (Move.follows_operated hcopy _).sheds

theorem forall₂_perform {R : Move → Move → Prop} {nodes : List Node} {g : Node → Node}
    (h : ∀ c ∈ nodes, R (c.perform settings maps) ((g c).perform settings maps)) :
    List.Forall₂ R (nodes.map (perform settings maps)) ((nodes.map g).map (perform settings maps)) := by
  rw [List.map_map, List.forall₂_map_left_iff, List.forall₂_map_right_iff, List.forall₂_same]
  exact h

/-- A node that is no action follows with its children, where those of chains and match rules only have to
when failures are noted. -/
theorem follows_withChildren {n : Node} (hn : n.action? = none) {nodes : List Node}
    (hsheds : List.Forall₂ Move.Sheds (n.children.map (perform settings maps))
      (nodes.map (perform settings maps)))
    (hfollows : n.IsBranching → List.Forall₂ Move.Follows (n.children.map (perform settings maps))
      (nodes.map (perform settings maps))) :
    Move.Follows (n.perform settings maps) ((n.withChildren nodes).perform settings maps) := by
  cases n with
  | chain old =>
      rw [withChildren, perform, perform, performEach_eq_map, performEach_eq_map]
      exact Move.follows_all hsheds
  | linearSelect old =>
      rw [withChildren, perform, perform, performEach_eq_map, performEach_eq_map]
      exact Move.follows_first (hfollows (.linearSelect old))
  | messageIdSelect index old =>
      rw [withChildren, perform, perform, performEach_eq_map, performEach_eq_map]
      exact Move.follows_chosen (hfollows (.messageIdSelect index old)) index
  | matchRule rule onSuccess =>
      rw [withChildren, perform, perform, performEach_eq_map, performEach_eq_map]
      cases compilePattern rule with
      | error e => exact Move.follows_succeed
      | ok matcher => exact Move.follows_matched hsheds matcher
  | action a => cases hn
  | reference name => exact Move.follows_succeed
  | noop => exact Move.follows_succeed

/-- Without copies of fields to themselves, a node does the same but for what they are blamed for. -/
theorem sheds_mapActions_copyNode {n : Node} (h : n.StepsInRules) :
    Move.Sheds (n.perform settings maps) ((n.mapActions Calls.copyNode).perform settings maps) ∧
    (¬ n.IsStep →
      Move.Follows (n.perform settings maps) ((n.mapActions Calls.copyNode).perform settings maps)) := by
  induction n using child_induction with
  | step n ih =>
      have hchildren : ∀ c ∈ n.children, c.StepsInRules := fun c hc m hm =>
        h m (mem_preorder_trans hm (mem_preorder_of_mem_children hc))
      cases haction : n.action? with
      | some a =>
          -- a copy that is gone cannot fail, so only what is noted is the same
          cases n <;> cases haction
          exact ⟨sheds_copyNode a, fun hn => absurd (.action a) hn⟩
      | none =>
          rw [mapActions_eq_withChildren haction]
          have hn := follows_withChildren haction
            (forall₂_perform fun c hc => (ih c hc (hchildren c hc)).1)
            fun hbranching => forall₂_perform fun c hc =>
              (ih c hc (hchildren c hc)).2 (h n (mem_preorder_self n) hbranching c hc)
          exact ⟨hn.sheds, fun _ => hn⟩

end Node

/-! ### Trees and their processors -/

namespace RuleTree

variable (settings : Settings) (t : RuleTree) (message : List UInt8)

theorem perform_foldConstants :
    (Calls.foldConstants t).perform settings message = t.perform settings message := by
  have hroot : (t.root.mapActions Calls.constantNode).perform settings t.valueMaps =
      t.root.perform settings t.valueMaps := Node.perform_mapActions Node.perform_constantNode t.root
  exact congrArg (fun f : Move => (f (.start message)).noted) hroot

theorem perform_dropNoops :
    (Calls.dropNoops t).perform settings message = t.perform settings message := by
  have hroot : t.root.dropNoops.perform settings t.valueMaps =
      t.root.perform settings t.valueMaps := Node.perform_dropNoops t.root
  exact congrArg (fun f : Move => (f (.start message)).noted) hroot

theorem perform_stripCopies (h : t.root.StepsInRules) :
    (Calls.stripCopies t).perform settings message = (t.perform settings message).withoutCopies :=
  (Node.sheds_mapActions_copyNode h).1 (.start message)

end RuleTree

namespace Processor

variable {year : Int} {config : Config} {t : RuleTree} {p : Processor}

/-- A tree whose edited root still compiles makes a processor, which leaves what the edited root performs. -/
theorem exists_ofTree_mapNodes (hbindings : t.bindings = .empty) (hp : ofTree year config t = .ok p)
    (f : Node → Node)
    (hf : ∀ settings, t.root.Compiles settings t.valueMaps → (f t.root).Compiles settings t.valueMaps) :
    (t.mapNodes f).bindings = .empty ∧
    ∃ q, ofTree year config (t.mapNodes f) = .ok q ∧ q.settings = p.settings ∧ ∀ message,
      (q.process message).fields = ((t.mapNodes f).perform p.settings message).fields ∧
      (q.process message).errors =
        ((t.mapNodes f).perform p.settings message).blames.map Blame.error := by
  have hempty : (t.mapNodes f).bindings = .empty := by
    unfold RuleTree.mapNodes
    rw [hbindings]
    rfl
  obtain ⟨hsettings, hcompile⟩ := parts_of_ofTree hp
  rw [RuleTree.compile_eq_unbound _ hbindings] at hcompile
  obtain ⟨program, hprogram⟩ := hf p.settings ⟨_, hcompile⟩
  have hq : ofTree year config (t.mapNodes f) = .ok ⟨program, p.settings, t.timestampField⟩ := by
    refine ofTree_eq_ok_iff.mpr ⟨p.settings, program, hsettings, ?_, rfl⟩
    rw [RuleTree.compile_eq_unbound _ hempty]
    exact hprogram
  exact ⟨hempty, _, hq, rfl, fun message => process_eq_perform hempty hq message⟩

/-- A copy of a field to itself is only ever blamed for a field that is not set. -/
theorem fieldNotFound_of_isSelfCopy {settings : Settings} {message : List UInt8} {b : Blame}
    (hb : b ∈ (t.perform settings message).blames) (hcopy : b.isSelfCopy = true) :
    ∃ a ∈ t.root.actions, ∃ target, b.action? = some a ∧
      a.effect = .setField target (.field target) ∧ b.error = .fieldNotFound target := by
  have hkeeps : (t.root.perform settings t.valueMaps).Keeps fun b => ∀ a, b.action? = some a →
      a.copiesItself = true → a ∈ t.root.actions ∧ ∃ target,
        a.effect = .setField target (.field target) ∧ b.error = .fieldNotFound target := by
    refine Node.keeps_perform (fun e a ha => nomatch ha) fun a ha op hop fields e he a' ha' hcopies => ?_
    cases ha'
    obtain ⟨target, heffect⟩ := Action.effect_of_copiesItself hcopies
    rw [Node.compileAction_copy heffect] at hop
    cases hop
    refine ⟨ha, target, heffect, ?_⟩
    rcases Node.apply_copy settings target fields with hset | hunset
    · rw [hset] at he
      cases he
    · rw [hunset] at he
      cases he
      rfl
  obtain ⟨a, haction, hcopies⟩ : ∃ a, b.action? = some a ∧ a.copiesItself = true := by
    unfold Blame.isSelfCopy at hcopy
    cases haction : b.action? with
    | none => simp [haction] at hcopy
    | some a => exact ⟨a, rfl, by simpa [haction] using hcopy⟩
  obtain ⟨ha, target, heffect, herror⟩ := hkeeps (.start message) (fun _ h => nomatch h) b hb a haction hcopies
  exact ⟨a, ha, target, haction, heffect, herror⟩

/-- **Cleaning up keeps what a processor does.** Take a tree without bindings, whose actions stand in match
rules, and a processor of it. The tree with constants joined and the tree without nodes that do nothing make
processors that leave the same fields and the same errors. So does the tree without copies of fields to
themselves, but for the errors that these are to blame for: fields that are not set. -/
theorem cleanup_keeps_results (hbindings : t.bindings = .empty) (hsteps : t.root.StepsInRules)
    (hp : ofTree year config t = .ok p) :
    (∃ q, ofTree year config (Calls.foldConstants t) = .ok q ∧ ∀ message,
      (q.process message).fields = (p.process message).fields ∧
      (q.process message).errors = (p.process message).errors) ∧
    (∃ q, ofTree year config (Calls.dropNoops t) = .ok q ∧ ∀ message,
      (q.process message).fields = (p.process message).fields ∧
      (q.process message).errors = (p.process message).errors) ∧
    ∃ q, ofTree year config (Calls.dropNoops (Calls.stripCopies t)) = .ok q ∧ ∀ message,
      (q.process message).fields = (p.process message).fields ∧
      (p.process message).errors = (t.perform p.settings message).blames.map Blame.error ∧
      (q.process message).errors =
        ((t.perform p.settings message).blames.filter (!·.isSelfCopy)).map Blame.error ∧
      ∀ b ∈ (t.perform p.settings message).blames, b.isSelfCopy = true →
        ∃ a ∈ t.root.actions, ∃ target, b.action? = some a ∧
          a.effect = .setField target (.field target) ∧ b.error = .fieldNotFound target := by
  have hdone := process_eq_perform hbindings hp
  refine ⟨?_, ?_, ?_⟩
  · obtain ⟨-, q, hq, -, hresult⟩ := exists_ofTree_mapNodes hbindings hp
      (Node.mapActions Calls.constantNode) fun settings h =>
        h.mapActions fun a => Node.compiles_constantNode
    refine ⟨q, hq, fun message => ?_⟩
    obtain ⟨hfields, herrors⟩ := hresult message
    rw [hfields, herrors, (hdone message).1, (hdone message).2]
    have hsame := RuleTree.perform_foldConstants p.settings t message
    exact ⟨congrArg Ledger.fields hsame, congrArg (·.blames.map Blame.error) hsame⟩
  · obtain ⟨-, q, hq, -, hresult⟩ := exists_ofTree_mapNodes hbindings hp Node.dropNoops
      fun settings h => h.dropNoops
    refine ⟨q, hq, fun message => ?_⟩
    obtain ⟨hfields, herrors⟩ := hresult message
    rw [hfields, herrors, (hdone message).1, (hdone message).2]
    have hsame := RuleTree.perform_dropNoops p.settings t message
    exact ⟨congrArg Ledger.fields hsame, congrArg (·.blames.map Blame.error) hsame⟩
  · obtain ⟨hempty, q₁, hq₁, hsettings, -⟩ := exists_ofTree_mapNodes hbindings hp
      (Node.mapActions Calls.copyNode) fun settings h => h.mapActions fun a => Node.compiles_copyNode
    obtain ⟨-, q, hq, -, hresult⟩ := exists_ofTree_mapNodes hempty hq₁ Node.dropNoops
      fun settings h => h.dropNoops
    refine ⟨q, hq, fun message => ?_⟩
    obtain ⟨hfields, herrors⟩ := hresult message
    rw [hsettings] at hfields herrors
    have hless := (RuleTree.perform_dropNoops p.settings (Calls.stripCopies t) message).trans
      (RuleTree.perform_stripCopies p.settings t message hsteps)
    refine ⟨?_, (hdone message).2, ?_, fun b hb => fieldNotFound_of_isSelfCopy hb⟩
    · have hkept := congrArg Ledger.fields hless
      rw [hfields, (hdone message).1]
      exact hkept
    · rw [herrors]
      exact congrArg (·.blames.map Blame.error) hless

/-! ### A rule to clean up -/

/-- A rule that joins constants, does nothing, copies what it captures to itself, and copies a field that is
not set to itself and to another. -/
def untidyTree : RuleTree where
  root :=
    let step (effect : Effect) : Node := .action ⟨effect, .blank⟩
    .matchRule ⟨"r", "message", [.value (.field "user")], none, .blank⟩
      [step (.call ⟨"vendor", "STRCAT", [.constant "ac", .constant "me"]⟩), .noop,
        step (.setField "user" (.field "user")), step (.setField "host" (.field "host")),
        step (.setField "source" (.field "host"))]
  valueMaps := .empty
  bindings := .empty
  timestampField := none

theorem stepsInRules_untidyTree : untidyTree.root.StepsInRules := by
  intro m hm hbranching
  simp [untidyTree, Node.preorder, Node.preorderAll] at hm
  rcases hm with rfl | rfl | rfl | rfl | rfl | rfl <;> cases hbranching

theorem cleanup_keeps_results_untidy :
    untidyTree.bindings = .empty ∧ untidyTree.root.StepsInRules ∧
    ∃ p, ofTree 2024 {} untidyTree = .ok p ∧
      (p.process (Text.encode "bob")).errors = [.fieldNotFound "host", .fieldNotFound "host"] ∧
    (∃ q, ofTree 2024 {} (Calls.foldConstants untidyTree) = .ok q ∧ ∀ message,
      (q.process message).fields = (p.process message).fields ∧
      (q.process message).errors = (p.process message).errors) ∧
    (∃ q, ofTree 2024 {} (Calls.dropNoops untidyTree) = .ok q ∧ ∀ message,
      (q.process message).fields = (p.process message).fields ∧
      (q.process message).errors = (p.process message).errors) ∧
    ∃ q, ofTree 2024 {} (Calls.dropNoops (Calls.stripCopies untidyTree)) = .ok q ∧
      (∀ message, (q.process message).fields = (p.process message).fields) ∧
      (q.process (Text.encode "bob")).errors = [.fieldNotFound "host"] := by
  obtain ⟨p, hp, herrors, hblames⟩ : ∃ p, ofTree 2024 {} untidyTree = .ok p ∧
      (p.process (Text.encode "bob")).errors = [.fieldNotFound "host", .fieldNotFound "host"] ∧
      ((untidyTree.perform p.settings (Text.encode "bob")).blames.filter (!·.isSelfCopy)).map
        Blame.error = [.fieldNotFound "host"] :=
    ⟨_, rfl, by decide +kernel, by decide +kernel⟩
  obtain ⟨hfold, hnoops, q, hq, hresult⟩ :=
    cleanup_keeps_results (t := untidyTree) rfl stepsInRules_untidyTree hp
  refine ⟨rfl, stepsInRules_untidyTree, p, hp, herrors, hfold, hnoops, q, hq, ?_, ?_⟩
  · exact fun message => (hresult message).1
  · rw [(hresult (Text.encode "bob")).2.2.1, hblames]

end Processor

end LogRules

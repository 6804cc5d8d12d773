import LogRules.Processing.Processor
import LogRules.Processing.Trace
import LogRules.Proofs.Result
import LogRules.Proofs.Tree.Inline

/-! # References stand for their bindings

A tree is compiled with a table of the programs of the bindings that were met. Every program in the table
is that of the binding with all its references replaced (`Compiling.AreBindings`); a computation that keeps
this and gives what another gives without a table agrees with it (`Compiling.Agrees`). Compiling a node
agrees with compiling it without a table when its references do (`Node.compile_agrees`), so a tree has the
program of the tree that it inlines to (`RuleTree.compile_eq_inlined`), and both make the same processor
(`RuleTree.ofTree_flattened`). -/

namespace LogRules

namespace Node

variable {settings : Settings} {maps : Table ValueMap} {m : Type → Type} [Monad m]
  [MonadLiftT (Except CompileError) m]

/-! ### Nodes in the place of references -/

/-- Nodes in the place of references compile to programs in the place of references. -/
theorem compile_expand (resolve : String → m Program) (f : String → Node) :
    (∀ n : Node, (n.expand f).compile settings maps resolve =
      n.compile settings maps fun name => (f name).compile settings maps resolve) ∧
    ∀ nodes : List Node,
      compileAll settings maps resolve (expandAll f nodes) =
        (compileAll settings maps (fun name => (f name).compile settings maps resolve) nodes) ∧
      compileEach settings maps resolve (expandAll f nodes) =
        (compileEach settings maps (fun name => (f name).compile settings maps resolve) nodes) := by
  refine Node.forest_induction ?_ ⟨rfl, rfl⟩ ?_
  · intro n ih
    cases n with
    | chain nodes =>
        dsimp only [children] at ih
        rw [expand, compile, compile, ih.1]
    | linearSelect nodes =>
        dsimp only [children] at ih
        rw [expand, compile, compile, ih.1]
    | messageIdSelect index nodes =>
        dsimp only [children] at ih
        rw [expand, compile, compile, ih.2]
    | matchRule rule onSuccess =>
        dsimp only [children] at ih
        rw [expand, compile, compile, ih.1]
    | action a => rfl
    | reference name => rfl
    | noop => rfl
  · intro n rest hn hrest
    refine ⟨?_, ?_⟩
    · rw [expandAll, compileAll, compileAll, hn, hrest.1]
    · rw [expandAll, compileEach, compileEach, hn, hrest.2]

end Node

namespace Compiling

/-! ### Computations with and without a table -/

variable {α β : Type} {Valid : Table Program → Prop}

/-- On valid tables the first computation gives what the second gives, and leaves a valid table. -/
structure Agrees (Valid : Table Program → Prop) (x : Compiling α) (y : Except CompileError α) : Prop where
  result : ∀ compiled, Valid compiled → Prod.fst <$> x.run compiled = y
  table : ∀ compiled, Valid compiled → ∀ r, x.run compiled = .ok r → Valid r.2

theorem agrees_pure (a : α) : Agrees Valid (pure a) (.ok a) := by
  refine ⟨fun _ _ => rfl, fun compiled hvalid r h => ?_⟩
  cases h
  exact hvalid

theorem agrees_liftM (y : Except CompileError α) : Agrees Valid (liftM y) y := by
  cases y with
  | error e => exact ⟨fun _ _ => rfl, fun _ _ _ h => nomatch h⟩
  | ok a => exact agrees_pure a

theorem Agrees.bind {x : Compiling α} {y : Except CompileError α} {f : α → Compiling β}
    {g : α → Except CompileError β} (hx : Agrees Valid x y)
    (hf : ∀ a, y = .ok a → Agrees Valid (f a) (g a)) : Agrees Valid (x >>= f) (y >>= g) := by
  have hrun : ∀ compiled, (x >>= f).run compiled =
      (x.run compiled >>= fun r => (f r.1).run r.2) := fun _ => rfl
  refine ⟨fun compiled hvalid => ?_, fun compiled hvalid r h => ?_⟩
  · have hresult := hx.result compiled hvalid
    rw [hrun]
    cases hxrun : x.run compiled with
    | error e =>
        rw [hxrun] at hresult
        cases hresult
        rfl
    | ok r =>
        rw [hxrun] at hresult
        cases hresult
        exact (hf r.1 rfl).result r.2 (hx.table compiled hvalid r hxrun)
  · rw [hrun] at h
    obtain ⟨r₁, hxrun, hfrun⟩ := bind_eq_ok.mp h
    have hresult := hx.result compiled hvalid
    rw [hxrun] at hresult
    exact (hf r₁.1 hresult.symm).table r₁.2 (hx.table compiled hvalid r₁ hxrun) r hfrun

theorem Agrees.map {x : Compiling α} {y : Except CompileError α} (hx : Agrees Valid x y) (f : α → β) :
    Agrees Valid (f <$> x) (f <$> y) := by
  have hmap : f <$> y = y >>= fun a => .ok (f a) := by cases y <;> rfl
  rw [hmap]
  exact hx.bind fun a _ => agrees_pure (f a)

/-- A program that the table may hold is the same from the table as made anew. -/
theorem Agrees.cached {name : String} {make : Compiling Program} {y : Except CompileError Program}
    (hmake : Agrees Valid make y)
    (hhit : ∀ compiled program, Valid compiled → compiled.get? name = some program → y = .ok program)
    (hkeep : ∀ compiled program, Valid compiled → y = .ok program →
      Valid (compiled.insert name program)) : Agrees Valid (Compiling.cached name make) y := by
  have hmiss : Agrees Valid
      (do
        let program ← make
        modify fun compiled => compiled.insert name program
        return program) y := by
    have hbind : y = y >>= .ok := by cases y <;> rfl
    rw [hbind]
    refine hmake.bind fun program hprogram => ⟨fun _ _ => rfl, fun compiled hvalid r hr => ?_⟩
    cases hr
    exact hkeep compiled program hvalid hprogram
  have hfound : ∀ compiled program, compiled.get? name = some program →
      (Compiling.cached name make).run compiled = .ok (program, compiled) := by
    intro compiled program hget
    unfold Compiling.cached
    rw [StateT.run_bind, StateT.run_get, pure_bind, hget]
    rfl
  have hmade : ∀ compiled, compiled.get? name = none →
      (Compiling.cached name make).run compiled = StateT.run (do
        let program ← make
        modify fun compiled => compiled.insert name program
        return program) compiled := by
    intro compiled hget
    unfold Compiling.cached
    rw [StateT.run_bind, StateT.run_get, pure_bind, hget]
  refine ⟨fun compiled hvalid => ?_, fun compiled hvalid r hr => ?_⟩
  · cases hget : compiled.get? name with
    | some program =>
        rw [hfound compiled program hget]
        exact (hhit compiled program hvalid hget).symm
    | none =>
        rw [hmade compiled hget]
        exact hmiss.result compiled hvalid
  · cases hget : compiled.get? name with
    | some program =>
        rw [hfound compiled program hget] at hr
        cases hr
        exact hvalid
    | none =>
        rw [hmade compiled hget] at hr
        exact hmiss.table compiled hvalid r hr

end Compiling

namespace Node

open Compiling

variable {settings : Settings} {maps : Table ValueMap} {Valid : Table Program → Prop}

theorem chosenPrograms_agrees {xs : List (Compiling Program)} {ys : List (Except CompileError Program)}
    (h : List.Forall₂ (Agrees Valid) xs ys) (entries : List (String × Nat)) :
    Agrees Valid (chosenPrograms xs entries) (chosenPrograms ys entries) := by
  induction entries with
  | nil => exact agrees_pure []
  | cons e rest ih =>
      obtain ⟨id, i⟩ := e
      have hrest : ∀ program : Program,
          Agrees Valid (do return (id, program) :: (← chosenPrograms xs rest))
            (do return (id, program) :: (← chosenPrograms ys rest)) :=
        fun program => ih.bind fun others _ => agrees_pure _
      rw [chosenPrograms, chosenPrograms]
      rcases Nat.lt_or_ge i xs.length with hi | hi
      · have hi' : i < ys.length := h.length_eq ▸ hi
        rw [List.getElem?_eq_getElem hi, List.getElem?_eq_getElem hi']
        exact (h.get hi hi').bind fun program _ => hrest program
      · rw [List.getElem?_eq_none hi, List.getElem?_eq_none (h.length_eq ▸ hi)]
        exact (agrees_liftM _).bind fun program _ => hrest program

/-- A node compiles as without a table when its references do. -/
theorem compile_agrees {resolve : String → Compiling Program}
    {resolve' : String → Except CompileError Program} :
    (∀ n : Node, (∀ name, reference name ∈ n.preorder → Agrees Valid (resolve name) (resolve' name)) →
      Agrees Valid (n.compile settings maps resolve) (n.compile settings maps resolve')) ∧
    ∀ nodes : List Node,
      (∀ n ∈ nodes, ∀ name, reference name ∈ n.preorder → Agrees Valid (resolve name) (resolve' name)) →
      Agrees Valid (compileAll settings maps resolve nodes) (compileAll settings maps resolve' nodes) ∧
      List.Forall₂ (Agrees Valid) (compileEach settings maps resolve nodes)
        (compileEach settings maps resolve' nodes) := by
  refine forest_induction ?_ ?_ ?_
  · intro n ih h
    obtain ⟨hall, heach⟩ := ih fun c hc name hname =>
      h name (mem_preorder_iff.mpr (.inr ⟨c, hc, hname⟩))
    cases n with
    | chain nodes => exact hall.map _
    | linearSelect nodes => exact hall.map _
    | messageIdSelect index nodes => exact (chosenPrograms_agrees heach index.entries).map _
    | matchRule rule onSuccess =>
        exact (agrees_liftM (compilePattern rule)).bind fun matcher _ => hall.map _
    | action a => exact agrees_liftM _
    | reference name => exact h name (mem_preorder_self _)
    | noop => exact agrees_pure _
  · exact fun _ => ⟨agrees_pure [], .nil⟩
  · intro n rest hn hrest h
    have hfirst := hn (h n List.mem_cons_self)
    obtain ⟨hall, heach⟩ := hrest fun c hc => h c (List.mem_cons_of_mem _ hc)
    exact ⟨hfirst.bind fun program _ => hall.bind fun programs _ => agrees_pure _, .cons hfirst heach⟩

end Node

namespace RuleTree

open Compiling

variable {settings : Settings} {t : RuleTree}

/-! ### The table of compiled bindings -/

/-- A binding without references does not change when references may go deeper. -/
theorem bindingNode_eq_of_isPlain {depth depth' : Nat} (hle : depth ≤ depth') {name : String}
    (h : (t.bindingNode depth name).IsPlain) : t.bindingNode depth' name = t.bindingNode depth name := by
  induction depth generalizing depth' name with
  | zero => exact absurd (Node.mem_preorder_self _) (h name)
  | succ depth ih =>
      obtain ⟨depth', rfl⟩ : ∃ d, depth' = d + 1 := ⟨depth' - 1, by omega⟩
      rw [bindingNode] at h
      rw [bindingNode, bindingNode]
      cases hn : t.bindings.get? name with
      | none => rfl
      | some n =>
          rw [hn] at h
          dsimp only at h ⊢
          refine Node.expand_congr fun next hnext => ih (by omega) ?_
          exact h.of_mem_preorder (Node.mem_preorder_expand _ hnext)

/-- The program of a binding with all its references replaced. -/
def inlinedProgram (settings : Settings) (t : RuleTree) (name : String) : Except CompileError Program :=
  (t.bindingNode t.bindings.size name).compile settings t.valueMaps fun _ => pure .noop

/-- The table holds programs of bindings with all their references replaced. -/
def AreBindings (settings : Settings) (t : RuleTree) (compiled : Table Program) : Prop :=
  ∀ name program, compiled.get? name = some program → t.inlinedProgram settings name = .ok program

theorem areBindings_empty : t.AreBindings settings .empty := fun _ _ h => nomatch h

theorem AreBindings.insert {compiled : Table Program} (h : t.AreBindings settings compiled)
    {name : String} {program : Program} (hprogram : t.inlinedProgram settings name = .ok program) :
    t.AreBindings settings (compiled.insert name program) := by
  intro other program' hget
  rw [Table.get?_insert] at hget
  split at hget
  · next heq =>
      cases hget
      exact heq ▸ hprogram
  · exact h other program' hget

/-- References agree with their bindings as deep as these are free of references. -/
theorem referenceProgram_agrees {depth : Nat} (hdepth : depth ≤ t.bindings.size) {name : String}
    (h : (t.bindingNode depth name).IsPlain) :
    Agrees (t.AreBindings settings) (t.referenceProgram settings depth name)
      (t.inlinedProgram settings name) := by
  induction depth generalizing name with
  | zero => exact absurd (Node.mem_preorder_self _) (h name)
  | succ depth ih =>
      have hsame := bindingNode_eq_of_isPlain hdepth h
      rw [bindingNode] at h hsame
      cases hn : t.bindings.get? name with
      | none =>
          rw [hn] at h
          exact absurd (Node.mem_preorder_self _) (h name)
      | some n =>
          rw [hn] at h hsame
          have hplain : ∀ next, .reference next ∈ n.preorder → (t.bindingNode depth next).IsPlain :=
            fun next hnext => h.of_mem_preorder (Node.mem_preorder_expand _ hnext)
          have hdeeper : n.expand (t.bindingNode depth) = n.expand (t.bindingNode t.bindings.size) :=
            Node.expand_congr fun next hnext =>
              (bindingNode_eq_of_isPlain (by omega) (hplain next hnext)).symm
          have hinlined : t.inlinedProgram settings name =
              n.compile settings t.valueMaps (t.inlinedProgram settings) := by
            rw [inlinedProgram, hsame]
            dsimp only
            rw [hdeeper, (Node.compile_expand _ _).1 n]
            rfl
          have hcompile : Agrees (t.AreBindings settings)
              (n.compile settings t.valueMaps (t.referenceProgram settings depth))
              (t.inlinedProgram settings name) := by
            rw [hinlined]
            exact Node.compile_agrees.1 n fun next hnext => ih (by omega) (hplain next hnext)
          rw [referenceProgram, sharedProgram, hn]
          exact hcompile.cached (fun _ program hvalid hget => hvalid name program hget)
            fun _ _ hvalid hprogram => hvalid.insert hprogram

/-- A tree has the program of the tree that it inlines to. -/
theorem compile_eq_inlined (settings : Settings) {t : RuleTree} (h : t.inlined.IsPlain) :
    t.compile settings = t.inlined.compile settings t.valueMaps fun _ => pure .noop := by
  have hroot : Agrees (t.AreBindings settings)
      (t.root.compile settings t.valueMaps (t.referenceProgram settings t.bindings.size))
      (t.root.compile settings t.valueMaps (t.inlinedProgram settings)) :=
    Node.compile_agrees.1 t.root fun name hname =>
      referenceProgram_agrees (Nat.le_refl _) (h.of_mem_preorder (Node.mem_preorder_expand _ hname))
  rw [inlined, (Node.compile_expand _ _).1 t.root]
  exact hroot.result .empty areBindings_empty

/-- The tree with every reference replaced by its binding, and without bindings. -/
def flattened (t : RuleTree) : RuleTree := { t with root := t.inlined, bindings := .empty }

/-- A tree that inlines to a tree without references makes the processor of that tree. -/
theorem ofTree_flattened (year : Int) (config : Config) {t : RuleTree} (h : t.inlined.IsPlain) :
    Processor.ofTree year config t.flattened = Processor.ofTree year config t := by
  have hflat : t.flattened.inlined = t.inlined := h.expand_eq_self _
  have hcompile : ∀ settings, t.flattened.compile settings = t.compile settings := by
    intro settings
    rw [compile_eq_inlined settings h, compile_eq_inlined settings (hflat ▸ h), hflat]
    rfl
  unfold Processor.ofTree
  simp only [hcompile]
  rfl

/-- **References mean their bindings.** A tree whose references all name bindings, none of which leads to
itself, makes a processor exactly when the tree with the bindings in their places does. Both processors
take every message to the same fields, the same errors and the same trace. -/
theorem references_mean_bindings (year : Int) (config : Config) (t : RuleTree) (ht : t.WellReferenced) :
    t.flattened.root.IsPlain ∧
      ((∃ p, Processor.ofTree year config t = .ok p) ↔
        ∃ q, Processor.ofTree year config t.flattened = .ok q) ∧
      ∀ p q, Processor.ofTree year config t = .ok p →
        Processor.ofTree year config t.flattened = .ok q → ∀ message,
          (q.process message).fields = (p.process message).fields ∧
            (q.process message).errors = (p.process message).errors ∧
            ∀ verbosity, Trace.render verbosity (q.process message).events =
              Trace.render verbosity (p.process message).events := by
  have hplain := inlined_isPlain ht
  have hsame := ofTree_flattened year config hplain
  refine ⟨hplain, by rw [hsame], fun p q hp hq message => ?_⟩
  rw [hsame, hp] at hq
  cases hq
  exact ⟨rfl, rfl, fun _ => rfl⟩

/-! ### A binding in a binding -/

/-- A rule that names an action twice, and a root that names both. -/
def nestedBindings : RuleTree where
  root := .chain [.reference "rule", .reference "vendor", .reference "rule"]
  valueMaps := .empty
  bindings := ⟨[("vendor", .action ⟨.setField "vendor" (.constant "acme"), ⟨.message, 0, none⟩⟩),
    ("rule", .matchRule ⟨"r", "message", [.value (.field "user")], none, ⟨.message, 0, none⟩⟩
      [.reference "vendor", .reference "vendor"])]⟩
  timestampField := none

theorem wellReferenced_nestedBindings : nestedBindings.WellReferenced := by
  have hnames : ∀ a b, nestedBindings.Names a b → a = "rule" ∧ b = "vendor" := by
    rintro a b ⟨n, hn, hb⟩
    have hmem := Table.mem_entries_of_get? hn
    simp only [nestedBindings, List.mem_cons, List.not_mem_nil, or_false, Prod.mk.injEq] at hmem
    rcases hmem with ⟨rfl, rfl⟩ | ⟨rfl, rfl⟩
    · simp [Node.preorder] at hb
    · simpa [Node.preorder, Node.preorderAll] using hb
  refine ⟨fun name hname => ?_, not_reaches_self_of_rank (fun a => if a = "rule" then 1 else 0) ?_⟩
  · have hbound : name = "rule" ∨ name = "vendor" := by
      simp [nestedBindings, nodes, Table.values, Node.preorder, Node.preorderAll] at hname
      tauto
    rcases hbound with rfl | rfl <;> decide
  · intro a b h
    obtain ⟨rfl, rfl⟩ := hnames a b h
    decide

theorem references_mean_bindings_nested :
    nestedBindings.WellReferenced ∧ ∃ p q, Processor.ofTree 2024 {} nestedBindings = .ok p ∧
      Processor.ofTree 2024 {} nestedBindings.flattened = .ok q ∧ ∀ message,
        (q.process message).fields = (p.process message).fields ∧
          (q.process message).errors = (p.process message).errors ∧
          ∀ verbosity, Trace.render verbosity (q.process message).events =
            Trace.render verbosity (p.process message).events := by
  have h := references_mean_bindings 2024 {} nestedBindings wellReferenced_nestedBindings
  obtain ⟨p, hp⟩ : ∃ p, Processor.ofTree 2024 {} nestedBindings = .ok p := ⟨_, rfl⟩
  obtain ⟨q, hq⟩ := h.2.1.mp ⟨p, hp⟩
  exact ⟨wellReferenced_nestedBindings, p, q, hp, hq, h.2.2 p q hp hq⟩

end RuleTree

end LogRules

import LogRules.Proofs.Processing.Inlining
import LogRules.Proofs.Pipeline.Unshared

/-! # What a message is shown of a tree

A root tries header rules and then the rules of the message id that these leave. Of such a root, a message
with an id is shown the header rules and the node of the id, without labels (`Node.view?`). A processor takes
a message to what the view of the message's own id takes it to (`Processor.process_of_view`), so nothing
else of the tree matters. -/

namespace LogRules

/-- The header rules, and the node of a message id when the id has one. -/
structure View where
  headers : List Node
  message? : Option Node

namespace Node

/-- The part of a root for an id, or for messages without one. -/
def part? (id? : Option String) : Node → Option View
  | chain [linearSelect headers, messageIdSelect index nodes] =>
    some ⟨headers, id?.bind fun id => (index.get? id).bind fun i => nodes[i]?⟩
  | _ => none

/-- What messages with this id, or without one, are shown of a root. -/
def view? (id? : Option String) (n : Node) : Option View := n.unlabelled.part? id?

theorem part?_eq_some {id? : Option String} {n : Node} {v : View} (h : n.part? id? = some v) :
    ∃ index nodes, n = chain [linearSelect v.headers, messageIdSelect index nodes] ∧
      v.message? = id?.bind fun id => (index.get? id).bind fun i => nodes[i]? := by
  unfold part? at h
  split at h
  · cases h
    exact ⟨_, _, rfl, rfl⟩
  · cases h

end Node

/-- What a tree without references compiles a reference to. -/
abbrev noReference (_ : String) : Except CompileError Program := .ok .noop

namespace View

variable (settings : Settings) (maps : Table ValueMap)

/-- The state of a message after the header rules of a view. -/
def runHeaders (v : View) (s : State) : Option State := do
  let headers ← (Node.compileAll settings maps noReference v.headers).toOption
  return (Program.run settings (.linearSelect headers) s).noted.state

/-- The state of a message after a view. -/
def run (v : View) (s : State) : Option State := do
  let s ← v.runHeaders settings maps s
  match s.fields.get? messageIdField with
  | none => return (Outcome.fail .messageIdMissing s).noted.state
  | some id =>
    match v.message? with
    | none => return (Outcome.fail (.messageIdNotMapped id) s).noted.state
    | some n => do
      let program ← (n.compile settings maps noReference).toOption
      return (program.run settings s).noted.state

end View

/-- The state of a message after the header rules, which are the first program of the chain. -/
def Processor.afterHeaders (p : Processor) (message : List UInt8) : State :=
  match p.program with
  | .chain (headers :: _) => (headers.run p.settings (.start message)).noted.state
  | _ => .start message

namespace Program

variable {settings : Settings}

/-! ### Running a chain of two programs -/

theorem unlabelled_eq_chain {p a b : Program} (h : p.unlabelled = chain [a, b]) :
    ∃ a' b', p = chain [a', b'] ∧ a'.unlabelled = a ∧ b'.unlabelled = b := by
  cases p with
  | chain programs =>
      rw [unlabelled, unlabelledAll_eq_map] at h
      obtain ⟨a', rest, rfl, ha, hrest⟩ := List.map_eq_cons_iff.mp (chain.inj h)
      obtain ⟨b', rest, rfl, hb, hrest⟩ := List.map_eq_cons_iff.mp hrest
      cases List.map_eq_nil_iff.mp hrest
      exact ⟨a', b', rfl, ha, hb⟩
  | _ => cases h

/-- The second program runs on what the first one leaves, and both failures are noted. -/
theorem run_chain_pair (a b : Program) (s : State) :
    ((chain [a, b]).run settings s).noted.state =
      (b.run settings (a.run settings s).noted.state).noted.state := by
  simp [run, runAll, Outcome.noted, Outcome.after, Outcome.succeed]

/-- The program of an id is that of the node which the id points to. -/
theorem runChosen_chosenPrograms {id : String} {programs : List (Except CompileError Program)}
    {entries : List (String × Nat)} {choices : List (String × Program)}
    (h : Node.chosenPrograms programs entries = .ok choices) (s : State) :
    (Table.lookup id entries = none ∧
      runChosen settings id choices s = .fail (.messageIdNotMapped id) s) ∨
    ∃ i p, Table.lookup id entries = some i ∧ programs[i]? = some (.ok p) ∧
      runChosen settings id choices s = p.run settings s := by
  induction entries generalizing choices with
  | nil =>
      cases h
      exact .inl ⟨rfl, rfl⟩
  | cons e rest ih =>
      obtain ⟨key, i⟩ := e
      have hoption := congrArg Except.toOption h
      rw [Node.toOption_chosenPrograms_cons] at hoption
      obtain ⟨p, hp, hoption⟩ := Option.bind_eq_some_iff.mp hoption
      obtain ⟨others, hothers, rfl⟩ := Option.map_eq_some_iff.mp hoption
      obtain ⟨x, hx, hxp⟩ := Option.bind_eq_some_iff.mp hp
      cases eq_ok_of_toOption hxp
      by_cases hkey : key = id
      · refine .inr ⟨i, p, ?_, hx, ?_⟩
        · rw [Table.lookup, if_pos hkey]
        · rw [runChosen, if_pos hkey]
      · rw [Table.lookup, if_neg hkey, runChosen, if_neg hkey]
        exact ih (eq_ok_of_toOption hothers)

end Program

/-! ### Running a view -/

namespace Node

variable {settings : Settings} {maps : Table ValueMap}

theorem compileEach_eq_map (resolve : String → Except CompileError Program) (nodes : List Node) :
    compileEach settings maps resolve nodes = nodes.map (compile settings maps resolve) := by
  induction nodes with
  | nil => rfl
  | cons n rest ih => rw [compileEach, ih, List.map_cons]

/-- The program of a root in two parts: the header rules and the choice among the nodes of message ids. -/
theorem compile_root {headers nodes : List Node} {index : Table Nat} {program : Program}
    (h : (chain [linearSelect headers, messageIdSelect index nodes]).compile settings maps noReference =
      .ok program) :
    ∃ programs choices, compileAll settings maps noReference headers = .ok programs ∧
      chosenPrograms (nodes.map (compile settings maps noReference)) index.entries = .ok choices ∧
      program = .chain [.linearSelect programs, .messageIdSelect choices] := by
  rw [compile] at h
  obtain ⟨both, hboth, rfl⟩ := map_eq_ok.mp h
  rw [compileAll] at hboth
  obtain ⟨first, hfirst, hboth⟩ := bind_eq_ok.mp hboth
  obtain ⟨others, hothers, heq⟩ := bind_eq_ok.mp hboth
  cases heq
  rw [compileAll] at hothers
  obtain ⟨second, hsecond, hothers⟩ := bind_eq_ok.mp hothers
  obtain ⟨rest, hrest, heq⟩ := bind_eq_ok.mp hothers
  cases heq
  cases hrest
  obtain ⟨programs, hprograms, rfl⟩ := map_eq_ok.mp hfirst
  obtain ⟨choices, hchoices, rfl⟩ := map_eq_ok.mp hsecond
  rw [compileEach_eq_map] at hchoices
  exact ⟨programs, choices, hprograms, hchoices, rfl⟩

end Node

namespace Processor

variable {year : Int} {config : Config} {t : RuleTree} {p : Processor}

/-- The settings and the program of a processor are those of its configuration and its tree. -/
theorem parts_of_ofTree (h : ofTree year config t = .ok p) :
    Settings.ofConfig year config = .ok p.settings ∧ t.compile p.settings = .ok p.program := by
  obtain ⟨_, _, hsettings, hprogram, rfl⟩ := ofTree_eq_ok_iff.mp h
  exact ⟨hsettings, hprogram⟩

/-- A processor takes a message to what the view of the tree takes it to, when the view is that of the id
which the header rules leave. -/
theorem process_of_view (h : ofTree year config t = .ok p) (ht : t.IsUnshared) {id? : Option String}
    {v : View} (hview : t.root.view? id? = some v) (message : List UInt8) :
    v.runHeaders p.settings t.valueMaps (.start message) = some (p.afterHeaders message) ∧
    ((p.afterHeaders message).fields.get? messageIdField = id? →
      ∃ s, v.run p.settings t.valueMaps (.start message) = some s ∧
        (p.process message).fields = s.fields ∧ (p.process message).errors = s.errors) := by
  obtain ⟨-, hcompile⟩ := parts_of_ofTree h
  obtain ⟨index, nodes, hroot, hmessage⟩ := Node.part?_eq_some hview
  have hinlined : t.inlined = t.root := ht.root.expand_eq_self _
  rw [RuleTree.compile_eq_inlined _ (hinlined ▸ ht.root), hinlined] at hcompile
  have hplain : t.root.compile p.settings t.valueMaps noReference = .ok p.program := hcompile
  -- the view only shows the tree without labels, so its program is looked at without labels too
  have hreferences : ∀ name, (noReference name).toOption =
      (noReference name).toOption.map Program.unlabelled := fun _ => rfl
  have hlabels : (t.root.unlabelled.compile p.settings t.valueMaps noReference).toOption =
      some p.program.unlabelled := by
    rw [(Node.compile_unlabelled hreferences).1 t.root, hplain]
    rfl
  rw [hroot] at hlabels
  obtain ⟨programs, choices, hprograms, hchoices, hprogram⟩ := Node.compile_root (eq_ok_of_toOption hlabels)
  obtain ⟨a, b, hpair, ha, hb⟩ := Program.unlabelled_eq_chain hprogram
  have hheaders : p.afterHeaders message =
      (Program.run p.settings (.linearSelect programs) (.start message)).noted.state := by
    rw [afterHeaders, hpair, ← ha]
    exact (Program.run_unlabelled p.settings a (.start message)).noted.2.symm
  have hfinal : (p.program.run p.settings (.start message)).noted.state =
      (Program.run p.settings (.messageIdSelect choices) (p.afterHeaders message)).noted.state := by
    rw [hpair, Program.run_chain_pair, ← hb, afterHeaders, hpair]
    exact (Program.run_unlabelled p.settings b _).noted.2.symm
  have hrunHeaders : v.runHeaders p.settings t.valueMaps (.start message) =
      some (p.afterHeaders message) := by
    rw [View.runHeaders, hprograms, hheaders]
    rfl
  refine ⟨hrunHeaders, fun hid => ?_⟩
  refine ⟨(p.program.run p.settings (.start message)).noted.state, ?_, rfl, rfl⟩
  rw [View.run, hrunHeaders, hfinal]
  cases id? with
  | none =>
      simp only [Option.bind_eq_bind, Option.bind_some, Program.run, hid]
      rfl
  | some id =>
      have hmessage : v.message? = (index.get? id).bind fun i => nodes[i]? := hmessage
      simp only [Option.bind_eq_bind, Option.bind_some, Program.run, hid]
      rcases Program.runChosen_chosenPrograms hchoices (p.afterHeaders message) with
        ⟨hnone, hrun⟩ | ⟨i, q, hi, hq, hrun⟩
      · have hunmapped : v.message? = none := by
          rw [hmessage, Table.get?, hnone]
          rfl
        rw [hunmapped, hrun]
        rfl
      · obtain ⟨n, hn, hnq⟩ := Option.map_eq_some_iff.mp ((List.getElem?_map ..).symm.trans hq)
        have hmapped : v.message? = some n := by
          rw [hmessage, Table.get?, hi]
          exact hn
        rw [hmapped, hrun]
        simp only [hnq]
        rfl

end Processor

end LogRules

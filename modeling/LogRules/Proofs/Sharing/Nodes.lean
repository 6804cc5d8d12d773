import LogRules.Proofs.Sharing.Extraction
import LogRules.Proofs.Tree.Everywhere

/-! # What the extraction of shared nodes cannot bring in

Extraction only stores nodes of the tree, gives nodes other children and makes references. A property that
does not look at children and holds of references (`Node.Shallow`) therefore holds of all nodes of the
result when it holds of all nodes of the tree (`forall_nodes_extractShared`), whichever nodes are taken for
one. -/

namespace LogRules

/-- The property does not look at the children of a node, and holds of references. -/
structure Node.Shallow (P : Node → Prop) : Prop where
  reference : ∀ name, P (.reference name)
  withChildren : ∀ (n : Node) (nodes : List Node), P n → P (n.withChildren nodes)

/-- The property holds of every node of every binding. -/
def BoundEverywhere (P : Node → Prop) (bindings : List (String × Node)) : Prop :=
  ∀ e ∈ bindings, e.2.Everywhere P

variable {P : Node → Prop}

namespace BoundEverywhere

theorem nil : BoundEverywhere P [] := fun _ h => nomatch h

theorem cons {name : String} {n : Node} {rest : List (String × Node)} (hn : n.Everywhere P)
    (hrest : BoundEverywhere P rest) : BoundEverywhere P ((name, n) :: rest) :=
  List.forall_mem_cons.mpr ⟨hn, hrest⟩

theorem append {bindings bindings' : List (String × Node)} (h : BoundEverywhere P bindings)
    (h' : BoundEverywhere P bindings') : BoundEverywhere P (bindings ++ bindings') :=
  List.forall_mem_append.mpr ⟨h, h'⟩

theorem insertEntry {name : String} {n : Node} {bindings : List (String × Node)}
    (hn : n.Everywhere P) (h : BoundEverywhere P bindings) :
    BoundEverywhere P (Table.insertEntry name n bindings) := by
  induction bindings with
  | nil => exact cons hn nil
  | cons e rest ih =>
      obtain ⟨k, m⟩ := e
      obtain ⟨hm, hrest⟩ := List.forall_mem_cons.mp h
      rw [Table.insertEntry]
      split
      · exact cons hn hrest
      · exact cons hm (ih hrest)

theorem insertAll {t : Table Node} {new : List (String × Node)} (h : BoundEverywhere P t.entries)
    (hnew : BoundEverywhere P new) : BoundEverywhere P (t.insertAll new).entries := by
  induction new generalizing t with
  | nil => exact h
  | cons e rest ih =>
      obtain ⟨hn, hrest⟩ := List.forall_mem_cons.mp hnew
      have hinsert : BoundEverywhere P (t.insert e.1 e.2).entries := insertEntry hn h
      exact ih hinsert hrest

end BoundEverywhere

theorem Node.Shallow.everywhere_reference (hP : Shallow P) (name : String) :
    (Node.reference name).Everywhere P :=
  everywhere_leaf (hP.reference name) rfl

theorem Node.Shallow.everywhere_withChildren (hP : Shallow P) {n : Node} {nodes : List Node}
    (hn : n.Everywhere P) (hnodes : ∀ c ∈ nodes, c.Everywhere P) :
    (n.withChildren nodes).Everywhere P := by
  refine everywhere_iff.mpr ⟨hP.withChildren n nodes (everywhere_iff.mp hn).1, fun c hc => ?_⟩
  cases n with
  | chain old => exact hnodes c hc
  | linearSelect old => exact hnodes c hc
  | messageIdSelect index old => exact hnodes c hc
  | matchRule rule old => exact hnodes c hc
  | _ => cases hc

theorem Node.Everywhere.children {n : Node} (h : n.Everywhere P) : ∀ c ∈ n.children, c.Everywhere P :=
  (everywhere_iff.mp h).2

theorem RuleTree.forall_nodes_iff {t : RuleTree} :
    (∀ n ∈ t.nodes, P n) ↔ t.root.Everywhere P ∧ BoundEverywhere P t.bindings.entries := by
  rw [RuleTree.nodes, List.forall_mem_append]
  refine and_congr Iff.rfl ⟨fun h e he m hm => ?_, fun h m hm => ?_⟩
  · exact h m (List.mem_flatMap.mpr ⟨e.2, List.mem_map_of_mem he, hm⟩)
  · obtain ⟨n, hn, hm⟩ := List.mem_flatMap.mp hm
    obtain ⟨e, he, rfl⟩ := List.mem_map.mp hn
    exact h e he m hm

namespace Sharing

/-! ### Hoisting -/

namespace Hoisting

theorem everywhere_hoist (hP : Node.Shallow P) {s : Hoisting} {n : Node} (hn : n.Everywhere P)
    (hs : BoundEverywhere P s.queue) :
    (s.hoist n).1.Everywhere P ∧ BoundEverywhere P (s.hoist n).2.queue := by
  unfold hoist
  cases s.names.get? n.signature with
  | some name => exact ⟨hP.everywhere_reference name, hs⟩
  | none => exact ⟨hP.everywhere_reference _, hs.append (.cons hn .nil)⟩

/-- Hoisting keeps the property in what it leaves and in what it stores. -/
theorem everywhere_hoisting (hP : Node.Shallow P) :
    (∀ (n : Node) (s : Hoisting), n.Everywhere P → BoundEverywhere P s.queue →
      (s.hoistIn n).1.Everywhere P ∧ BoundEverywhere P (s.hoistIn n).2.queue) ∧
    ∀ (nodes : List Node) (s : Hoisting), (∀ n ∈ nodes, n.Everywhere P) →
      BoundEverywhere P s.queue → (∀ n ∈ (s.hoistInAll nodes).1, n.Everywhere P) ∧
        BoundEverywhere P (s.hoistInAll nodes).2.queue := by
  refine Node.forest_induction ?_ ?_ ?_
  · intro n ih s hn hs
    by_cases hentity : isEntity n
    · rw [hoistIn_of_isEntity s hentity]
      exact everywhere_hoist hP hn hs
    · obtain ⟨hchildren, hqueue⟩ := ih s hn.children hs
      rw [hoistIn_of_not_isEntity s hentity]
      exact ⟨hP.everywhere_withChildren hn hchildren, hqueue⟩
  · exact fun s hnodes hs => ⟨hnodes, hs⟩
  · intro n rest ihn ihrest s hnodes hs
    obtain ⟨hn, hrest⟩ := List.forall_mem_cons.mp hnodes
    obtain ⟨hfirst, hqueue⟩ := ihn s hn hs
    obtain ⟨hothers, hqueue'⟩ := ihrest (s.hoistIn n).2 hrest hqueue
    rw [hoistInAll_cons]
    exact ⟨List.forall_mem_cons.mpr ⟨hfirst, hothers⟩, hqueue'⟩

/-- The queue leads to bindings with the property, however far it is worked off. -/
theorem everywhere_drain (hP : Node.Shallow P) (bound : Nat) (s : Hoisting)
    (hs : BoundEverywhere P s.queue) : BoundEverywhere P (s.drain bound) := by
  induction bound generalizing s with
  | zero => exact hs
  | succ bound ih =>
      obtain ⟨names, queue⟩ := s
      cases queue with
      | nil => exact .nil
      | cons e rest =>
          obtain ⟨hn, hrest⟩ := List.forall_mem_cons.mp hs
          obtain ⟨hchildren, hqueue⟩ := (everywhere_hoisting hP).2 e.2.children ⟨names, rest⟩
            hn.children hrest
          exact .cons (hP.everywhere_withChildren hn hchildren) (ih _ hqueue)

end Hoisting

theorem forall_nodes_hoistEntities (hP : Node.Shallow P) {t : RuleTree} (h : ∀ n ∈ t.nodes, P n) :
    ∀ n ∈ (hoistEntities t).nodes, P n := by
  obtain ⟨hroot, hbindings⟩ := RuleTree.forall_nodes_iff.mp h
  obtain ⟨hhoisted, hqueue⟩ := (Hoisting.everywhere_hoisting hP).1 t.root .start hroot .nil
  refine RuleTree.forall_nodes_iff.mpr ⟨hhoisted, ?_⟩
  exact hbindings.insertAll (Hoisting.everywhere_drain hP _ _ hqueue)

/-! ### Deduplication -/

namespace Round

theorem everywhere_share (hP : Node.Shallow P) {s : Round} {n : Node} (hn : n.Everywhere P)
    (hs : BoundEverywhere P s.bindings) :
    (s.share n).1.Everywhere P ∧ BoundEverywhere P (s.share n).2.bindings := by
  by_cases hdup : n.signature ∈ s.duplicated
  · cases hname : s.names.get? n.signature with
    | some name =>
        simp only [share, hdup, hname, if_true]
        exact ⟨hP.everywhere_reference name, hs⟩
    | none =>
        simp only [share, hdup, hname, if_true]
        exact ⟨hP.everywhere_reference _, hs.append (.cons hn .nil)⟩
  · simp only [share, hdup, if_false]
    exact ⟨hn, hs⟩

/-- Sharing keeps the property in what it leaves and in what it stores. -/
theorem everywhere_sharing (hP : Node.Shallow P) :
    (∀ (n : Node) (s : Round), n.Everywhere P → BoundEverywhere P s.bindings →
      (s.shareIn n).1.Everywhere P ∧ BoundEverywhere P (s.shareIn n).2.bindings) ∧
    ∀ (nodes : List Node) (s : Round), (∀ n ∈ nodes, n.Everywhere P) →
      BoundEverywhere P s.bindings → (∀ n ∈ (s.shareInAll nodes).1, n.Everywhere P) ∧
        BoundEverywhere P (s.shareInAll nodes).2.bindings := by
  refine Node.forest_induction ?_ ?_ ?_
  · intro n ih s hn hs
    by_cases hshare : isShareable n
    · obtain ⟨hchildren, hbindings⟩ := ih s hn.children hs
      rw [shareIn_of_isShareable s hshare]
      exact everywhere_share hP (hP.everywhere_withChildren hn hchildren) hbindings
    · rw [shareIn_of_not_isShareable s hshare]
      exact ⟨hn, hs⟩
  · exact fun s hnodes hs => ⟨hnodes, hs⟩
  · intro n rest ihn ihrest s hnodes hs
    obtain ⟨hn, hrest⟩ := List.forall_mem_cons.mp hnodes
    obtain ⟨hfirst, hbindings⟩ := ihn s hn hs
    obtain ⟨hothers, hbindings'⟩ := ihrest (s.shareIn n).2 hrest hbindings
    rw [shareInAll_cons]
    exact ⟨List.forall_mem_cons.mpr ⟨hfirst, hothers⟩, hbindings'⟩

theorem everywhere_shareInBindings (hP : Node.Shallow P) {s : Round}
    {bindings : List (String × Node)} (h : BoundEverywhere P bindings)
    (hs : BoundEverywhere P s.bindings) :
    BoundEverywhere P (s.shareInBindings bindings).1 ∧
      BoundEverywhere P (s.shareInBindings bindings).2.bindings := by
  induction bindings generalizing s with
  | nil => exact ⟨.nil, hs⟩
  | cons e rest ih =>
      obtain ⟨name, n⟩ := e
      obtain ⟨hn, hrest⟩ := List.forall_mem_cons.mp h
      obtain ⟨hchildren, hnew⟩ := (everywhere_sharing hP).2 n.children s hn.children hs
      obtain ⟨hothers, hnew'⟩ := ih hrest hnew
      rw [shareInBindings_cons]
      exact ⟨.cons (hP.everywhere_withChildren hn hchildren) hothers, hnew'⟩

end Round

theorem forall_nodes_shareRound (hP : Node.Shallow P) {t : RuleTree} (h : ∀ n ∈ t.nodes, P n)
    (duplicated : List String) (next : Nat) :
    ∀ n ∈ (shareRound duplicated next t).1.nodes, P n := by
  obtain ⟨hroot, hbindings⟩ := RuleTree.forall_nodes_iff.mp h
  obtain ⟨hshared, hnew⟩ := (Round.everywhere_sharing hP).1 t.root (.start duplicated next) hroot .nil
  obtain ⟨hbelow, hnew'⟩ := Round.everywhere_shareInBindings hP hbindings hnew
  rw [shareRound_eq rfl rfl]
  exact RuleTree.forall_nodes_iff.mpr ⟨hshared, BoundEverywhere.insertAll hbelow hnew'⟩

theorem forall_nodes_shareRounds (hP : Node.Shallow P) (bound next : Nat) {t : RuleTree}
    (h : ∀ n ∈ t.nodes, P n) : ∀ n ∈ (shareRounds bound next t).nodes, P n := by
  induction bound generalizing next t with
  | zero => exact h
  | succ bound ih =>
      rw [shareRounds]
      split
      · exact h
      · have hround := forall_nodes_shareRound hP h (duplicatedSignatures t) next
        dsimp only
        split
        · exact hround
        · exact ih _ hround

/-- The extraction brings in no node without the property. -/
theorem forall_nodes_extractShared (hP : Node.Shallow P) (config : Config) {t : RuleTree}
    (h : ∀ n ∈ t.nodes, P n) : ∀ n ∈ (extractShared config t).nodes, P n := by
  have hhoisted : ∀ n ∈ (hoisted config t).nodes, P n := by
    unfold hoisted
    split
    · exact forall_nodes_hoistEntities hP h
    · exact h
  rw [extractShared_eq]
  split
  · exact forall_nodes_shareRounds hP _ 0 hhoisted
  · exact hhoisted

end Sharing

/-! ### Rules and actions -/

/-- A condition on rules and one on actions. -/
def Node.Meets (R : MatchRule → Prop) (A : Action → Prop) : Node → Prop
  | matchRule rule _ => R rule
  | action a => A a
  | _ => True

theorem Node.shallow_meets (R : MatchRule → Prop) (A : Action → Prop) : Shallow (Meets R A) := by
  refine ⟨fun _ => trivial, fun n nodes h => ?_⟩
  cases n <;> exact h

namespace RuleTree

variable {R : MatchRule → Prop} {A : Action → Prop} {t : RuleTree}

theorem mem_rules {rule : MatchRule} : rule ∈ t.rules ↔ ∃ onSuccess, .matchRule rule onSuccess ∈ t.nodes := by
  rw [rules, List.mem_filterMap]
  constructor
  · rintro ⟨n, hn, heq⟩
    cases n <;> cases heq
    exact ⟨_, hn⟩
  · rintro ⟨onSuccess, hn⟩
    exact ⟨_, hn, rfl⟩

theorem mem_actions {a : Action} :
    a ∈ t.actions ↔ .action a ∈ t.nodes := by
  rw [actions, List.mem_filterMap]
  constructor
  · rintro ⟨n, hn, heq⟩
    cases n <;> cases heq
    exact hn
  · exact fun hn => ⟨_, hn, rfl⟩

theorem forall_nodes_meets_iff : (∀ n ∈ t.nodes, n.Meets R A) ↔
    (∀ rule ∈ t.rules, R rule) ∧ ∀ a ∈ t.actions, A a := by
  constructor
  · intro h
    refine ⟨fun rule hrule => ?_, fun a ha => h _ (mem_actions.mp ha)⟩
    obtain ⟨onSuccess, hn⟩ := mem_rules.mp hrule
    exact h _ hn
  · rintro ⟨hrules, hactions⟩ n hn
    cases n with
    | matchRule rule onSuccess => exact hrules rule (mem_rules.mpr ⟨onSuccess, hn⟩)
    | action a => exact hactions a (mem_actions.mpr hn)
    | _ => trivial

/-- The extraction brings in no rule and no action. -/
theorem forall_extractShared (config : Config) (hrules : ∀ rule ∈ t.rules, R rule)
    (hactions : ∀ a ∈ t.actions, A a) :
    (∀ rule ∈ (Sharing.extractShared config t).rules, R rule) ∧
      ∀ a ∈ (Sharing.extractShared config t).actions, A a :=
  forall_nodes_meets_iff.mp (Sharing.forall_nodes_extractShared (Node.shallow_meets R A) config
    (forall_nodes_meets_iff.mpr ⟨hrules, hactions⟩))

end RuleTree

end LogRules

import LogRules.Proofs.Sharing.Extraction

/-! # The size of a shared tree

A node that becomes a reference leaves a tree with one node more at most, and with one node less that
could become a reference later. So hoisting and deduplication keep the number of nodes and of nodes to
share below what it is at the beginning, and a shared tree has at most twice as many nodes as the tree
that it was taken from (`length_nodes_extractShared`). -/

namespace LogRules.Sharing

namespace Hoisting

theorem length_hoistInAll (s : Hoisting) (nodes : List Node) :
    (s.hoistInAll nodes).1.length = nodes.length := by
  induction nodes generalizing s with
  | nil => rfl
  | cons n rest ih => rw [hoistInAll_cons, List.length_cons, List.length_cons, ih]

/-- An entity becomes a reference, and is below a new binding when it is met for the first time. -/
theorem size_hoist {n : Node} (hentity : isEntity n) (s : Hoisting) :
    ∃ new, (s.hoist n).2.queue = s.queue ++ new ∧
      (s.hoist n).1.count + weight (s.hoist n).1 + (countBindings new + weightBelow new) ≤
        n.count + weight n := by
  have href : ∀ name, weight (.reference name) = 0 := fun _ => rfl
  have hone : ∀ name, (Node.reference name).count = 1 := fun _ => rfl
  rw [hoist, weight_of_isShareable (isShareable_of_isEntity hentity), Node.count_eq n]
  cases s.names.get? n.signature with
  | some name =>
      refine ⟨[], (List.append_nil _).symm, ?_⟩
      rw [href, hone, weightBelow_nil, countBindings_nil]
      omega
  | none =>
      refine ⟨_, rfl, ?_⟩
      rw [href, hone, weightBelow_cons, weightBelow_nil, countBindings_cons, countBindings_nil]
      omega

/-- What trees lose by hoisting is what the new bindings hold. -/
theorem size_hoisting :
    (∀ (n : Node) (s : Hoisting), ∃ new, (s.hoistIn n).2.queue = s.queue ++ new ∧
      (s.hoistIn n).1.count + weight (s.hoistIn n).1 + (countBindings new + weightBelow new) ≤
        n.count + weight n) ∧
    ∀ (nodes : List Node) (s : Hoisting), ∃ new, (s.hoistInAll nodes).2.queue = s.queue ++ new ∧
      Node.countAll (s.hoistInAll nodes).1 + weightAll (s.hoistInAll nodes).1 +
        (countBindings new + weightBelow new) ≤ Node.countAll nodes + weightAll nodes := by
  refine Node.forest_induction ?_ ?_ ?_
  · intro n ih s
    by_cases hentity : isEntity n
    · rw [hoistIn_of_isEntity s hentity]
      exact size_hoist hentity s
    · obtain ⟨new, hqueue, hle⟩ := ih s
      by_cases hshare : isShareable n
      · rw [hoistIn_of_not_isEntity s hentity, Node.count_eq, Node.count_eq n,
          weight_of_isShareable (isShareable_withChildren hshare _), weight_of_isShareable hshare,
          Node.children_withChildren (length_hoistInAll s n.children)]
        exact ⟨new, hqueue, by omega⟩
      · cases n with
        | reference name => exact ⟨[], (List.append_nil _).symm, Nat.le_refl _⟩
        | noop => exact ⟨[], (List.append_nil _).symm, Nat.le_refl _⟩
        | _ => exact absurd rfl hshare
  · exact fun s => ⟨[], (List.append_nil _).symm, Nat.le_refl _⟩
  · intro n rest ihn ihrest s
    obtain ⟨new, hqueue, hle⟩ := ihn s
    obtain ⟨new', hqueue', hle'⟩ := ihrest (s.hoistIn n).2
    rw [hoistInAll_cons, Node.countAll, Node.countAll, weightAll_cons, weightAll_cons]
    refine ⟨new ++ new', ?_, ?_⟩
    · rw [hqueue', hqueue, List.append_assoc]
    · rw [weightBelow_append, countBindings_append]
      omega

/-- Working off the queue adds nothing to what waits in it. -/
theorem size_drain (bound : Nat) (s : Hoisting) :
    countBindings (s.drain bound) + weightBelow (s.drain bound) ≤
      countBindings s.queue + weightBelow s.queue := by
  induction bound generalizing s with
  | zero => exact Nat.le_refl _
  | succ bound ih =>
      obtain ⟨names, queue⟩ := s
      cases queue with
      | nil => exact Nat.le_refl _
      | cons e rest =>
          obtain ⟨name, n⟩ := e
          obtain ⟨new, hnew, hle⟩ := size_hoisting.2 n.children ⟨names, rest⟩
          have hrest := ih (hoistInAll ⟨names, rest⟩ n.children).2
          rw [hnew, countBindings_append, weightBelow_append] at hrest
          rw [drain]
          dsimp only at hrest ⊢
          rw [countBindings_cons, countBindings_cons, weightBelow_cons, weightBelow_cons,
            Node.children_withChildren (length_hoistInAll _ n.children)]
          omega

end Hoisting

theorem size_hoistEntities (t : RuleTree) :
    (hoistEntities t).nodes.length + treeWeight (hoistEntities t) ≤ t.nodes.length + treeWeight t := by
  obtain ⟨new, hnew, hle⟩ := Hoisting.size_hoisting.1 t.root .start
  have hdrain := Hoisting.size_drain t.root.count (Hoisting.start.hoistIn t.root).2
  have hinsert := weightBelow_insertAll t.bindings
    ((Hoisting.start.hoistIn t.root).2.drain t.root.count)
  have hstart : (Hoisting.start).queue = [] := rfl
  rw [hnew, hstart, List.nil_append] at hdrain
  rw [length_nodes, length_nodes, treeWeight, treeWeight, hoistEntities]
  dsimp only
  omega

theorem size_shareRounds (bound next : Nat) (t : RuleTree) :
    (shareRounds bound next t).nodes.length + treeWeight (shareRounds bound next t) ≤
      t.nodes.length + treeWeight t := by
  induction bound generalizing next t with
  | zero => exact Nat.le_refl _
  | succ bound ih =>
      cases hdup : duplicatedSignatures t with
      | nil =>
          simp only [shareRounds, hdup, Nat.le_refl]
      | cons signature rest =>
          have hround := weight_shareRound (signature :: rest) next t
          simp only [shareRounds, hdup]
          split
          · omega
          · have hrest := ih (shareRound (signature :: rest) next t).2.next
              (shareRound (signature :: rest) next t).1
            omega

/-- Sharing at most doubles the number of nodes. -/
theorem length_nodes_extractShared (config : Config) (t : RuleTree) :
    (extractShared config t).nodes.length ≤ 2 * t.nodes.length := by
  have hweight := treeWeight_le t
  have hhoisted : (hoisted config t).nodes.length + treeWeight (hoisted config t) ≤
      t.nodes.length + treeWeight t := by
    unfold hoisted
    split
    · exact size_hoistEntities t
    · exact Nat.le_refl _
  rw [extractShared_eq]
  split
  · have hrounds := size_shareRounds ((hoisted config t).nodes.length + 1) 0 (hoisted config t)
    rw [removeDuplicates]
    omega
  · omega

end LogRules.Sharing

import LogRules.Proofs.Sharing.Store

/-! # Rounds of deduplication

A round replaces nodes from the leaves to the root, in the root of the tree and below every binding.
A node is compared when its children are done, so a run compares nodes that are in no tree it
began with: `metInRounds` lists them. A round keeps what a tree stands for
(`represents_shareRound`), and so does a run (`represents_shareRounds`). `Rounds` is the loop
without a bound; the bound of `shareRounds` is never reached, since a round leaves fewer nodes to
share, by as many as it replaced (`weight_shareRound`). -/

namespace LogRules.Sharing

namespace Round

theorem shareIn_of_isShareable (s : Round) {n : Node} (h : isShareable n) :
    s.shareIn n = (s.shareInAll n.children).2.share (n.withChildren (s.shareInAll n.children).1) := by
  cases n with
  | reference name => cases h
  | noop => cases h
  | _ => rfl

theorem shareIn_of_not_isShareable (s : Round) {n : Node} (h : ¬ isShareable n) :
    s.shareIn n = (n, s) := by
  cases n with
  | reference name => rfl
  | noop => rfl
  | _ => exact absurd rfl h

theorem shareInAll_cons (s : Round) (n : Node) (rest : List Node) :
    s.shareInAll (n :: rest) = ((s.shareIn n).1 :: ((s.shareIn n).2.shareInAll rest).1,
      ((s.shareIn n).2.shareInAll rest).2) := rfl

theorem shareInBindings_cons (s : Round) (name : String) (n : Node)
    (rest : List (String × Node)) :
    s.shareInBindings ((name, n) :: rest) =
      ((name, n.withChildren (s.shareInAll n.children).1) ::
        ((s.shareInAll n.children).2.shareInBindings rest).1,
      ((s.shareInAll n.children).2.shareInBindings rest).2) := rfl

/-- Sharing below bindings keeps their names. -/
theorem keys_shareInBindings (s : Round) (bindings : List (String × Node)) :
    (s.shareInBindings bindings).1.map Prod.fst = bindings.map Prod.fst := by
  induction bindings generalizing s with
  | nil => rfl
  | cons e rest ih => rw [shareInBindings_cons, List.map_cons, List.map_cons, ih]

/-! ### The nodes that are compared -/

mutual
/-- The nodes whose signatures are looked up while a tree is shared: each when its children are
done. -/
def metIn (s : Round) : Node → List Node
  | .chain nodes => metInAll s nodes ++ [.chain (s.shareInAll nodes).1]
  | .linearSelect nodes => metInAll s nodes ++ [.linearSelect (s.shareInAll nodes).1]
  | .messageIdSelect index nodes =>
    metInAll s nodes ++ [.messageIdSelect index (s.shareInAll nodes).1]
  | .matchRule rule onSuccess =>
    metInAll s onSuccess ++ [.matchRule rule (s.shareInAll onSuccess).1]
  | .action a => [.action a]
  | .reference _ => []
  | .noop => []

/-- The nodes whose signatures are looked up while several trees are shared. -/
def metInAll (s : Round) : List Node → List Node
  | [] => []
  | n :: rest => metIn s n ++ metInAll (s.shareIn n).2 rest
end

/-- The nodes whose signatures are looked up below the bindings. -/
def metInBindings (s : Round) : List (String × Node) → List Node
  | [] => []
  | (_, n) :: rest =>
    s.metInAll n.children ++ metInBindings (s.shareInAll n.children).2 rest

theorem metIn_of_isShareable (s : Round) {n : Node} (h : isShareable n) :
    s.metIn n = s.metInAll n.children ++ [n.withChildren (s.shareInAll n.children).1] := by
  cases n with
  | reference name => cases h
  | noop => cases h
  | _ => rfl

/-! ### What is stored -/

/-- The names and the new bindings of a round. -/
def store (s : Round) : Store := ⟨s.names, s.bindings, s.next⟩

section Kept

variable {whole : Node} {met : List Node} {old : List String} {μ : Meanings}

theorem share_kept {s : Round} {n : Node} (hw : whole.IsPlain) (hmet : SignaturesDecide met)
    (h : s.store.Sound whole met old "dup" μ) (hparts : Parts whole μ [n])
    (hshare : isShareable n) (hn : n ∈ met) :
    Kept whole met old "dup" μ [n] [(s.share n).1] (s.share n).2.store := by
  by_cases hdup : n.signature ∈ s.duplicated
  · cases hname : s.names.get? n.signature with
    | some name =>
        simp only [share, hdup, hname, if_true]
        exact .found h hmet hn hname
    | none =>
        simp only [share, hdup, hname, if_true]
        exact .store h hw hn hparts hshare
  · simp only [share, hdup, if_false]
    exact .refl h _

/-- Sharing in trees keeps what the trees stand for. -/
theorem sharing_kept (hw : whole.IsPlain) (hmet : SignaturesDecide met) :
    (∀ (n : Node) (s : Round) (μ : Meanings), s.store.Sound whole met old "dup" μ →
      Parts whole μ [n] → s.metIn n ⊆ met →
      Kept whole met old "dup" μ [n] [(s.shareIn n).1] (s.shareIn n).2.store) ∧
    ∀ (nodes : List Node) (s : Round) (μ : Meanings), s.store.Sound whole met old "dup" μ →
      Parts whole μ nodes → s.metInAll nodes ⊆ met →
      Kept whole met old "dup" μ nodes (s.shareInAll nodes).1 (s.shareInAll nodes).2.store := by
  refine Node.forest_induction ?_ ?_ ?_
  · intro n ih s μ h hparts hsub
    by_cases hshare : isShareable n
    · rw [metIn_of_isShareable s hshare, List.append_subset] at hsub
      rw [shareIn_of_isShareable s hshare]
      have hbelow := ih s μ h (.children (hparts n List.mem_cons_self)) hsub.1
      refine .trans hparts (.withChildren (not_isReference_of_isShareable hshare) hbelow) ?_
      intro μ₁ h₁ hp₁
      exact share_kept hw hmet h₁ hp₁ (isShareable_withChildren hshare _)
        (hsub.2 List.mem_cons_self)
    · rw [shareIn_of_not_isShareable s hshare]
      exact .refl h _
  · intro s μ h _ _
    exact .refl h _
  · intro n rest ihn ihrest s μ h hparts hsub
    rw [metInAll, List.append_subset] at hsub
    rw [shareInAll_cons]
    refine Kept.cons hw hparts (ihn s μ h hparts.head hsub.1) ?_
    exact fun μ₁ h₁ hp₁ => ihrest _ μ₁ h₁ hp₁ hsub.2

/-- Sharing below bindings keeps what the bindings stand for. -/
theorem shareInBindings_kept (hw : whole.IsPlain) (hmet : SignaturesDecide met) {s : Round}
    {bindings : List (String × Node)} (h : s.store.Sound whole met old "dup" μ)
    (hstands : ∀ e ∈ bindings, Stands whole μ e) (hsub : s.metInBindings bindings ⊆ met) :
    ∃ μ', Extends μ μ' ∧ (s.shareInBindings bindings).2.store.Sound whole met old "dup" μ' ∧
      ∀ e ∈ (s.shareInBindings bindings).1, Stands whole μ' e := by
  induction bindings generalizing s μ with
  | nil => exact ⟨μ, .refl μ, h, hstands⟩
  | cons e rest ih =>
      obtain ⟨name, n⟩ := e
      rw [metInBindings, List.append_subset] at hsub
      have hn : Stands whole μ (name, n) := hstands _ List.mem_cons_self
      have hparts : Parts whole μ n.children := .children (hn.meaning_eq ▸ hn.isPart)
      obtain ⟨μ₁, hμ₁, hσ₁, heq⟩ := (sharing_kept hw hmet).2 n.children s μ h hparts hsub.1
      have hrest : ∀ e ∈ rest, Stands whole μ₁ e := fun e he =>
        (hstands e (List.mem_cons_of_mem _ he)).of_extends hw hμ₁
      obtain ⟨μ₂, hμ₂, hσ₂, hstands₂⟩ := ih hσ₁ hrest hsub.2
      have hput : Stands whole μ₁ (name, n.withChildren (s.shareInAll n.children).1) :=
        (hn.of_extends hw hμ₁).withChildren (heq.trans (hparts.map_meaning_eq hw hμ₁).symm)
      rw [shareInBindings_cons]
      refine ⟨μ₂, hμ₁.trans hμ₂, hσ₂, fun e he => ?_⟩
      rcases List.mem_cons.mp he with rfl | he
      · exact hput.of_extends hw hμ₂
      · exact hstands₂ e he

end Kept

/-- A round in which nothing happened yet. -/
def start (duplicated : List String) (next : Nat) : Round := ⟨duplicated, .empty, [], next, 0⟩

end Round

/-! ### What a run keeps -/

/-- The nodes whose signatures are looked up in a round. -/
def metInRound (duplicated : List String) (next : Nat) (t : RuleTree) : List Node :=
  (Round.start duplicated next).metIn t.root ++
    ((Round.start duplicated next).shareIn t.root).2.metInBindings t.bindings.entries

/-- The nodes whose signatures are looked up in a run of at most `bound` rounds. -/
def metInRounds : (bound next : Nat) → RuleTree → List Node
  | 0, _, _ => []
  | bound + 1, next, t =>
    match duplicatedSignatures t with
    | [] => []
    | duplicated =>
      let (t', s) := shareRound duplicated next t
      metInRound duplicated next t ++
        if s.replaced = 0 then [] else metInRounds bound s.next t'

/-- The names from a number on are free in a tree. -/
def FreeFrom (next : Nat) (t : RuleTree) : Prop :=
  ∀ k, next ≤ k → "dup" ++ toString k ∉ t.bindings.keys

theorem shareRound_eq {duplicated : List String} {next : Nat} {t : RuleTree}
    {r : Node × Round} {b : List (String × Node) × Round}
    (hr : (Round.start duplicated next).shareIn t.root = r)
    (hb : r.2.shareInBindings t.bindings.entries = b) :
    shareRound duplicated next t =
      ({ t with root := r.1, bindings := (⟨b.1⟩ : Table Node).insertAll b.2.bindings }, b.2) := by
  subst hr hb
  rfl

/-- A round leads to a tree that stands for the same, in which old names keep their meaning and what was stored
stands behind the old bindings. -/
theorem sound_shareRound {whole : Node} {μ : Meanings} {duplicated : List String} {next : Nat}
    {t : RuleTree} (hw : whole.IsPlain) (h : Represents whole μ t) (hfree : FreeFrom next t)
    (hmet : SignaturesDecide (metInRound duplicated next t)) :
    ∃ μ', Extends μ μ' ∧ Represents whole μ' (shareRound duplicated next t).1 ∧
      FreeFrom (shareRound duplicated next t).2.next (shareRound duplicated next t).1 ∧
      (shareRound duplicated next t).2.store.Sound whole (metInRound duplicated next t) t.bindings.keys
        "dup" μ' ∧
      (shareRound duplicated next t).1.bindings.entries =
        (((Round.start duplicated next).shareIn t.root).2.shareInBindings t.bindings.entries).1 ++
          (shareRound duplicated next t).2.bindings := by
  have hstart : (Round.start duplicated next).store.Sound whole (metInRound duplicated next t)
      t.bindings.keys "dup" μ := Store.sound_start h _ hfree
  have hparts : Parts whole μ [t.root] := by
    intro n hn
    cases List.mem_singleton.mp hn
    exact h.root ▸ Node.mem_preorder_self _
  obtain ⟨μ₁, hμ₁, hσ₁, heq⟩ := (Round.sharing_kept hw hmet).1 t.root _ μ hstart hparts
    (List.subset_append_left _ _)
  have hstands : ∀ e ∈ t.bindings.entries, Stands whole μ₁ e := fun e he =>
    (h.bindings e he).of_extends hw hμ₁
  obtain ⟨μ₂, hμ₂, hσ₂, hstands₂⟩ := Round.shareInBindings_kept hw hmet hσ₁ hstands
    (List.subset_append_right _ _)
  have hkeys : Table.keys ⟨_⟩ = t.bindings.keys := Round.keys_shareInBindings
    ((Round.start duplicated next).shareIn t.root).2 t.bindings.entries
  have hroot : ((Round.start duplicated next).shareIn t.root).1.meaning μ₂ = whole.unlabelled := by
    rw [List.map_singleton, List.map_singleton, List.singleton_inj, h.root] at heq
    rw [hμ₂.meaning_eq (heq ▸ Node.isPlain_unlabelled.mpr hw), heq]
  refine ⟨μ₂, hμ₁.trans hμ₂,
    hσ₂.represents (t := { t with root := _, bindings := ⟨_⟩ }) hroot hkeys hstands₂, ?_, hσ₂,
    hσ₂.entries_insertAll hkeys⟩
  exact fun k hk hmem => hσ₂.fresh k hk (hσ₂.keys_insertAll hkeys ▸ hmem)

/-- A round leads to a tree that stands for the same, and names only what it numbers. -/
theorem represents_shareRound {whole : Node} {μ : Meanings} {duplicated : List String} {next : Nat}
    {t : RuleTree} (hw : whole.IsPlain) (h : Represents whole μ t) (hfree : FreeFrom next t)
    (hmet : SignaturesDecide (metInRound duplicated next t)) :
    ∃ μ', Represents whole μ' (shareRound duplicated next t).1 ∧
      FreeFrom (shareRound duplicated next t).2.next (shareRound duplicated next t).1 := by
  obtain ⟨μ', -, hrep, hfree', -⟩ := sound_shareRound hw h hfree hmet
  exact ⟨μ', hrep, hfree'⟩

/-- A run of rounds leads to a tree that stands for the same. -/
theorem represents_shareRounds {whole : Node} (hw : whole.IsPlain) (bound next : Nat)
    {μ : Meanings} {t : RuleTree} (h : Represents whole μ t) (hfree : FreeFrom next t)
    (hmet : SignaturesDecide (metInRounds bound next t)) :
    ∃ μ', Represents whole μ' (shareRounds bound next t) := by
  induction bound generalizing next μ t with
  | zero => exact ⟨μ, h⟩
  | succ bound ih =>
      cases hdup : duplicatedSignatures t with
      | nil =>
          rw [shareRounds, hdup]
          exact ⟨μ, h⟩
      | cons signature rest =>
          simp only [metInRounds, hdup] at hmet
          simp only [shareRounds, hdup]
          obtain ⟨μ₁, h₁, hfree₁⟩ := represents_shareRound hw h hfree
            (hmet.mono (List.subset_append_left _ _))
          split
          · exact ⟨μ₁, h₁⟩
          · next hreplaced =>
              rw [if_neg hreplaced] at hmet
              exact ih _ h₁ hfree₁ (hmet.mono (List.subset_append_right _ _))

/-! ### The loop over the rounds -/

/-- The number of nodes of a tree that could be shared. -/
def weight (n : Node) : Nat := n.preorder.countP isShareable

/-- The number of nodes of several trees that could be shared. -/
def weightAll (nodes : List Node) : Nat := (Node.preorderAll nodes).countP isShareable

theorem weightAll_cons (n : Node) (rest : List Node) :
    weightAll (n :: rest) = weight n + weightAll rest := List.countP_append ..

theorem weight_of_isShareable {n : Node} (h : isShareable n) :
    weight n = weightAll n.children + 1 := by
  rw [weight, Node.preorder_eq, List.countP_cons_of_pos h]
  rfl

/-- The number of nodes below some bindings that could be shared. The roots of bindings are stored
copies and stay. -/
def weightBelow : List (String × Node) → Nat
  | [] => 0
  | (_, n) :: rest => weightAll n.children + weightBelow rest

@[simp] theorem weightBelow_nil : weightBelow [] = 0 := rfl

@[simp] theorem weightBelow_cons (name : String) (n : Node) (rest : List (String × Node)) :
    weightBelow ((name, n) :: rest) = weightAll n.children + weightBelow rest := rfl

@[simp] theorem weightBelow_append (bindings bindings' : List (String × Node)) :
    weightBelow (bindings ++ bindings') = weightBelow bindings + weightBelow bindings' := by
  induction bindings with
  | nil => rw [List.nil_append, weightBelow_nil, Nat.zero_add]
  | cons e rest ih => rw [List.cons_append, weightBelow_cons, weightBelow_cons, ih, Nat.add_assoc]

theorem Round.length_shareInAll (s : Round) (nodes : List Node) :
    (s.shareInAll nodes).1.length = nodes.length := by
  induction nodes generalizing s with
  | nil => rfl
  | cons n rest ih => rw [shareInAll_cons, List.length_cons, List.length_cons, ih]

/-- The number of nodes of some bindings, roots included. -/
def countBindings (bindings : List (String × Node)) : Nat := Node.countAll (bindings.map Prod.snd)

@[simp] theorem countBindings_nil : countBindings [] = 0 := rfl

@[simp] theorem countBindings_cons (name : String) (n : Node) (rest : List (String × Node)) :
    countBindings ((name, n) :: rest) = Node.countAll n.children + 1 + countBindings rest := by
  rw [← Node.count_eq]
  rfl

@[simp] theorem countBindings_append (bindings bindings' : List (String × Node)) :
    countBindings (bindings ++ bindings') = countBindings bindings + countBindings bindings' := by
  rw [countBindings, List.map_append, Node.countAll_append]
  rfl

/-- A shared node leaves its children to share at most, one replacement is one node less to share, and
it adds a reference at most. -/
theorem Round.weight_share (s : Round) {n : Node} (h : isShareable n) :
    ∃ new, (s.share n).2.bindings = s.bindings ++ new ∧
      weight (s.share n).1 + weightBelow new + (s.share n).2.replaced ≤
        weightAll n.children + 1 + s.replaced ∧
      (s.share n).1.count + countBindings new + s.replaced ≤
        Node.countAll n.children + 1 + (s.share n).2.replaced := by
  have href : ∀ name, weight (.reference name) = 0 := fun _ => rfl
  have hone : ∀ name, (Node.reference name).count = 1 := fun _ => rfl
  by_cases hdup : n.signature ∈ s.duplicated
  · cases hname : s.names.get? n.signature with
    | some name =>
        simp only [share, hdup, hname, if_true]
        refine ⟨[], (List.append_nil _).symm, ?_⟩
        rw [href, hone, weightBelow_nil, countBindings_nil]
        omega
    | none =>
        simp only [share, hdup, hname, if_true]
        refine ⟨_, rfl, ?_⟩
        rw [href, hone, weightBelow_cons, weightBelow_nil, countBindings_cons, countBindings_nil]
        omega
  · simp only [share, hdup, if_false]
    refine ⟨[], (List.append_nil _).symm, ?_⟩
    rw [weight_of_isShareable h, Node.count_eq, weightBelow_nil, countBindings_nil]
    omega

/-- What trees lose by sharing is what was replaced and what the new bindings hold, and what they gain
is a node for each replacement at most. -/
theorem Round.weight_sharing :
    (∀ (n : Node) (s : Round), ∃ new, (s.shareIn n).2.bindings = s.bindings ++ new ∧
      weight (s.shareIn n).1 + weightBelow new + (s.shareIn n).2.replaced ≤
        weight n + s.replaced ∧
      (s.shareIn n).1.count + countBindings new + s.replaced ≤
        n.count + (s.shareIn n).2.replaced) ∧
    ∀ (nodes : List Node) (s : Round), ∃ new,
      (s.shareInAll nodes).2.bindings = s.bindings ++ new ∧
      weightAll (s.shareInAll nodes).1 + weightBelow new + (s.shareInAll nodes).2.replaced ≤
        weightAll nodes + s.replaced ∧
      Node.countAll (s.shareInAll nodes).1 + countBindings new + s.replaced ≤
        Node.countAll nodes + (s.shareInAll nodes).2.replaced := by
  refine Node.forest_induction ?_ ?_ ?_
  · intro n ih s
    by_cases hshare : isShareable n
    · obtain ⟨new, hnew, hle, hcount⟩ := ih s
      obtain ⟨new', hnew', hle', hcount'⟩ := (s.shareInAll n.children).2.weight_share
        (isShareable_withChildren hshare (s.shareInAll n.children).1)
      rw [Node.children_withChildren (length_shareInAll s n.children)] at hle' hcount'
      rw [shareIn_of_isShareable s hshare, weight_of_isShareable hshare, Node.count_eq n]
      refine ⟨new ++ new', ?_, ?_⟩
      · rw [hnew', hnew, List.append_assoc]
      · rw [weightBelow_append, countBindings_append]
        omega
    · rw [shareIn_of_not_isShareable s hshare]
      exact ⟨[], (List.append_nil _).symm, Nat.le_refl _, Nat.le_refl _⟩
  · exact fun s => ⟨[], (List.append_nil _).symm, Nat.le_refl _, Nat.le_refl _⟩
  · intro n rest ihn ihrest s
    obtain ⟨new, hnew, hle, hcount⟩ := ihn s
    obtain ⟨new', hnew', hle', hcount'⟩ := ihrest (s.shareIn n).2
    rw [shareInAll_cons]
    refine ⟨new ++ new', ?_, ?_⟩
    · rw [hnew', hnew, List.append_assoc]
    · rw [weightBelow_append, countBindings_append, weightAll_cons, weightAll_cons, Node.countAll,
        Node.countAll]
      dsimp only
      omega

theorem Round.weight_shareInBindings (s : Round) (bindings : List (String × Node)) :
    ∃ new, (s.shareInBindings bindings).2.bindings = s.bindings ++ new ∧
      weightBelow (s.shareInBindings bindings).1 + weightBelow new +
        (s.shareInBindings bindings).2.replaced ≤ weightBelow bindings + s.replaced ∧
      countBindings (s.shareInBindings bindings).1 + countBindings new + s.replaced ≤
        countBindings bindings + (s.shareInBindings bindings).2.replaced := by
  induction bindings generalizing s with
  | nil => exact ⟨[], (List.append_nil _).symm, Nat.le_refl _, Nat.le_refl _⟩
  | cons e rest ih =>
      obtain ⟨name, n⟩ := e
      obtain ⟨new, hnew, hle, hcount⟩ := weight_sharing.2 n.children s
      obtain ⟨new', hnew', hle', hcount'⟩ := ih (s.shareInAll n.children).2
      rw [shareInBindings_cons]
      refine ⟨new ++ new', ?_, ?_⟩
      · rw [hnew', hnew, List.append_assoc]
      · rw [weightBelow_append, weightBelow_cons, weightBelow_cons, countBindings_append,
          countBindings_cons, countBindings_cons,
          Node.children_withChildren (length_shareInAll s n.children)]
        dsimp only
        omega

theorem weightBelow_insertEntry (name : String) (n : Node) (bindings : List (String × Node)) :
    weightBelow (Table.insertEntry name n bindings) ≤
      weightBelow bindings + weightAll n.children ∧
    countBindings (Table.insertEntry name n bindings) ≤
      countBindings bindings + (Node.countAll n.children + 1) := by
  induction bindings with
  | nil => exact ⟨Nat.le_of_eq (Nat.add_comm _ _), Nat.le_of_eq (by simp [Table.insertEntry])⟩
  | cons e rest ih =>
      obtain ⟨k, m⟩ := e
      rw [Table.insertEntry]
      split
      · rw [weightBelow_cons, weightBelow_cons, countBindings_cons, countBindings_cons]
        omega
      · rw [weightBelow_cons, weightBelow_cons, countBindings_cons, countBindings_cons]
        omega

theorem weightBelow_insertAll (bindings : Table Node) (new : List (String × Node)) :
    weightBelow (bindings.insertAll new).entries ≤
      weightBelow bindings.entries + weightBelow new ∧
    countBindings (bindings.insertAll new).entries ≤
      countBindings bindings.entries + countBindings new := by
  induction new generalizing bindings with
  | nil => exact ⟨Nat.le_refl _, Nat.le_refl _⟩
  | cons e rest ih =>
      obtain ⟨name, n⟩ := e
      obtain ⟨hweight, hcount⟩ := weightBelow_insertEntry name n bindings.entries
      obtain ⟨hweight', hcount'⟩ := ih (bindings.insert name n)
      change weightBelow ((bindings.insert name n).insertAll rest).entries ≤ _ ∧
        countBindings ((bindings.insert name n).insertAll rest).entries ≤ _
      change _ ≤ weightBelow (Table.insertEntry name n bindings.entries) + _ at hweight'
      change _ ≤ countBindings (Table.insertEntry name n bindings.entries) + _ at hcount'
      rw [weightBelow_cons, countBindings_cons]
      omega

/-- The number of nodes of a tree that a round could replace. -/
def treeWeight (t : RuleTree) : Nat := weight t.root + weightBelow t.bindings.entries

theorem length_nodes (t : RuleTree) :
    t.nodes.length = t.root.count + countBindings t.bindings.entries := by
  rw [RuleTree.nodes, ← Node.preorderAll_eq_flatMap, List.length_append, Node.length_preorder.1,
    Node.length_preorder.2]
  rfl

/-- A round leaves fewer nodes to share, by as many as it replaced, and adds as many nodes at most. -/
theorem weight_shareRound (duplicated : List String) (next : Nat) (t : RuleTree) :
    treeWeight (shareRound duplicated next t).1 + (shareRound duplicated next t).2.replaced ≤
      treeWeight t ∧
    (shareRound duplicated next t).1.nodes.length ≤
      t.nodes.length + (shareRound duplicated next t).2.replaced := by
  obtain ⟨new, hnew, hle, hcount⟩ := Round.weight_sharing.1 t.root (.start duplicated next)
  generalize hr : (Round.start duplicated next).shareIn t.root = r at hnew hle hcount
  obtain ⟨new', hnew', hle', hcount'⟩ := r.2.weight_shareInBindings t.bindings.entries
  generalize hb : r.2.shareInBindings t.bindings.entries = b at hnew' hle' hcount'
  have hinsert := weightBelow_insertAll ⟨b.1⟩ b.2.bindings
  have hnone : (Round.start duplicated next).bindings = [] := rfl
  have hzero : (Round.start duplicated next).replaced = 0 := rfl
  rw [hnew', hnew, hnone, List.nil_append, weightBelow_append, countBindings_append] at hinsert
  rw [length_nodes, length_nodes, shareRound_eq hr hb, treeWeight, treeWeight, hnew', hnew, hnone,
    List.nil_append]
  dsimp only at hinsert ⊢
  omega

/-- The loop without a bound: it ends when no signature occurs twice or when a round replaced
nothing. -/
inductive Rounds : Nat → RuleTree → RuleTree → Prop
  | unique {next : Nat} {t : RuleTree} (h : duplicatedSignatures t = []) : Rounds next t t
  | idle {next : Nat} {t : RuleTree} (h : duplicatedSignatures t ≠ [])
      (hidle : (shareRound (duplicatedSignatures t) next t).2.replaced = 0) :
      Rounds next t (shareRound (duplicatedSignatures t) next t).1
  | again {next : Nat} {t t' : RuleTree} (h : duplicatedSignatures t ≠ [])
      (hbusy : (shareRound (duplicatedSignatures t) next t).2.replaced ≠ 0)
      (hrest : Rounds (shareRound (duplicatedSignatures t) next t).2.next
        (shareRound (duplicatedSignatures t) next t).1 t') : Rounds next t t'

theorem rounds_shareRounds (bound next : Nat) (t : RuleTree) (h : treeWeight t < bound) :
    Rounds next t (shareRounds bound next t) := by
  induction bound generalizing next t with
  | zero => omega
  | succ bound ih =>
      have hround := (weight_shareRound (duplicatedSignatures t) next t).1
      cases hdup : duplicatedSignatures t with
      | nil =>
          rw [shareRounds, hdup]
          exact .unique hdup
      | cons signature rest =>
          have hne : duplicatedSignatures t ≠ [] := by
            rw [hdup]
            exact List.cons_ne_nil _ _
          simp only [shareRounds, hdup]
          rw [← hdup]
          split
          · next hidle => exact .idle hne hidle
          · next hbusy => exact .again hne hbusy (ih _ _ (by omega))

theorem weightAll_le (nodes : List Node) : weightAll nodes ≤ Node.countAll nodes := by
  rw [← Node.length_preorder.2]
  exact List.countP_le_length

theorem weightBelow_le (bindings : List (String × Node)) :
    weightBelow bindings ≤ countBindings bindings := by
  induction bindings with
  | nil => exact Nat.le_refl _
  | cons e rest ih =>
      have hhead := weightAll_le e.2.children
      rw [weightBelow_cons, countBindings_cons]
      omega

theorem treeWeight_le (t : RuleTree) : treeWeight t ≤ t.nodes.length := by
  have hroot : weight t.root ≤ t.root.count := by
    rw [← Node.length_preorder.1]
    exact List.countP_le_length
  rw [length_nodes]
  exact Nat.add_le_add hroot (weightBelow_le _)

/-- Deduplication takes as many rounds as it needs. -/
theorem rounds_removeDuplicates (t : RuleTree) : Rounds 0 t (removeDuplicates t) :=
  rounds_shareRounds _ 0 t (Nat.lt_succ_of_le (treeWeight_le t))

end LogRules.Sharing

import LogRules.Proofs.Sharing.Entities

/-! # A round as a replacement

What a round does to its trees depends on nothing but the names that signatures have when it ends: every
node whose signature then has a name is a reference, from the leaves to the root (`replace`,
`shareIn_eq_replace`). The state of a round is known from the nodes that were compared so far (`compared`):
all nodes of the tree, each with its children replaced. `Replaces` says this of the round as a whole
(`replaces_shareRound`), and `meaning_rebuild` that replacing keeps what nodes stand for. -/

namespace LogRules

theorem Node.mem_preorderAll_iff {n : Node} {nodes : List Node} :
    n ∈ preorderAll nodes ↔ ∃ c ∈ nodes, n ∈ c.preorder := by
  rw [preorderAll_eq_flatMap, List.mem_flatMap]

namespace RuleTree

/-- All nodes but the roots of the bindings, which rounds leave where they are. -/
def below (t : RuleTree) : List Node :=
  t.root.preorder ++ t.bindings.values.flatMap fun n => Node.preorderAll n.children

variable {t : RuleTree}

theorem mem_below_iff {n : Node} : n ∈ t.below ↔ n ∈ t.root.preorder ∨
    ∃ e ∈ t.bindings.entries, n ∈ Node.preorderAll e.2.children := by
  rw [below, Table.values, List.flatMap_map, List.mem_append, List.mem_flatMap]

theorem mem_nodes_iff {n : Node} :
    n ∈ t.nodes ↔ n ∈ t.below ∨ ∃ e ∈ t.bindings.entries, n = e.2 := by
  rw [nodes, mem_below_iff, Table.values, List.flatMap_map, List.mem_append, List.mem_flatMap, or_assoc,
    ← exists_or]
  refine or_congr Iff.rfl (exists_congr fun e => ?_)
  rw [Node.preorder_eq, List.mem_cons, and_or_left, or_comm]

theorem mem_below_of_mem_preorder {m n : Node} (hm : m ∈ n.preorder) (hn : n ∈ t.below) :
    m ∈ t.below := by
  rw [mem_below_iff] at hn ⊢
  rcases hn with hn | ⟨e, he, hn⟩
  · exact .inl (Node.mem_preorder_trans hm hn)
  · obtain ⟨c, hc, hn⟩ := Node.mem_preorderAll_iff.mp hn
    exact .inr ⟨e, he, Node.mem_preorderAll_iff.mpr ⟨c, hc, Node.mem_preorder_trans hm hn⟩⟩

theorem mem_below_of_mem_children {c n : Node} (hc : c ∈ n.children) (hn : n ∈ t.nodes) :
    c ∈ t.below := by
  rcases mem_nodes_iff.mp hn with hn | ⟨e, he, rfl⟩
  · exact mem_below_of_mem_preorder (Node.mem_preorder_of_mem_children hc) hn
  · exact mem_below_iff.mpr (.inr ⟨e, he, Node.mem_preorderAll_iff.mpr ⟨c, hc, Node.mem_preorder_self c⟩⟩)

end RuleTree

namespace Sharing

/-! ### Replacing -/

/-- A reference to the name of the node's signature, if it has one. -/
def put (names : String → Option String) (n : Node) : Node :=
  match names n.signature with
  | some name => .reference name
  | none => n

mutual
/-- The tree with references for the nodes whose signatures have names, children first. -/
def replace (names : String → Option String) : Node → Node
  | .chain nodes => put names (.chain (replaceAll names nodes))
  | .linearSelect nodes => put names (.linearSelect (replaceAll names nodes))
  | .messageIdSelect index nodes => put names (.messageIdSelect index (replaceAll names nodes))
  | .matchRule rule onSuccess => put names (.matchRule rule (replaceAll names onSuccess))
  | .action a => put names (.action a)
  | .reference name => .reference name
  | .noop => .noop

/-- Several trees with references for the nodes whose signatures have names. -/
def replaceAll (names : String → Option String) : List Node → List Node
  | [] => []
  | n :: rest => replace names n :: replaceAll names rest
end

/-- The node with its children replaced. -/
def rebuild (names : String → Option String) (n : Node) : Node :=
  n.withChildren (n.children.map (replace names))

variable {names : String → Option String}

theorem replaceAll_eq_map (nodes : List Node) :
    replaceAll names nodes = nodes.map (replace names) := by
  induction nodes with
  | nil => rfl
  | cons n rest ih => rw [replaceAll, ih, List.map_cons]

theorem replace_of_isShareable {n : Node} (h : isShareable n) :
    replace names n = put names (rebuild names n) := by
  cases n with
  | reference name => cases h
  | noop => cases h
  | _ => simp [replace, rebuild, Node.withChildren, Node.children, replaceAll_eq_map]

theorem replace_of_not_isShareable {n : Node} (h : ¬ isShareable n) : replace names n = n := by
  cases n with
  | reference name => rfl
  | noop => rfl
  | _ => exact absurd rfl h

@[simp] theorem children_rebuild (n : Node) :
    (rebuild names n).children = n.children.map (replace names) :=
  Node.children_withChildren (List.length_map _)

@[simp] theorem isShareable_unlabelled (n : Node) : isShareable n.unlabelled = isShareable n := by
  cases n <;> rfl

/-- Replacing does not look at labels. -/
theorem unlabelled_replace (n : Node) :
    (replace names n).unlabelled = replace names n.unlabelled := by
  induction n using Node.child_induction with
  | step n ih =>
      by_cases hshare : isShareable n
      · have hrebuild : (rebuild names n).unlabelled = rebuild names n.unlabelled := by
          rw [rebuild, rebuild, Node.unlabelled_withChildren, Node.children_unlabelled, List.map_map,
            List.map_map]
          exact congrArg (n.unlabelled.withChildren ·) (List.map_congr_left ih)
        rw [replace_of_isShareable hshare, replace_of_isShareable (by simpa using hshare), ← hrebuild,
          put, put, Node.signature_unlabelled]
        split <;> rfl
      · rw [replace_of_not_isShareable hshare, replace_of_not_isShareable (by simpa using hshare)]

/-- Nodes that differ in labels at most are rebuilt to such nodes. -/
theorem unlabelled_rebuild_congr {m n : Node} (h : m.unlabelled = n.unlabelled) :
    (rebuild names m).unlabelled = (rebuild names n).unlabelled := by
  have hrebuild : ∀ k : Node, (rebuild names k).unlabelled =
      k.unlabelled.withChildren (k.unlabelled.children.map (replace names)) := by
    intro k
    rw [rebuild, Node.unlabelled_withChildren, Node.children_unlabelled, List.map_map, List.map_map]
    exact congrArg (k.unlabelled.withChildren ·)
      (List.map_congr_left fun c _ => unlabelled_replace c)
  rw [hrebuild m, h, ← hrebuild n]

theorem signature_rebuild_congr {m n : Node} (h : m.unlabelled = n.unlabelled) :
    (rebuild names m).signature = (rebuild names n).signature := by
  rw [← Node.signature_unlabelled, unlabelled_rebuild_congr h, Node.signature_unlabelled]

/-- What could be shared after replacing is a node that has no name, with its children replaced. -/
theorem exists_of_mem_preorder_replace {m n : Node} (hm : m ∈ (replace names n).preorder)
    (hshare : isShareable m) :
    ∃ k ∈ n.preorder, isShareable k ∧ m = rebuild names k ∧ names m.signature = none := by
  induction n using Node.child_induction with
  | step n ih =>
      by_cases hn : isShareable n
      · rw [replace_of_isShareable hn, put] at hm
        split at hm
        · rw [Node.preorder, List.mem_singleton] at hm
          subst hm
          cases hshare
        · next hnone =>
            rcases Node.mem_preorder_iff.mp hm with rfl | ⟨c', hc', hmc⟩
            · exact ⟨n, Node.mem_preorder_self n, hn, rfl, hnone⟩
            · rw [children_rebuild] at hc'
              obtain ⟨c, hc, rfl⟩ := List.mem_map.mp hc'
              obtain ⟨k, hk, hfound⟩ := ih c hc hmc
              exact ⟨k, Node.mem_preorder_iff.mpr (.inr ⟨c, hc, hk⟩), hfound⟩
      · rw [replace_of_not_isShareable hn] at hm
        rcases Node.mem_preorder_iff.mp hm with rfl | ⟨c, hc, -⟩
        · exact absurd hshare hn
        · cases n with
          | reference name => cases hc
          | noop => cases hc
          | _ => exact absurd rfl hn

/-! ### The state of a round -/

namespace Round

/-- The state when these nodes were compared. -/
def compared (s : Round) (met : List Node) : Round := met.foldl (fun s n => (s.share n).2) s

/-- The names are those of the state at least, and only signatures to be shared have one. -/
structure Fits (s : Round) (names : String → Option String) : Prop where
  of_get? : ∀ signature name, s.names.get? signature = some name → names signature = some name
  duplicated : ∀ signature name, names signature = some name → signature ∈ s.duplicated

@[simp] theorem duplicated_share (s : Round) (n : Node) : (s.share n).2.duplicated = s.duplicated := by
  unfold share
  dsimp only
  split
  · split <;> rfl
  · rfl

theorem get?_names_share {s : Round} {n : Node} {signature name : String}
    (h : s.names.get? signature = some name) :
    (s.share n).2.names.get? signature = some name := by
  unfold share
  dsimp only
  split
  · split
    · exact h
    · next hnone =>
        rw [Table.get?_insert, if_neg]
        · exact h
        · rintro rfl
          rw [hnone] at h
          cases h
  · exact h

theorem Fits.of_share {s : Round} {n : Node} (h : (s.share n).2.Fits names) : s.Fits names where
  of_get? := fun _ _ hname => h.of_get? _ _ (get?_names_share hname)
  duplicated := fun signature name hname => by simpa using h.duplicated signature name hname

/-- Sharing a node is putting a reference in its place if its signature has a name when the round ends. -/
theorem Fits.share_eq {s : Round} {n : Node} (h : (s.share n).2.Fits names) :
    (s.share n).1 = put names n := by
  by_cases hdup : n.signature ∈ s.duplicated
  · cases hname : s.names.get? n.signature with
    | some name =>
        simp [share, put, hdup, hname, h.of_share.of_get? _ _ hname]
    | none =>
        have hget : (s.share n).2.names.get? n.signature = some ("dup" ++ toString s.next) := by
          simp [share, hdup, hname]
        simp [share, put, hdup, hname, h.of_get? _ _ hget]
  · have hnone : names n.signature = none := by
      cases hname : names n.signature with
      | none => rfl
      | some name => exact absurd (h.of_share.duplicated _ _ hname) hdup
    simp [share, put, hdup, hnone]

theorem Fits.of_compared {s : Round} {met : List Node} (h : (s.compared met).Fits names) :
    s.Fits names := by
  induction met generalizing s with
  | nil => exact h
  | cons n rest ih => exact (ih h).of_share

theorem compared_append (s : Round) (met met' : List Node) :
    s.compared (met ++ met') = (s.compared met).compared met' := List.foldl_append

theorem metIn_of_not_isShareable (s : Round) {n : Node} (h : ¬ isShareable n) : s.metIn n = [] := by
  cases n with
  | reference name => rfl
  | noop => rfl
  | _ => exact absurd rfl h

/-- A round in trees: its state is known from the nodes that it compares, its trees from the names that its
state fits, and it compares the nodes of the trees with their children replaced. -/
theorem shareIn_eq_replace :
    (∀ (n : Node) (s : Round), (s.shareIn n).2 = s.compared (s.metIn n) ∧
      ∀ names, (s.compared (s.metIn n)).Fits names → (s.shareIn n).1 = replace names n ∧
        ∀ m, m ∈ s.metIn n ↔ ∃ k ∈ n.preorder, isShareable k ∧ m = rebuild names k) ∧
    ∀ (nodes : List Node) (s : Round), (s.shareInAll nodes).2 = s.compared (s.metInAll nodes) ∧
      ∀ names, (s.compared (s.metInAll nodes)).Fits names →
        (s.shareInAll nodes).1 = nodes.map (replace names) ∧
        ∀ m, m ∈ s.metInAll nodes ↔
          ∃ k ∈ Node.preorderAll nodes, isShareable k ∧ m = rebuild names k := by
  refine Node.forest_induction ?_ ?_ ?_
  · intro n ih s
    by_cases hshare : isShareable n
    · obtain ⟨hstate, hchildren⟩ := ih s
      have hcompared : s.compared (s.metIn n) =
          ((s.shareInAll n.children).2.share (n.withChildren (s.shareInAll n.children).1)).2 := by
        rw [metIn_of_isShareable s hshare, compared_append, ← hstate]
        rfl
      refine ⟨by rw [shareIn_of_isShareable s hshare, hcompared], fun names hfits => ?_⟩
      rw [hcompared] at hfits
      obtain ⟨htrees, hmem⟩ := hchildren names (hstate ▸ hfits.of_share)
      have hrebuild : n.withChildren (s.shareInAll n.children).1 = rebuild names n := by
        rw [htrees, rebuild]
      constructor
      · rw [shareIn_of_isShareable s hshare, hfits.share_eq, hrebuild, replace_of_isShareable hshare]
      · intro m
        rw [metIn_of_isShareable s hshare, hrebuild, List.mem_append, List.mem_singleton, hmem]
        simp only [Node.preorder_eq n, List.mem_cons, or_and_right, exists_or, exists_eq_left, hshare,
          true_and]
        exact or_comm
    · refine ⟨by rw [shareIn_of_not_isShareable s hshare, metIn_of_not_isShareable s hshare]; rfl,
        fun names _ => ⟨?_, fun m => ?_⟩⟩
      · rw [shareIn_of_not_isShareable s hshare, replace_of_not_isShareable hshare]
      · rw [metIn_of_not_isShareable s hshare]
        cases n with
        | reference name => simp [Node.preorder, isShareable]
        | noop => simp [Node.preorder, isShareable]
        | _ => exact absurd rfl hshare
  · exact fun s => ⟨rfl, fun names _ => ⟨rfl, fun m => by simp [metInAll, Node.preorderAll]⟩⟩
  · intro n rest ihn ihrest s
    obtain ⟨hstate, hn⟩ := ihn s
    obtain ⟨hstate', hrest⟩ := ihrest (s.shareIn n).2
    rw [metInAll, compared_append, ← hstate, shareInAll_cons]
    refine ⟨hstate', fun names hfits => ?_⟩
    obtain ⟨htrees', hmem'⟩ := hrest names hfits
    obtain ⟨htree, hmem⟩ := hn names (hstate ▸ hfits.of_compared)
    rw [htree, htrees', List.map_cons]
    refine ⟨rfl, fun m => ?_⟩
    rw [List.mem_append, hmem, hmem', ← exists_or]
    simp only [Node.preorderAll, List.mem_append, or_and_right]

/-- A round below bindings. -/
theorem shareInBindings_eq_rebuild (s : Round) (bindings : List (String × Node)) :
    (s.shareInBindings bindings).2 = s.compared (s.metInBindings bindings) ∧
      ∀ names, (s.compared (s.metInBindings bindings)).Fits names →
        (s.shareInBindings bindings).1 = bindings.map (fun e => (e.1, rebuild names e.2)) ∧
        ∀ m, m ∈ s.metInBindings bindings ↔
          ∃ e ∈ bindings, ∃ k ∈ Node.preorderAll e.2.children, isShareable k ∧ m = rebuild names k := by
  induction bindings generalizing s with
  | nil => exact ⟨rfl, fun names _ => ⟨rfl, fun m => by simp [metInBindings]⟩⟩
  | cons e rest ih =>
      obtain ⟨name, n⟩ := e
      obtain ⟨hstate, hn⟩ := shareIn_eq_replace.2 n.children s
      obtain ⟨hstate', hrest⟩ := ih (s.shareInAll n.children).2
      rw [metInBindings, compared_append, ← hstate, shareInBindings_cons]
      refine ⟨hstate', fun names hfits => ?_⟩
      obtain ⟨hbindings, hmem'⟩ := hrest names hfits
      obtain ⟨htrees, hmem⟩ := hn names (hstate ▸ hfits.of_compared)
      rw [htrees, hbindings, List.map_cons]
      refine ⟨rfl, fun m => ?_⟩
      rw [List.mem_append, hmem, hmem']
      simp only [List.mem_cons, or_and_right, exists_or, exists_eq_left]

/-! ### What is compared -/

theorem get?_names_compared {s : Round} {met : List Node} {signature name : String}
    (h : s.names.get? signature = some name) :
    (s.compared met).names.get? signature = some name := by
  induction met generalizing s with
  | nil => exact h
  | cons n rest ih => exact ih (get?_names_share h)

/-- A signature to be shared has a name when it was met. -/
theorem get?_names_of_mem {s : Round} {met : List Node} {n : Node} (hn : n ∈ met)
    (hdup : n.signature ∈ s.duplicated) : (s.compared met).names.get? n.signature ≠ none := by
  induction met generalizing s with
  | nil => cases hn
  | cons m rest ih =>
      rcases List.mem_cons.mp hn with rfl | hn
      · have hget : ∃ name, (s.share n).2.names.get? n.signature = some name := by
          cases hname : s.names.get? n.signature with
          | some name => exact ⟨name, get?_names_share hname⟩
          | none => exact ⟨"dup" ++ toString s.next, by simp [share, hdup, hname]⟩
        obtain ⟨name, hname⟩ := hget
        have hname' : ((s.share n).2.compared rest).names.get? n.signature = some name := get?_names_compared hname
        intro hnone
        cases hname'.symm.trans hnone
      · exact ih hn (by simpa using hdup)

/-- What the states of a round keep: names are for signatures to be shared, the new bindings are stored under
the names of their signatures, and each name took a replacement. -/
structure Consistent (s : Round) : Prop where
  mem_duplicated : ∀ signature name, s.names.get? signature = some name → signature ∈ s.duplicated
  get?_bindings : ∀ e ∈ s.bindings, s.names.get? e.2.signature = some e.1
  size_le : s.names.size ≤ s.replaced

theorem Consistent.share {s : Round} (h : s.Consistent) (n : Node) : (s.share n).2.Consistent := by
  by_cases hdup : n.signature ∈ s.duplicated
  · cases hname : s.names.get? n.signature with
    | some name =>
        simp only [Round.share, hdup, hname, if_true]
        exact ⟨h.mem_duplicated, h.get?_bindings, Nat.le_succ_of_le h.size_le⟩
    | none =>
        simp only [Round.share, hdup, hname, if_true]
        refine ⟨fun signature name hget => ?_, fun e he => ?_, ?_⟩
        · rw [Table.get?_insert] at hget
          split at hget
          · next heq => exact heq ▸ hdup
          · exact h.mem_duplicated _ _ hget
        · rw [Table.get?_insert]
          rcases List.mem_append.mp he with he | he
          · rw [if_neg, h.get?_bindings e he]
            intro heq
            rw [heq, h.get?_bindings e he] at hname
            cases hname
          · rw [List.mem_singleton.mp he, if_pos rfl]
        · change (s.names.insert _ _).size ≤ s.replaced + 1
          rw [Table.size_insert _ hname]
          exact Nat.succ_le_succ h.size_le
  · simp only [Round.share, hdup, if_false]
    exact h

theorem Consistent.compared {s : Round} (h : s.Consistent) (met : List Node) :
    (s.compared met).Consistent := by
  induction met generalizing s with
  | nil => exact h
  | cons n rest ih => exact ih (h.share n)

theorem Consistent.fits {s : Round} (h : s.Consistent) : s.Fits s.names.get? :=
  ⟨fun _ _ hname => hname, h.mem_duplicated⟩

theorem mem_bindings_share {s : Round} {n : Node} {e : String × Node}
    (h : e ∈ (s.share n).2.bindings) : e ∈ s.bindings ∨ e.2 = n := by
  unfold share at h
  dsimp only at h
  split at h
  · split at h
    · exact .inl h
    · rcases List.mem_append.mp h with h | h
      · exact .inl h
      · exact .inr (congrArg Prod.snd (List.mem_singleton.mp h))
  · exact .inl h

theorem mem_bindings_compared {s : Round} {met : List Node} {e : String × Node}
    (h : e ∈ (s.compared met).bindings) : e ∈ s.bindings ∨ e.2 ∈ met := by
  induction met generalizing s with
  | nil => exact .inl h
  | cons n rest ih =>
      rcases ih h with h | h
      · rcases mem_bindings_share h with h | h
        · exact .inl h
        · exact .inr (List.mem_cons.mpr (.inl h))
      · exact .inr (List.mem_cons_of_mem n h)

end Round

/-! ### The whole round -/

/-- The names that signatures have when a round ends. -/
def namesAfter (duplicated : List String) (next : Nat) (t : RuleTree) : String → Option String :=
  (shareRound duplicated next t).2.names.get?

section Whole

variable {duplicated : List String} {next : Nat} {t : RuleTree}

theorem shareRound_state : (shareRound duplicated next t).2 =
    (Round.start duplicated next).compared (metInRound duplicated next t) := by
  rw [metInRound, Round.compared_append, ← (Round.shareIn_eq_replace.1 _ _).1]
  exact (Round.shareInBindings_eq_rebuild _ _).1

theorem consistent_shareRound : (shareRound duplicated next t).2.Consistent := by
  rw [shareRound_state]
  have hstart : (Round.start duplicated next).Consistent :=
    ⟨(fun _ _ h => nomatch h), (fun _ h => nomatch h), Nat.le_refl _⟩
  exact hstart.compared _

/-- The trees of a round and the nodes that it compares. -/
theorem shareRound_eq_replace :
    (shareRound duplicated next t).1.root = replace (namesAfter duplicated next t) t.root ∧
      (((Round.start duplicated next).shareIn t.root).2.shareInBindings t.bindings.entries).1 =
        t.bindings.entries.map (fun e => (e.1, rebuild (namesAfter duplicated next t) e.2)) ∧
      ∀ m, m ∈ metInRound duplicated next t ↔
        ∃ k ∈ t.below, isShareable k ∧ m = rebuild (namesAfter duplicated next t) k := by
  have hfits : (((Round.start duplicated next).shareIn t.root).2.compared
      (((Round.start duplicated next).shareIn t.root).2.metInBindings t.bindings.entries)).Fits
      (namesAfter duplicated next t) := by
    rw [← (Round.shareInBindings_eq_rebuild _ _).1]
    exact consistent_shareRound.fits
  obtain ⟨hroot, hmem⟩ := (Round.shareIn_eq_replace.1 t.root (.start duplicated next)).2 _
    ((Round.shareIn_eq_replace.1 t.root (.start duplicated next)).1 ▸ hfits.of_compared)
  obtain ⟨hbindings, hmem'⟩ := (Round.shareInBindings_eq_rebuild _ t.bindings.entries).2 _ hfits
  refine ⟨hroot, hbindings, fun m => ?_⟩
  rw [metInRound, List.mem_append, hmem, hmem']
  simp only [RuleTree.mem_below_iff, or_and_right, exists_or]
  refine or_congr Iff.rfl ⟨?_, ?_⟩
  · rintro ⟨e, he, k, hk, h⟩
    exact ⟨k, ⟨e, he, hk⟩, h⟩
  · rintro ⟨k, ⟨e, he, hk⟩, h⟩
    exact ⟨e, he, k, hk, h⟩

/-- What a round makes of a tree. What could be shared is a node with its children replaced: below the root
or a binding one whose signature has no name, and at the root of a binding that is new one whose signature
has the name of the binding. -/
structure Replaces (names : String → Option String) (t t' : RuleTree) : Prop where
  of_mem_below : ∀ m ∈ t'.below, isShareable m →
    ∃ k ∈ t.below, isShareable k ∧ m = rebuild names k ∧ names m.signature = none
  of_mem_bindings : ∀ e ∈ t'.bindings.entries,
    (∃ n, (e.1, n) ∈ t.bindings.entries ∧ e.2 = rebuild names n) ∨
      ∃ k ∈ t.below, isShareable k ∧ e.2 = rebuild names k ∧ names e.2.signature = some e.1

theorem exists_of_mem_rebuild {names : String → Option String} {m n : Node} (hn : n ∈ t.nodes)
    (hm : m ∈ Node.preorderAll (rebuild names n).children) (hshare : isShareable m) :
    ∃ k ∈ t.below, isShareable k ∧ m = rebuild names k ∧ names m.signature = none := by
  rw [children_rebuild, Node.mem_preorderAll_iff] at hm
  obtain ⟨c', hc', hm⟩ := hm
  obtain ⟨c, hc, rfl⟩ := List.mem_map.mp hc'
  obtain ⟨k, hk, h⟩ := exists_of_mem_preorder_replace hm hshare
  exact ⟨k, RuleTree.mem_below_of_mem_preorder hk (RuleTree.mem_below_of_mem_children hc hn), h⟩

theorem replaces_shareRound
    (hentries : (shareRound duplicated next t).1.bindings.entries =
      (((Round.start duplicated next).shareIn t.root).2.shareInBindings t.bindings.entries).1 ++
        (shareRound duplicated next t).2.bindings) :
    Replaces (namesAfter duplicated next t) t (shareRound duplicated next t).1 := by
  obtain ⟨hroot, hbindings, hmet⟩ := @shareRound_eq_replace duplicated next t
  have hnew : ∀ e ∈ (shareRound duplicated next t).1.bindings.entries,
      (∃ n, (e.1, n) ∈ t.bindings.entries ∧ e.2 = rebuild (namesAfter duplicated next t) n) ∨
        ∃ k ∈ t.below, isShareable k ∧ e.2 = rebuild (namesAfter duplicated next t) k ∧
          namesAfter duplicated next t e.2.signature = some e.1 := by
    intro e he
    rw [hentries, hbindings, List.mem_append] at he
    rcases he with he | he
    · obtain ⟨⟨name, n⟩, hn, rfl⟩ := List.mem_map.mp he
      exact .inl ⟨n, hn, rfl⟩
    · have hname := consistent_shareRound.get?_bindings e he
      rw [shareRound_state] at he
      rcases Round.mem_bindings_compared he with he | he
      · cases he
      · obtain ⟨k, hk, hshare, heq⟩ := (hmet e.2).mp he
        exact .inr ⟨k, hk, hshare, heq, hname⟩
  refine ⟨fun m hm hshare => ?_, hnew⟩
  rcases RuleTree.mem_below_iff.mp hm with hm | ⟨e, he, hm⟩
  · rw [hroot] at hm
    obtain ⟨k, hk, h⟩ := exists_of_mem_preorder_replace hm hshare
    exact ⟨k, RuleTree.mem_below_iff.mpr (.inl hk), h⟩
  · rcases hnew e he with ⟨n, hn, heq⟩ | ⟨k, hk, -, heq, -⟩
    · exact exists_of_mem_rebuild (RuleTree.mem_nodes_iff.mpr (.inr ⟨_, hn, rfl⟩)) (heq ▸ hm) hshare
    · exact exists_of_mem_rebuild (RuleTree.mem_nodes_iff.mpr (.inl hk)) (heq ▸ hm) hshare

/-- Replaced nodes stand for what they stood for. -/
theorem meaning_rebuild {whole : Node} {μ μ' : Meanings} {names : String → Option String}
    (hw : whole.IsPlain) (h : Represents whole μ t) (hμ : Extends μ μ')
    (hnames : ∀ n ∈ t.below, isShareable n → ∀ name, names (rebuild names n).signature = some name →
      μ' name = (rebuild names n).meaning μ') (n : Node) :
    (n ∈ t.nodes → (rebuild names n).meaning μ' = n.meaning μ) ∧
      (n ∈ t.below → (replace names n).meaning μ' = n.meaning μ) := by
  induction n using Node.child_induction with
  | step n ih =>
      have hextends : n ∈ t.nodes → n.meaning μ' = n.meaning μ := fun hn =>
        hμ.meaning_eq ((Node.isPlain_unlabelled.mpr hw).of_mem_preorder (h.meaning_mem hn))
      have hrebuild : n ∈ t.nodes → (rebuild names n).meaning μ' = n.meaning μ := by
        intro hn
        by_cases href : n.IsReference
        · obtain ⟨name, rfl⟩ := href
          exact hextends hn
        · have hchildren : ∀ c ∈ n.children, (replace names c).meaning μ' = c.meaning μ :=
            fun c hc => (ih c hc).2 (RuleTree.mem_below_of_mem_children hc hn)
          rw [rebuild, Node.meaning_withChildren μ' href, Node.meaning_eq μ href, List.map_map]
          exact congrArg (n.unlabelled.withChildren ·) (List.map_congr_left hchildren)
      refine ⟨hrebuild, fun hn => ?_⟩
      have hnode : n ∈ t.nodes := RuleTree.mem_nodes_iff.mpr (.inl hn)
      by_cases hshare : isShareable n
      · rw [replace_of_isShareable hshare, put]
        split
        · next name hname =>
            rw [Node.meaning_reference, hnames n hn hshare name hname, hrebuild hnode]
        · exact hrebuild hnode
      · rw [replace_of_not_isShareable hshare, hextends hnode]

end Whole

end Sharing

end LogRules

import LogRules.Proofs.Sharing.Extraction

/-! # What hoisting stores

Hoisting puts references in the place of the topmost match rules and selections of a tree (`tops`,
`outline`). It stores the first of them of every signature and goes on below the stored ones. A state
of the run is known from the nodes that are stored so far and how many of them are done (`ofStored`), and
one step is to meet the topmost ones of a tree, one after the other (`hoistIn_ofStored`). So the stored
nodes of a whole run are the first of their signatures in the list of all that the run meets
(`drains_ofStored`), and when signatures decide they have the signatures of all match rules and selections
of the tree (`hoists_every_entity`). -/

namespace LogRules

namespace Node

mutual
/-- The text of a node does not depend on labels. -/
@[simp] theorem signature_unlabelled : ∀ n : Node, n.unlabelled.signature = n.signature
  | chain nodes => by simp [unlabelled, signature, signatureAll_unlabelledAll nodes]
  | linearSelect nodes => by simp [unlabelled, signature, signatureAll_unlabelledAll nodes]
  | messageIdSelect _ nodes => by simp [unlabelled, signature, signatureAll_unlabelledAll nodes]
  | matchRule rule onSuccess => by
      simp [unlabelled, signature, signatureAll_unlabelledAll onSuccess, MatchRule.unlabelled]
  | action _ => rfl
  | reference _ => rfl
  | noop => rfl

theorem signatureAll_unlabelledAll :
    ∀ nodes : List Node, signatureAll (unlabelledAll nodes) = signatureAll nodes
  | [] => rfl
  | n :: rest => by
      simp [unlabelledAll, signatureAll, signature_unlabelled n, signatureAll_unlabelledAll rest]
end

end Node

namespace Sharing

@[simp] theorem isEntity_withChildren (n : Node) (nodes : List Node) :
    isEntity (n.withChildren nodes) = isEntity n := by
  cases n <;> rfl

@[simp] theorem isEntity_unlabelled (n : Node) : isEntity n.unlabelled = isEntity n := by
  cases n <;> rfl

/-- Signatures decide when every node is, up to labels, one of some nodes whose signatures differ. -/
theorem SignaturesDecide.of_nodup {nodes kinds : List Node} (hmem : ∀ n ∈ nodes, n.unlabelled ∈ kinds)
    (hnodup : (kinds.map Node.signature).Nodup) : SignaturesDecide nodes := by
  intro m hm n hn hsignature
  refine List.inj_on_of_nodup_map hnodup (hmem m hm) (hmem n hn) ?_
  rwa [Node.signature_unlabelled, Node.signature_unlabelled]

/-! ### Topmost match rules and selections -/

mutual
/-- The match rules and selections of a tree that are not below another. -/
def tops : Node → List Node
  | .linearSelect nodes => [.linearSelect nodes]
  | .matchRule rule onSuccess => [.matchRule rule onSuccess]
  | .chain nodes => topsAll nodes
  | .messageIdSelect _ nodes => topsAll nodes
  | .action _ => []
  | .reference _ => []
  | .noop => []

/-- The topmost match rules and selections of several trees. -/
def topsAll : List Node → List Node
  | [] => []
  | n :: rest => tops n ++ topsAll rest
end

theorem tops_of_isEntity {n : Node} (h : isEntity n) : tops n = [n] := by
  cases n with
  | linearSelect nodes => rfl
  | matchRule rule onSuccess => rfl
  | _ => cases h

theorem tops_of_not_isEntity {n : Node} (h : ¬ isEntity n) : tops n = topsAll n.children := by
  cases n with
  | linearSelect nodes => exact absurd rfl h
  | matchRule rule onSuccess => exact absurd rfl h
  | _ => rfl

theorem topsAll_eq_flatMap (nodes : List Node) : topsAll nodes = nodes.flatMap tops := by
  induction nodes with
  | nil => rfl
  | cons n rest ih => rw [topsAll, ih, List.flatMap_cons]

theorem mem_tops {m n : Node} (h : m ∈ tops n) : isEntity m ∧ m ∈ n.preorder := by
  induction n using Node.child_induction with
  | step n ih =>
      by_cases hentity : isEntity n
      · rw [tops_of_isEntity hentity, List.mem_singleton] at h
        subst h
        exact ⟨hentity, Node.mem_preorder_self m⟩
      · rw [tops_of_not_isEntity hentity, topsAll_eq_flatMap, List.mem_flatMap] at h
        obtain ⟨c, hc, hm⟩ := h
        obtain ⟨hm', hbelow⟩ := ih c hc hm
        exact ⟨hm', Node.mem_preorder_iff.mpr (.inr ⟨c, hc, hbelow⟩)⟩

theorem mem_topsAll_children {m n : Node} (h : m ∈ topsAll n.children) :
    isEntity m ∧ m ∈ n.preorder := by
  rw [topsAll_eq_flatMap, List.mem_flatMap] at h
  obtain ⟨c, hc, hm⟩ := h
  obtain ⟨hentity, hbelow⟩ := mem_tops hm
  exact ⟨hentity, Node.mem_preorder_iff.mpr (.inr ⟨c, hc, hbelow⟩)⟩

theorem tops_unlabelled (n : Node) : tops n.unlabelled = (tops n).map Node.unlabelled := by
  induction n using Node.child_induction with
  | step n ih =>
      by_cases hentity : isEntity n
      · rw [tops_of_isEntity hentity, tops_of_isEntity (by simpa using hentity), List.map_singleton]
      · rw [tops_of_not_isEntity hentity, tops_of_not_isEntity (by simpa using hentity),
          Node.children_unlabelled, topsAll_eq_flatMap, topsAll_eq_flatMap, List.flatMap_map,
          List.map_flatMap]
        exact List.flatMap_congr ih

/-- Trees that differ in labels at most have topmost entities with the same signatures below them. -/
theorem signatures_topsAll_children {m n : Node} (h : m.unlabelled = n.unlabelled) :
    (topsAll m.children).map Node.signature = (topsAll n.children).map Node.signature := by
  have hsignatures : ∀ k : Node, (topsAll k.children).map Node.signature =
      (topsAll k.unlabelled.children).map Node.signature := by
    intro k
    simp only [topsAll_eq_flatMap, Node.children_unlabelled, List.flatMap_map, List.map_flatMap,
      tops_unlabelled, List.map_map]
    exact List.flatMap_congr fun c _ => List.map_congr_left fun e _ => (Node.signature_unlabelled e).symm
  rw [hsignatures m, h, ← hsignatures n]

mutual
/-- The tree with references in the place of its topmost match rules and selections. -/
def outline (name : Node → String) : Node → Node
  | .linearSelect nodes => .reference (name (.linearSelect nodes))
  | .matchRule rule onSuccess => .reference (name (.matchRule rule onSuccess))
  | .chain nodes => .chain (outlineAll name nodes)
  | .messageIdSelect index nodes => .messageIdSelect index (outlineAll name nodes)
  | .action a => .action a
  | .reference other => .reference other
  | .noop => .noop

/-- The trees with references in the place of their topmost match rules and selections. -/
def outlineAll (name : Node → String) : List Node → List Node
  | [] => []
  | n :: rest => outline name n :: outlineAll name rest
end

theorem outline_of_isEntity (name : Node → String) {n : Node} (h : isEntity n) :
    outline name n = .reference (name n) := by
  cases n with
  | linearSelect nodes => rfl
  | matchRule rule onSuccess => rfl
  | _ => cases h

theorem outline_of_not_isEntity (name : Node → String) {n : Node} (h : ¬ isEntity n) :
    outline name n = n.withChildren (outlineAll name n.children) := by
  cases n with
  | linearSelect nodes => exact absurd rfl h
  | matchRule rule onSuccess => exact absurd rfl h
  | _ => rfl

theorem outlineAll_eq_map (name : Node → String) (nodes : List Node) :
    outlineAll name nodes = nodes.map (outline name) := by
  induction nodes with
  | nil => rfl
  | cons n rest ih => rw [outlineAll, ih, List.map_cons]

/-- What could be shared in an outline is no match rule and no selection, with its children outlined. -/
theorem exists_of_mem_outline {name : Node → String} {m n : Node}
    (h : m ∈ (outline name n).preorder) (hshare : isShareable m) :
    ∃ k ∈ n.preorder, ¬ isEntity k ∧ m = k.withChildren (outlineAll name k.children) := by
  induction n using Node.child_induction with
  | step n ih =>
      by_cases hentity : isEntity n
      · rw [outline_of_isEntity name hentity, Node.preorder, List.mem_singleton] at h
        subst h
        cases hshare
      · rw [outline_of_not_isEntity name hentity] at h
        rcases Node.mem_preorder_iff.mp h with rfl | ⟨c, hc, hm⟩
        · exact ⟨n, Node.mem_preorder_self n, hentity, rfl⟩
        · rw [Node.children_withChildren (by simp [outlineAll_eq_map]), outlineAll_eq_map] at hc
          obtain ⟨k, hk, rfl⟩ := List.mem_map.mp hc
          obtain ⟨l, hl, hfound⟩ := ih k hk hm
          exact ⟨l, Node.mem_preorder_iff.mpr (.inr ⟨k, hk, hl⟩), hfound⟩

/-- No match rule and no selection is left in an outline. -/
theorem not_isEntity_of_mem_outline {name : Node → String} {m n : Node}
    (h : m ∈ (outline name n).preorder) : ¬ isEntity m := by
  intro hentity
  obtain ⟨k, -, hk, rfl⟩ := exists_of_mem_outline h (isShareable_of_isEntity hentity)
  exact hk (by simpa using hentity)

/-! ### The first node of every signature -/

/-- A node joins the stored ones unless one of them has its signature. -/
def meet (stored : List Node) (n : Node) : List Node :=
  if n.signature ∈ stored.map Node.signature then stored else stored ++ [n]

/-- The first node of every signature, in order. -/
def firsts (nodes : List Node) : List Node := nodes.foldl meet []

theorem prefix_foldl_meet (nodes stored : List Node) : stored <+: nodes.foldl meet stored := by
  induction nodes generalizing stored with
  | nil => exact List.prefix_refl stored
  | cons n rest ih =>
      refine List.IsPrefix.trans ?_ (ih (meet stored n))
      unfold meet
      split
      · exact List.prefix_refl stored
      · exact List.prefix_append stored [n]

theorem mem_of_mem_foldl_meet {nodes stored : List Node} {n : Node} (h : n ∈ nodes.foldl meet stored) :
    n ∈ stored ∨ n ∈ nodes := by
  induction nodes generalizing stored with
  | nil => exact .inl h
  | cons m rest ih =>
      rcases ih h with hstored | hrest
      · unfold meet at hstored
        split at hstored
        · exact .inl hstored
        · rcases List.mem_append.mp hstored with hstored | hm
          · exact .inl hstored
          · exact .inr (List.mem_cons.mpr (.inl (List.mem_singleton.mp hm)))
      · exact .inr (List.mem_cons_of_mem m hrest)

theorem nodup_foldl_meet {nodes stored : List Node} (h : (stored.map Node.signature).Nodup) :
    ((nodes.foldl meet stored).map Node.signature).Nodup := by
  induction nodes generalizing stored with
  | nil => exact h
  | cons n rest ih =>
      apply ih
      unfold meet
      split
      · exact h
      · next hnew =>
          rw [List.map_append, List.map_singleton, List.nodup_append_comm]
          exact List.nodup_cons.mpr ⟨hnew, h⟩

theorem signature_mem_meet (stored : List Node) (n : Node) :
    n.signature ∈ (meet stored n).map Node.signature := by
  unfold meet
  split
  · assumption
  · simp

theorem signature_mem_foldl_meet {nodes stored : List Node} {n : Node} (h : n ∈ nodes) :
    n.signature ∈ (nodes.foldl meet stored).map Node.signature := by
  induction nodes generalizing stored with
  | nil => cases h
  | cons m rest ih =>
      rcases List.mem_cons.mp h with rfl | h
      · exact ((prefix_foldl_meet rest _).map Node.signature).subset (signature_mem_meet stored n)
      · exact ih h

/-! ### States of a run -/

/-- The name of the stored node with this number. -/
def entityName (i : Nat) : String := "entity" ++ toString i

/-- The name of the stored node with the signature of a node. -/
def nameIn (stored : List Node) (n : Node) : String :=
  entityName ((stored.map Node.signature).idxOf n.signature)

theorem nameIn_of_prefix {stored final : List Node} {n : Node} (h : stored <+: final)
    (hn : n.signature ∈ stored.map Node.signature) : nameIn final n = nameIn stored n := by
  obtain ⟨more, rfl⟩ := h
  rw [nameIn, nameIn, List.map_append, List.idxOf_append_of_mem hn]

/-- The stored nodes, each under its name and with something made of it. -/
def numbered (f : Node → Node) (stored : List Node) : List (String × Node) :=
  stored.zipIdx.map fun e => (entityName e.2, f e.1)

theorem length_numbered (f : Node → Node) (stored : List Node) :
    (numbered f stored).length = stored.length := by simp [numbered]

theorem numbered_append (f : Node → Node) (stored : List Node) (n : Node) :
    numbered f (stored ++ [n]) = numbered f stored ++ [(entityName stored.length, f n)] := by
  simp [numbered, List.zipIdx_append]

/-- When signatures are stored once, each stored node stands under its own name. -/
theorem mem_numbered_iff {f : Node → Node} {stored : List Node} {e : String × Node}
    (h : (stored.map Node.signature).Nodup) :
    e ∈ numbered f stored ↔ ∃ n ∈ stored, e = (nameIn stored n, f n) := by
  have hname : ∀ {i n}, stored[i]? = some n → nameIn stored n = entityName i := by
    intro i n hget
    obtain ⟨hlt, rfl⟩ := List.getElem?_eq_some_iff.mp hget
    have hidx := h.idxOf_getElem i (by simpa using hlt)
    rw [List.getElem_map] at hidx
    rw [nameIn, hidx]
  rw [numbered, List.mem_map]
  constructor
  · rintro ⟨⟨n, i⟩, hn, rfl⟩
    have hget := List.mk_mem_zipIdx_iff_getElem?.mp hn
    exact ⟨n, List.mem_of_getElem? hget, by rw [hname hget]⟩
  · rintro ⟨n, hn, rfl⟩
    obtain ⟨i, hget⟩ := List.getElem?_of_mem hn
    exact ⟨(n, i), List.mk_mem_zipIdx_iff_getElem?.mpr hget, by rw [hname hget]⟩

theorem drop_numbered {f : Node → Node} {stored : List Node} {k : Nat} {n : Node}
    (h : stored[k]? = some n) :
    (numbered f stored).drop k = (entityName k, f n) :: (numbered f stored).drop (k + 1) := by
  have hget : (numbered f stored)[k]? = some (entityName k, f n) := by simp [numbered, h]
  obtain ⟨hlt, hget⟩ := List.getElem?_eq_some_iff.mp hget
  rw [← hget]
  exact List.drop_eq_getElem_cons hlt

theorem keys_numbered (f : Node → Node) (stored : List Node) :
    (numbered f stored).map Prod.fst = (List.range stored.length).map entityName := by
  have h : (List.range stored.length).map entityName = stored.zipIdx.map fun e => entityName e.2 := by
    rw [List.range_eq_range', ← List.zipIdx_map_snd, List.map_map]
    rfl
  rw [h, numbered, List.map_map]
  rfl

theorem nodup_keys_numbered (f : Node → Node) (stored : List Node) :
    ((numbered f stored).map Prod.fst).Nodup := by
  rw [keys_numbered]
  exact List.Nodup.map (fun i j h => Store.label_inj h) List.nodup_range

namespace Hoisting

/-- The state in which these nodes are stored and the first `done` of them are worked off. -/
def ofStored (stored : List Node) (done : Nat) : Hoisting where
  names := (⟨(stored.map Node.signature).zipIdx⟩ : Table Nat).map fun _ => entityName
  queue := (numbered id stored).drop done

theorem get?_names_ofStored (stored : List Node) (done : Nat) (signature : String) :
    (ofStored stored done).names.get? signature =
      if signature ∈ stored.map Node.signature then
        some (entityName ((stored.map Node.signature).idxOf signature)) else none := by
  rw [ofStored, Table.get?_map, Table.get?, Table.lookup_zipIdx]
  split <;> simp

theorem insert_names_ofStored {stored : List Node} {n : Node}
    (hnew : n.signature ∉ stored.map Node.signature) (done : Nat) :
    (ofStored stored done).names.insert n.signature (entityName stored.length) =
      (ofStored (stored ++ [n]) done).names := by
  have hkey : n.signature ∉ (ofStored stored done).names.entries.map Prod.fst := by
    rw [← Table.lookup_eq_none_iff]
    exact (get?_names_ofStored stored done n.signature).trans (if_neg hnew)
  rw [Table.insert, Table.insertEntry_of_not_mem hkey]
  simp [ofStored, Table.map, List.zipIdx_append]

/-- Hoisting a node is meeting it. -/
theorem hoist_ofStored {stored : List Node} {done : Nat} (hdone : done ≤ stored.length) (n : Node) :
    (ofStored stored done).hoist n =
      (.reference (nameIn (meet stored n) n), ofStored (meet stored n) done) := by
  unfold hoist meet
  rw [get?_names_ofStored]
  by_cases hmet : n.signature ∈ stored.map Node.signature
  · rw [if_pos hmet, if_pos hmet]
    rfl
  · have hsize : (ofStored stored done).names.size = stored.length := by
      simp [ofStored, Table.map, Table.size]
    have hname : nameIn (stored ++ [n]) n = entityName stored.length := by
      simp [nameIn, List.idxOf_append_of_notMem hmet]
    have hqueue : (ofStored (stored ++ [n]) done).queue =
        (ofStored stored done).queue ++ [(entityName stored.length, n)] := by
      have hlength : done ≤ (numbered id stored).length := by rwa [length_numbered]
      rw [ofStored, numbered_append, List.drop_append_of_le_length hlength]
      rfl
    rw [if_neg hmet, if_neg hmet, hname, hsize]
    exact congrArg (Prod.mk _) (congrArg₂ Hoisting.mk (insert_names_ofStored hmet done) hqueue.symm)

/-- Hoisting in a tree is meeting its topmost ones. The references have the names of all states to come. -/
theorem hoistIn_ofStored :
    (∀ (n : Node) (stored final : List Node) (done : Nat), done ≤ stored.length →
      (tops n).foldl meet stored <+: final →
      (ofStored stored done).hoistIn n =
        (outline (nameIn final) n, ofStored ((tops n).foldl meet stored) done)) ∧
    ∀ (nodes stored final : List Node) (done : Nat), done ≤ stored.length →
      (topsAll nodes).foldl meet stored <+: final →
      (ofStored stored done).hoistInAll nodes =
        (outlineAll (nameIn final) nodes, ofStored ((topsAll nodes).foldl meet stored) done) := by
  refine Node.forest_induction ?_ ?_ ?_
  · intro n ih stored final done hdone hfinal
    by_cases hentity : isEntity n
    · rw [tops_of_isEntity hentity] at hfinal ⊢
      rw [hoistIn_of_isEntity _ hentity, hoist_ofStored hdone, outline_of_isEntity _ hentity,
        nameIn_of_prefix hfinal (signature_mem_meet stored n)]
      rfl
    · rw [tops_of_not_isEntity hentity] at hfinal ⊢
      rw [hoistIn_of_not_isEntity _ hentity, ih stored final done hdone hfinal,
        outline_of_not_isEntity _ hentity]
  · exact fun stored final done hdone hfinal => rfl
  · intro n rest ihn ihrest stored final done hdone hfinal
    rw [topsAll, List.foldl_append] at hfinal ⊢
    have hfirst : stored <+: (tops n).foldl meet stored := prefix_foldl_meet _ _
    rw [hoistInAll_cons, ihn stored final done hdone ((prefix_foldl_meet _ _).trans hfinal),
      ihrest _ final done (Nat.le_trans hdone hfirst.length_le) hfinal]
    rfl

/-- The whole run from a state: what is stored at its end are the first of their signatures among what is
stored and what is met below it, and the bindings are the outlines of the stored nodes that were not done. -/
theorem drains_ofStored {P : Node → Prop} (hP : ∀ n, P n → ∀ m ∈ topsAll n.children, P m)
    {s : Hoisting} {bindings : List (String × Node)} (h : s.Drains bindings) :
    ∀ (stored : List Node) (done : Nat), s = ofStored stored done → done ≤ stored.length →
      (∀ n ∈ stored, P n) →
      ∃ final, stored <+: final ∧ (∀ n ∈ final, P n) ∧
        final = ((final.drop done).flatMap fun n => topsAll n.children).foldl meet stored ∧
        bindings = (numbered (fun n => n.withChildren (outlineAll (nameIn final) n.children)) final).drop
          done := by
  induction h with
  | done names =>
      intro stored done hs hdone hstored
      have hqueue : (numbered id stored).drop done = [] := (congrArg queue hs).symm
      have hlength : stored.length ≤ done := by
        rw [List.drop_eq_nil_iff, length_numbered] at hqueue
        exact hqueue
      refine ⟨stored, List.prefix_refl _, hstored, ?_, ?_⟩
      · rw [List.drop_eq_nil_iff.mpr hlength]
        rfl
      · rw [List.drop_eq_nil_iff.mpr]
        rwa [length_numbered]
  | @next names name n rest bindings h ih =>
      intro stored done hs hdone hstored
      have hqueue : (numbered id stored).drop done = (name, n) :: rest := (congrArg queue hs).symm
      have hlt : done < stored.length := by
        by_contra hge
        rw [List.drop_eq_nil_iff.mpr (by rw [length_numbered]; omega)] at hqueue
        cases hqueue
      rw [drop_numbered (List.getElem?_eq_getElem hlt)] at hqueue
      obtain ⟨heq, hrest⟩ := List.cons.inj hqueue
      obtain ⟨rfl, rfl⟩ : entityName done = name ∧ stored[done] = n := Prod.mk.inj heq
      have hs' : (⟨names, rest⟩ : Hoisting) = ofStored stored (done + 1) := by
        rw [← hrest, show names = (ofStored stored done).names from congrArg Hoisting.names hs]
        rfl
      have hP' : ∀ m ∈ (topsAll stored[done].children).foldl meet stored, P m := by
        intro m hm
        rcases mem_of_mem_foldl_meet hm with hm | hm
        · exact hstored m hm
        · exact hP _ (hstored _ (List.getElem_mem hlt)) m hm
      have hstart := prefix_foldl_meet (topsAll stored[done].children) stored
      rw [hs'] at ih
      rw [hs']
      obtain ⟨final, hfinal, hPfinal, hfixed, hbindings⟩ := ih _ (done + 1)
        (by rw [hoistIn_ofStored.2 _ stored _ (done + 1) hlt (List.prefix_refl _)])
        (Nat.le_trans hlt hstart.length_le) hP'
      have hget : final[done]? = some stored[done] :=
        List.prefix_iff_getElem?.mp (hstart.trans hfinal) done hlt
      obtain ⟨hlt', hget'⟩ := List.getElem?_eq_some_iff.mp hget
      refine ⟨final, hstart.trans hfinal, hPfinal, ?_, ?_⟩
      · rw [List.drop_eq_getElem_cons hlt', hget', List.flatMap_cons, List.foldl_append]
        exact hfixed
      · rw [drop_numbered hget, hoistIn_ofStored.2 _ stored final (done + 1) hlt hfinal, hbindings]

end Hoisting

/-! ### The result of a run -/

/-- The tree stores these nodes of another and names them by references. -/
structure StoresEntities (t : RuleTree) (stored : List Node) (t' : RuleTree) : Prop where
  /-- The work list meets the topmost match rules and selections of the root, and then those below each
  node that it stores. It stores a node when it first meets its signature. -/
  stored_eq : stored = firsts (tops t.root ++ stored.flatMap fun n => topsAll n.children)
  mem_preorder : ∀ n ∈ stored, isEntity n ∧ n ∈ t.root.preorder
  /-- Each signature of a match rule or a selection is stored once. -/
  nodup : (stored.map Node.signature).Nodup
  mem_iff : ∀ signature, signature ∈ stored.map Node.signature ↔
    ∃ n ∈ t.root.preorder, isEntity n ∧ n.signature = signature
  root_eq : t'.root = outline (nameIn stored) t.root
  /-- The bindings are the stored nodes in their order, named by their numbers. -/
  bindings_eq : t'.bindings.entries =
    numbered (fun n => n.withChildren (outlineAll (nameIn stored) n.children)) stored
  /-- Match rules and selections are the roots of bindings and nothing else. -/
  root_plain : ∀ n ∈ t'.root.preorder, ¬ isEntity n
  bindings_plain : ∀ e ∈ t'.bindings.entries,
    isEntity e.2 ∧ ∀ n ∈ Node.preorderAll e.2.children, ¬ isEntity n

/-- When signatures decide, a list with the signatures of the topmost entities of a tree and of those below
its own nodes has the signatures of all entities. -/
theorem signature_mem_of_tops_mem {whole : Node} {stored : List Node}
    (hdecide : SignaturesDecide whole.preorder) (hstored : ∀ n ∈ stored, n ∈ whole.preorder)
    (hbelow : ∀ n ∈ stored, ∀ m ∈ topsAll n.children, m.signature ∈ stored.map Node.signature)
    (n : Node) (hn : n ∈ whole.preorder)
    (htops : ∀ m ∈ tops n, m.signature ∈ stored.map Node.signature) :
    ∀ m ∈ n.preorder, isEntity m → m.signature ∈ stored.map Node.signature := by
  induction n using Node.child_induction with
  | step n ih =>
      -- a stored node with the signature of an entity has the same entities below it, up to labels
      have hchildren : ∀ m ∈ topsAll n.children, m.signature ∈ stored.map Node.signature := by
        by_cases hentity : isEntity n
        · intro m hm
          rw [tops_of_isEntity hentity, List.forall_mem_singleton] at htops
          obtain ⟨twin, htwin, hsignature⟩ := List.mem_map.mp htops
          have halike := hdecide twin (hstored twin htwin) n hn hsignature
          have hmem : m.signature ∈ (topsAll twin.children).map Node.signature := by
            rw [signatures_topsAll_children halike]
            exact List.mem_map_of_mem hm
          obtain ⟨k, hk, hkm⟩ := List.mem_map.mp hmem
          rw [← hkm]
          exact hbelow twin htwin k hk
        · rwa [tops_of_not_isEntity hentity] at htops
      intro m hm hentity
      rcases Node.mem_preorder_iff.mp hm with rfl | ⟨c, hc, hmc⟩
      · exact htops m (by simp [tops_of_isEntity hentity])
      · refine ih c hc (Node.mem_preorder_trans (Node.mem_preorder_of_mem_children hc) hn) ?_ m hmc hentity
        intro k hk
        exact hchildren k (topsAll_eq_flatMap _ ▸ List.mem_flatMap.mpr ⟨c, hc, hk⟩)

/-- Hoisting stores the match rules and selections of a tree in which signatures decide. -/
theorem storesEntities_hoistEntities {t : RuleTree} (hbindings : t.bindings = .empty)
    (hdecide : SignaturesDecide t.root.preorder) : ∃ stored, StoresEntities t stored (hoistEntities t) := by
  obtain ⟨bindings, hdrains, hresult⟩ := hoists_hoistEntities t
  have hstart : Hoisting.start = .ofStored [] 0 := rfl
  have htops : ∀ m ∈ tops t.root, isEntity m ∧ m ∈ t.root.preorder := fun m => mem_tops
  have hfirsts : ∀ m ∈ firsts (tops t.root), isEntity m ∧ m ∈ t.root.preorder := by
    intro m hm
    rcases mem_of_mem_foldl_meet hm with hm | hm
    · cases hm
    · exact htops m hm
  have hbelow : ∀ n, isEntity n ∧ n ∈ t.root.preorder → ∀ m ∈ topsAll n.children,
      isEntity m ∧ m ∈ t.root.preorder := by
    rintro n ⟨-, hn⟩ m hm
    obtain ⟨hentity, hmn⟩ := mem_topsAll_children hm
    exact ⟨hentity, Node.mem_preorder_trans hmn hn⟩
  rw [hstart] at hdrains hresult
  obtain ⟨stored, hstart, hentities, hfixed, hbindings'⟩ := Hoisting.drains_ofStored hbelow hdrains
    (firsts (tops t.root)) 0
    (by rw [Hoisting.hoistIn_ofStored.1 t.root [] _ 0 (Nat.zero_le 0) (List.prefix_refl _)]; rfl)
    (Nat.zero_le _) hfirsts
  rw [List.drop_zero] at hfixed hbindings'
  have hstored : stored = firsts (tops t.root ++ stored.flatMap fun n => topsAll n.children) := by
    rw [firsts, List.foldl_append]
    exact hfixed
  have hnodup : (stored.map Node.signature).Nodup := by
    rw [hstored]
    exact nodup_foldl_meet List.nodup_nil
  have hmet : ∀ m ∈ tops t.root ++ stored.flatMap (fun n => topsAll n.children),
      m.signature ∈ stored.map Node.signature := by
    intro m hm
    rw [hstored]
    exact signature_mem_foldl_meet hm
  have hentries : (hoistEntities t).bindings.entries =
      numbered (fun n => n.withChildren (outlineAll (nameIn stored) n.children)) stored := by
    rw [hresult, hbindings, ← hbindings', Table.entries_insertAll]
    · rfl
    · rw [hbindings']
      exact nodup_keys_numbered _ _
    · exact fun key _ h => nomatch h
  have hroot : (hoistEntities t).root = outline (nameIn stored) t.root := by
    rw [hresult, Hoisting.hoistIn_ofStored.1 t.root [] stored 0 (Nat.zero_le 0) hstart]
  refine ⟨stored, hstored, hentities, hnodup, fun signature => ⟨?_, ?_⟩, hroot, hentries, ?_, ?_⟩
  · intro h
    obtain ⟨n, hn, rfl⟩ := List.mem_map.mp h
    exact ⟨n, (hentities n hn).2, (hentities n hn).1, rfl⟩
  · rintro ⟨n, hn, hentity, rfl⟩
    refine signature_mem_of_tops_mem hdecide (fun m hm => (hentities m hm).2) ?_ t.root
      (Node.mem_preorder_self _) (fun m hm => hmet m (List.mem_append_left _ hm)) n hn hentity
    exact fun m hm k hk => hmet k (List.mem_append_right _ (List.mem_flatMap.mpr ⟨m, hm, hk⟩))
  · rw [hroot]
    exact fun n hn => not_isEntity_of_mem_outline hn
  · intro e he
    rw [hentries] at he
    obtain ⟨⟨n, i⟩, hn, rfl⟩ := List.mem_map.mp he
    refine ⟨by simpa using (hentities n (List.fst_mem_of_mem_zipIdx hn)).1, fun m hm => ?_⟩
    rw [Node.children_withChildren (by simp [outlineAll_eq_map]), outlineAll_eq_map,
      Node.preorderAll_eq_flatMap, List.flatMap_map] at hm
    obtain ⟨c, -, hmc⟩ := List.mem_flatMap.mp hm
    exact not_isEntity_of_mem_outline hmc

/-- **Hoisting is complete and exact.** Extraction that only hoists works its queue off. In its result match
rules and selections are the roots of bindings and occur nowhere else; there is one binding for each
signature of a match rule or selection of the tree, and none for anything else; the bindings are numbered in
the order in which the work list first meets their signatures, and each of them is what it stores, with
references in the place of the topmost ones below. -/
theorem hoists_every_entity {config : Config} {t : RuleTree} (hhoist : config.globalEntities = true)
    (hdup : config.detectDuplicates = false) (hbindings : t.bindings = .empty)
    (hdecide : SignaturesDecide t.root.preorder) :
    Hoists t (extractShared config t) ∧ ∃ stored, StoresEntities t stored (extractShared config t) := by
  have heq : extractShared config t = hoistEntities t := by simp [extractShared, hhoist, hdup]
  rw [heq]
  exact ⟨hoists_hoistEntities t, storesEntities_hoistEntities hbindings hdecide⟩

/-- A selection with a rule that comes again and a rule that leads to another selection. -/
def nestedRules : RuleTree where
  root := .chain
    [.linearSelect
      [copiedRule "A" 1,
        .matchRule ⟨"B", "input", [.value (.field "host")], none, ⟨.message, 1, none⟩⟩
          [.linearSelect [copiedRule "C" 3]]],
      copiedRule "D" 5]
  valueMaps := .empty
  bindings := .empty
  timestampField := none

/-- The nodes of `nestedRules` without their labels, each once. -/
def nestedKinds : List Node :=
  [nestedRules.root.unlabelled,
    (Node.linearSelect [copiedRule "A" 1,
      .matchRule ⟨"B", "input", [.value (.field "host")], none, ⟨.message, 1, none⟩⟩
        [.linearSelect [copiedRule "C" 3]]]).unlabelled,
    (copiedRule "A" 1).unlabelled, (copiedAction 1).unlabelled,
    (Node.matchRule ⟨"B", "input", [.value (.field "host")], none, ⟨.message, 1, none⟩⟩
      [.linearSelect [copiedRule "C" 3]]).unlabelled,
    (Node.linearSelect [copiedRule "C" 3]).unlabelled]

/-- The kinds of the nodes of `nestedRules`, in the order of the nodes. -/
def nestedPlaces : List Nat := [0, 1, 2, 3, 3, 4, 5, 2, 3, 3, 2, 3, 3]

theorem signaturesDecide_nestedRules : SignaturesDecide nestedRules.root.preorder := by
  have hkinds : (nestedKinds.map Node.signature).Nodup := by decide +kernel
  have hlisted : nestedRules.root.preorder.map Node.unlabelled = nestedPlaces.map fun i => nestedKinds[i]! := by rfl
  have hplaces : ∀ i ∈ nestedPlaces, i < nestedKinds.length := by decide
  refine .of_nodup (fun n hn => ?_) hkinds
  have hmem : n.unlabelled ∈ nestedRules.root.preorder.map Node.unlabelled := List.mem_map_of_mem hn
  rw [hlisted] at hmem
  obtain ⟨i, hi, heq⟩ := List.mem_map.mp hmem
  rw [← heq, getElem!_pos nestedKinds i (hplaces i hi)]
  exact List.getElem_mem _

/-- The four signatures of rules and selections, in the order of the work list. -/
theorem hoists_every_entity_nestedRules :
    Hoists nestedRules (extractShared { globalEntities := true } nestedRules) ∧
      ∃ stored, StoresEntities nestedRules stored (extractShared { globalEntities := true } nestedRules) ∧
        (extractShared { globalEntities := true } nestedRules).bindings.keys =
          ["entity0", "entity1", "entity2", "entity3"] ∧
        (extractShared { globalEntities := true } nestedRules).bindings.values.map Node.signature =
          ["LinearSelect[Reference(entity1);Reference(entity2);]",
            "Match(input,\"<user>\",None)[SetField(vendor,'acme');SetField(vendor,'acme');]",
            "Match(input,\"<host>\",None)[Reference(entity3);]",
            "LinearSelect[Reference(entity1);]"] := by
  have hhoist : ({ globalEntities := true } : Config).globalEntities = true := rfl
  obtain ⟨hhoists, stored, hstored⟩ :=
    hoists_every_entity (t := nestedRules) hhoist rfl rfl signaturesDecide_nestedRules
  exact ⟨hhoists, stored, hstored, by decide +kernel, by decide +kernel⟩

end Sharing

end LogRules

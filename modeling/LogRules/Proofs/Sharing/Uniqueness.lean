import LogRules.Proofs.Sharing.Replacement

/-! # Nothing is left to share

Deduplication ends when no signature occurs twice or when a round replaced nothing. The second end is never
reached with a signature that occurs twice: between rounds the bindings stand for different trees, which
occur nowhere else (`Distinct`, `distinct_shareRound`), so a signature that occurs twice occurs below the
root or a binding, where it is replaced (`replaced_ne_zero`). Plain trees and hoisted trees are distinct
(`distinct_self`, `distinct_hoistEntities`), so in the result of an extraction that deduplicates no two
nodes that could be shared have one signature (`extractShared_nothing_left`). -/

namespace LogRules.Sharing

/-- A tree with bindings in which nodes that stand for the same are the same up to labels, and what a
binding stands for occurs nowhere else. -/
structure Distinct (whole : Node) (μ : Meanings) (t : RuleTree) : Prop where
  represents : Represents whole μ t
  alike : ∀ m ∈ t.nodes, ∀ n ∈ t.nodes, isShareable m → isShareable n →
    m.meaning μ = n.meaning μ → m.unlabelled = n.unlabelled
  apart : ∀ n ∈ t.below, isShareable n → ∀ name ∈ t.bindings.keys, n.meaning μ ≠ μ name
  once : ∀ a ∈ t.bindings.keys, ∀ b ∈ t.bindings.keys, μ a = μ b → a = b

/-! ### What a round keeps -/

namespace Replaces

variable {whole : Node} {μ μ' : Meanings} {names : String → Option String} {t t' : RuleTree}

/-- A node that could be shared after a round is one from before with its children replaced. -/
theorem exists_rebuild (h : Replaces names t t') (hrep : Represents whole μ t) {m : Node}
    (hm : m ∈ t'.nodes) (hshare : isShareable m) :
    ∃ k ∈ t.nodes, isShareable k ∧ m = rebuild names k := by
  rcases RuleTree.mem_nodes_iff.mp hm with hm | ⟨e, he, rfl⟩
  · obtain ⟨k, hk, hk', heq, -⟩ := h.of_mem_below m hm hshare
    exact ⟨k, RuleTree.mem_nodes_iff.mpr (.inl hk), hk', heq⟩
  · rcases h.of_mem_bindings e he with ⟨n, hn, heq⟩ | ⟨k, hk, hk', heq, -⟩
    · exact ⟨n, RuleTree.mem_nodes_iff.mpr (.inr ⟨_, hn, rfl⟩), (hrep.bindings _ hn).shareable, heq⟩
    · exact ⟨k, RuleTree.mem_nodes_iff.mpr (.inl hk), hk', heq⟩

/-- A binding is an old one with its meaning, or it stands for a node below whose signature has its name. -/
theorem meaning_binding (h : Replaces names t t') (hrep : Represents whole μ t)
    (hrep' : Represents whole μ' t')
    (hmeaning : ∀ n ∈ t.nodes, (rebuild names n).meaning μ' = n.meaning μ) {name : String}
    (hname : name ∈ t'.bindings.keys) :
    (name ∈ t.bindings.keys ∧ μ' name = μ name) ∨
      ∃ k ∈ t.below, isShareable k ∧ μ' name = k.meaning μ ∧
        names (rebuild names k).signature = some name := by
  obtain ⟨e, he, rfl⟩ := List.mem_map.mp hname
  rw [← (hrep'.bindings e he).meaning_eq]
  rcases h.of_mem_bindings e he with ⟨n, hn, heq⟩ | ⟨k, hk, hk', heq, hnamed⟩
  · refine .inl ⟨List.mem_map.mpr ⟨_, hn, rfl⟩, ?_⟩
    rw [heq, hmeaning n (RuleTree.mem_nodes_iff.mpr (.inr ⟨_, hn, rfl⟩))]
    exact (hrep.bindings _ hn).meaning_eq
  · refine .inr ⟨k, hk, hk', ?_, heq ▸ hnamed⟩
    rw [heq, hmeaning k (RuleTree.mem_nodes_iff.mpr (.inl hk))]

/-- A round keeps trees distinct: what stands for the same was the same up to labels before, and so was
replaced by the same name or not at all. -/
theorem distinct (h : Replaces names t t') (hdistinct : Distinct whole μ t)
    (hrep' : Represents whole μ' t')
    (hmeaning : ∀ n ∈ t.nodes, (rebuild names n).meaning μ' = n.meaning μ) : Distinct whole μ' t' := by
  have hrep := hdistinct.represents
  have hbelow : ∀ {n}, n ∈ t.below → n ∈ t.nodes := fun hn => RuleTree.mem_nodes_iff.mpr (.inl hn)
  refine ⟨hrep', ?_, ?_, ?_⟩
  · intro m hm n hn hm' hn' heq
    obtain ⟨k, hk, hk', rfl⟩ := h.exists_rebuild hrep hm hm'
    obtain ⟨l, hl, hl', rfl⟩ := h.exists_rebuild hrep hn hn'
    rw [hmeaning k hk, hmeaning l hl] at heq
    exact unlabelled_rebuild_congr (hdistinct.alike k hk l hl hk' hl' heq)
  · intro m hm hm' name hname heq
    obtain ⟨k, hk, hk', rfl, hnone⟩ := h.of_mem_below m hm hm'
    rw [hmeaning k (hbelow hk)] at heq
    rcases h.meaning_binding hrep hrep' hmeaning hname with ⟨hold, hμ⟩ | ⟨l, hl, hl', hμ, hnamed⟩
    · exact hdistinct.apart k hk hk' name hold (heq.trans hμ)
    · have halike := hdistinct.alike k (hbelow hk) l (hbelow hl) hk' hl' (heq.trans hμ)
      rw [signature_rebuild_congr halike, hnamed] at hnone
      cases hnone
  · intro a ha b hb heq
    rcases h.meaning_binding hrep hrep' hmeaning ha with ⟨ha, hμa⟩ | ⟨k, hk, hk', hμa, hka⟩ <;>
      rcases h.meaning_binding hrep hrep' hmeaning hb with ⟨hb, hμb⟩ | ⟨l, hl, hl', hμb, hlb⟩
    · exact hdistinct.once a ha b hb (hμa.symm.trans (heq.trans hμb))
    · exact absurd (hμb.symm.trans (heq.symm.trans hμa)) (hdistinct.apart l hl hl' a ha)
    · exact absurd (hμa.symm.trans (heq.trans hμb)) (hdistinct.apart k hk hk' b hb)
    · have halike := hdistinct.alike k (hbelow hk) l (hbelow hl) hk' hl'
        (hμa.symm.trans (heq.trans hμb))
      rw [signature_rebuild_congr halike, hlb] at hka
      exact (Option.some.inj hka).symm

end Replaces

section Round

variable {whole : Node} {μ : Meanings} {next : Nat} {t : RuleTree}

/-- One round: the tree stays distinct and the names to come stay free. -/
theorem distinct_shareRound {duplicated : List String} (hw : whole.IsPlain) (h : Distinct whole μ t)
    (hfree : FreeFrom next t) (hmet : SignaturesDecide (metInRound duplicated next t)) :
    ∃ μ', Distinct whole μ' (shareRound duplicated next t).1 ∧
      FreeFrom (shareRound duplicated next t).2.next (shareRound duplicated next t).1 := by
  obtain ⟨μ', hμ, hrep', hfree', hsound, hentries⟩ := sound_shareRound hw h.represents hfree hmet
  obtain ⟨-, -, hcompared⟩ := @shareRound_eq_replace duplicated next t
  refine ⟨μ', (replaces_shareRound hentries).distinct h hrep' fun n hn => ?_, hfree'⟩
  refine (meaning_rebuild hw h.represents hμ (fun k hk hshare name hname => ?_) n).1 hn
  exact hsound.meaning_eq hmet ((hcompared _).mpr ⟨k, hk, hshare, rfl⟩) hname

theorem replace_of_forall_none {names : String → Option String} (hnone : ∀ signature, names signature = none)
    (n : Node) : replace names n = n := by
  induction n using Node.child_induction with
  | step n ih =>
      by_cases hshare : isShareable n
      · have hrebuild : rebuild names n = n := by
          rw [rebuild, List.map_congr_left ih, List.map_id', Node.withChildren_children]
        rw [replace_of_isShareable hshare, hrebuild, put, hnone]
      · exact replace_of_not_isShareable hshare

/-- When a round replaces nothing, it compared no signature that is to be shared. -/
theorem not_mem_duplicated_of_replaced_eq_zero {duplicated : List String}
    (hidle : (shareRound duplicated next t).2.replaced = 0) {n : Node} (hn : n ∈ t.below)
    (hshare : isShareable n) : n.signature ∉ duplicated := by
  have hsize := (@consistent_shareRound duplicated next t).size_le
  rw [hidle, Nat.le_zero, Table.size, List.length_eq_zero_iff] at hsize
  have hnone : ∀ signature, namesAfter duplicated next t signature = none := by
    intro signature
    rw [namesAfter, Table.get?, hsize]
    rfl
  have hrebuild : rebuild (namesAfter duplicated next t) n = n := by
    rw [rebuild, List.map_congr_left fun c _ => replace_of_forall_none hnone c, List.map_id',
      Node.withChildren_children]
  have hmet : n ∈ metInRound duplicated next t :=
    (shareRound_eq_replace.2.2 n).mpr ⟨n, hn, hshare, hrebuild.symm⟩
  intro hdup
  refine Round.get?_names_of_mem (s := .start duplicated next) hmet hdup ?_
  rw [← shareRound_state]
  exact hnone n.signature

end Round

/-! ### Signatures that occur twice -/

/-- The signatures of all nodes that could be shared. -/
def signatures (t : RuleTree) : List String := (t.nodes.filter isShareable).map Node.signature

theorem nodup_signatures_iff {t : RuleTree} :
    (signatures t).Nodup ↔ duplicatedSignatures t = [] := by
  change _ ↔ (signatures t).filter (fun s => 2 ≤ (signatures t).count s) = []
  rw [List.nodup_iff_count_le_one, List.filter_eq_nil_iff]
  constructor
  · intro h s _ hcount
    have := h s
    simp only [decide_eq_true_eq] at hcount
    omega
  · intro h s
    by_cases hmem : s ∈ signatures t
    · have := h s hmem
      simp only [decide_eq_true_eq] at this
      omega
    · rw [List.count_eq_zero_of_not_mem hmem]
      omega

/-- All nodes are the roots of the bindings and the nodes below. -/
theorem nodes_perm (t : RuleTree) : t.nodes.Perm (t.bindings.values ++ t.below) := by
  have hbindings : (t.bindings.values.flatMap Node.preorder).Perm
      (t.bindings.values ++ t.bindings.values.flatMap fun n => Node.preorderAll n.children) := by
    have hperm := List.map_append_flatMap_perm t.bindings.values (fun n => n)
      fun n => Node.preorderAll n.children
    rw [List.map_id'] at hperm
    rw [funext Node.preorder_eq]
    exact hperm.symm
  rw [RuleTree.nodes, RuleTree.below, ← List.append_assoc]
  refine (hbindings.append_left _).trans ?_
  rw [← List.append_assoc]
  exact List.perm_append_comm.append_right _

/-- The bindings of a distinct tree have signatures of their own. -/
theorem Distinct.nodup_values {whole : Node} {μ : Meanings} {t : RuleTree} (h : Distinct whole μ t)
    (hdecide : SignaturesDecide t.nodes) : (t.bindings.values.map Node.signature).Nodup := by
  have hkeys : (t.bindings.entries.map Prod.fst).Nodup := h.represents.nodup
  rw [Table.values, List.map_map, List.Nodup, List.pairwise_map]
  rw [List.Nodup, List.pairwise_map] at hkeys
  refine hkeys.imp_of_mem fun {a b} ha hb hne hsignature => hne ?_
  have hnode : ∀ {e}, e ∈ t.bindings.entries → e.2 ∈ t.nodes := fun he =>
    RuleTree.mem_nodes_iff.mpr (.inr ⟨_, he, rfl⟩)
  have halike : a.2.unlabelled = b.2.unlabelled := hdecide _ (hnode ha) _ (hnode hb) hsignature
  refine h.once _ (List.mem_map_of_mem ha) _ (List.mem_map_of_mem hb) ?_
  rw [← (h.represents.bindings a ha).meaning_eq, ← (h.represents.bindings b hb).meaning_eq, Node.meaning,
    Node.meaning, halike]

/-- While a signature occurs twice, a round replaces something: two bindings do not have the signature, so
it occurs below. -/
theorem Distinct.replaced_ne_zero {whole : Node} {μ : Meanings} {t : RuleTree} (h : Distinct whole μ t)
    (hdecide : SignaturesDecide t.nodes) (hdup : duplicatedSignatures t ≠ []) (next : Nat) :
    (shareRound (duplicatedSignatures t) next t).2.replaced ≠ 0 := by
  intro hidle
  obtain ⟨signature, hmem⟩ := List.exists_mem_of_ne_nil _ hdup
  have hcount : 2 ≤ (signatures t).count signature := of_decide_eq_true (List.mem_filter.mp hmem).2
  have hbelow : signature ∉ (t.below.filter isShareable).map Node.signature := by
    rintro hsignature
    obtain ⟨n, hn, rfl⟩ := List.mem_map.mp hsignature
    obtain ⟨hn, hshare⟩ := List.mem_filter.mp hn
    exact not_mem_duplicated_of_replaced_eq_zero hidle hn hshare hmem
  have hvalues : t.bindings.values.filter isShareable = t.bindings.values := by
    refine List.filter_eq_self.mpr fun n hn => ?_
    obtain ⟨e, he, rfl⟩ := List.mem_map.mp hn
    exact (h.represents.bindings e he).shareable
  have hperm : (signatures t).Perm (t.bindings.values.map Node.signature ++
      (t.below.filter isShareable).map Node.signature) := by
    have := ((nodes_perm t).filter isShareable).map Node.signature
    rwa [List.filter_append, hvalues, List.map_append] at this
  have hone := List.nodup_iff_count_le_one.mp (h.nodup_values hdecide) signature
  rw [hperm.count_eq, List.count_append, List.count_eq_zero_of_not_mem hbelow] at hcount
  omega

/-! ### The trees that deduplication begins with -/

/-- A tree without references and bindings is distinct. -/
theorem distinct_self {t : RuleTree} (hroot : t.root.IsPlain) (hbindings : t.bindings = .empty) :
    Distinct t.root .reference t := by
  have hplain : ∀ n ∈ t.nodes, n.meaning .reference = n.unlabelled := by
    intro n hn
    refine Node.meaning_of_isPlain (hroot.of_mem_preorder ?_) _
    simpa [RuleTree.nodes, hbindings, Table.empty, Table.values] using hn
  have hkeys : t.bindings.keys = [] := by
    rw [hbindings]
    rfl
  refine ⟨represents_self hroot hbindings, fun m hm n hn _ _ heq => ?_, fun n _ _ name hname => ?_,
    fun a ha => ?_⟩
  · rw [← hplain m hm, heq, hplain n hn]
  · rw [hkeys] at hname
    cases hname
  · rw [hkeys] at ha
    cases ha

section Hoisted

variable {t t' : RuleTree} {stored : List Node} {μ : Meanings}

/-- A node with its children outlined. -/
def outlined (stored : List Node) (n : Node) : Node :=
  n.withChildren (outlineAll (nameIn stored) n.children)

theorem count_unlabelled (n : Node) : n.unlabelled.count = n.count := by
  induction n using Node.child_induction with
  | step n ih =>
      have hall : ∀ nodes : List Node, (∀ c ∈ nodes, c.unlabelled.count = c.count) →
          Node.countAll (nodes.map Node.unlabelled) = Node.countAll nodes := by
        intro nodes h
        induction nodes with
        | nil => rfl
        | cons c rest ihrest =>
            obtain ⟨hc, hrest⟩ := List.forall_mem_cons.mp h
            rw [List.map_cons, Node.countAll, Node.countAll, hc, ihrest hrest]
      rw [Node.count_eq, Node.count_eq n, Node.children_unlabelled, hall _ ih]

/-- Outlines do not look at labels. -/
theorem unlabelled_outline (stored : List Node) (n : Node) :
    (outline (nameIn stored) n).unlabelled = outline (nameIn stored) n.unlabelled := by
  induction n using Node.child_induction with
  | step n ih =>
      by_cases hentity : isEntity n
      · rw [outline_of_isEntity _ hentity, outline_of_isEntity _ (by simpa using hentity), nameIn, nameIn,
          Node.signature_unlabelled]
        rfl
      · rw [outline_of_not_isEntity _ hentity, outline_of_not_isEntity _ (by simpa using hentity),
          Node.unlabelled_withChildren, Node.children_unlabelled, outlineAll_eq_map, outlineAll_eq_map,
          List.map_map, List.map_map]
        exact congrArg (n.unlabelled.withChildren ·) (List.map_congr_left ih)

theorem unlabelled_outlined_congr {stored : List Node} {m n : Node} (h : m.unlabelled = n.unlabelled) :
    (outlined stored m).unlabelled = (outlined stored n).unlabelled := by
  have houtlined : ∀ k : Node, (outlined stored k).unlabelled =
      k.unlabelled.withChildren (k.unlabelled.children.map (outline (nameIn stored))) := by
    intro k
    rw [outlined, Node.unlabelled_withChildren, Node.children_unlabelled, outlineAll_eq_map, List.map_map,
      List.map_map]
    exact congrArg (k.unlabelled.withChildren ·)
      (List.map_congr_left fun c _ => unlabelled_outline stored c)
  rw [houtlined m, h, ← houtlined n]

/-- Outlines stand for the trees that they are outlines of. A stored node has the nodes of the one that it
is stored for, up to labels, so the induction is on their number. -/
theorem meaning_outline (hdecide : SignaturesDecide t.root.preorder) (hstored : StoresEntities t stored t')
    (hrep : Represents t.root μ t') (hroot : t.root.IsPlain) (bound : Nat) (n : Node)
    (hn : n ∈ t.root.preorder) (hbound : n.count ≤ bound) :
    (outlined stored n).meaning μ = n.unlabelled ∧
      (outline (nameIn stored) n).meaning μ = n.unlabelled := by
  induction bound generalizing n with
  | zero =>
      rw [Node.count_eq] at hbound
      omega
  | succ bound ih =>
      have houtlined : ∀ m ∈ t.root.preorder, m.count ≤ bound + 1 →
          (outlined stored m).meaning μ = m.unlabelled := by
        intro m hm hcount
        have href : ¬ m.IsReference := by
          rintro ⟨name, rfl⟩
          exact hroot name hm
        have hchildren : ∀ c ∈ m.children, (outline (nameIn stored) c).meaning μ = c.unlabelled := by
          intro c hc
          have hlt := Node.countAll_le_of_mem hc
          rw [Node.count_eq] at hcount
          exact (ih c (Node.mem_preorder_trans (Node.mem_preorder_of_mem_children hc) hm) (by omega)).2
        rw [outlined, outlineAll_eq_map, Node.meaning_withChildren μ href, List.map_map]
        refine (congrArg (m.unlabelled.withChildren ·) (List.map_congr_left hchildren)).trans ?_
        rw [← Node.children_unlabelled, Node.withChildren_children]
      refine ⟨houtlined n hn hbound, ?_⟩
      by_cases hentity : isEntity n
      · obtain ⟨twin, htwin, hsignature⟩ := List.mem_map.mp
          ((hstored.mem_iff n.signature).mpr ⟨n, hn, hentity, rfl⟩)
        have htwin' := (hstored.mem_preorder twin htwin).2
        have halike : twin.unlabelled = n.unlabelled := hdecide twin htwin' n hn hsignature
        have hcount : twin.count = n.count := by
          rw [← count_unlabelled, halike, count_unlabelled]
        have hbinding : (nameIn stored n, outlined stored twin) ∈ t'.bindings.entries := by
          rw [hstored.bindings_eq, mem_numbered_iff hstored.nodup]
          exact ⟨twin, htwin, by rw [nameIn, ← hsignature]; rfl⟩
        rw [outline_of_isEntity _ hentity, Node.meaning_reference,
          ← (hrep.bindings _ hbinding).meaning_eq, houtlined twin htwin' (hcount ▸ hbound), halike]
      · rw [outline_of_not_isEntity _ hentity]
        exact houtlined n hn hbound

/-- What could be shared in a hoisted tree is a node of the tree with its children outlined: below, no match
rule and no selection, and the roots of bindings are the stored nodes under their names. -/
theorem StoresEntities.exists_outlined (h : StoresEntities t stored t') {m : Node} (hm : m ∈ t'.below)
    (hshare : isShareable m) : ∃ n ∈ t.root.preorder, ¬ isEntity n ∧ m = outlined stored n := by
  rcases RuleTree.mem_below_iff.mp hm with hm | ⟨e, he, hm⟩
  · rw [h.root_eq] at hm
    exact exists_of_mem_outline hm hshare
  · rw [h.bindings_eq, mem_numbered_iff h.nodup] at he
    obtain ⟨n, hn, rfl⟩ := he
    rw [Node.children_withChildren (by simp [outlineAll_eq_map]), outlineAll_eq_map,
      Node.mem_preorderAll_iff] at hm
    obtain ⟨c', hc', hm⟩ := hm
    obtain ⟨c, hc, rfl⟩ := List.mem_map.mp hc'
    obtain ⟨k, hk, hfound⟩ := exists_of_mem_outline hm hshare
    refine ⟨k, Node.mem_preorder_trans hk ?_, hfound⟩
    exact Node.mem_preorder_trans (Node.mem_preorder_of_mem_children hc) (h.mem_preorder n hn).2

/-- A hoisted tree is distinct: match rules and selections are bindings, and nothing else is. -/
theorem distinct_of_storesEntities (hdecide : SignaturesDecide t.root.preorder)
    (hstored : StoresEntities t stored t') (hrep : Represents t.root μ t') (hroot : t.root.IsPlain) :
    Distinct t.root μ t' := by
  have hmeaning : ∀ n ∈ t.root.preorder, (outlined stored n).meaning μ = n.unlabelled := fun n hn =>
    (meaning_outline hdecide hstored hrep hroot n.count n hn (Nat.le_refl _)).1
  have hbinding : ∀ name ∈ t'.bindings.keys, ∃ n ∈ t.root.preorder, isEntity n ∧
      (name, outlined stored n) ∈ t'.bindings.entries ∧ name = nameIn stored n ∧
      μ name = n.unlabelled := by
    intro name hname
    obtain ⟨e, he, rfl⟩ := List.mem_map.mp hname
    have he' := he
    rw [hstored.bindings_eq, mem_numbered_iff hstored.nodup] at he'
    obtain ⟨n, hn, rfl⟩ := he'
    obtain ⟨hentity, hn⟩ := hstored.mem_preorder n hn
    exact ⟨n, hn, hentity, he, rfl, (hrep.bindings _ he).meaning_eq.symm.trans (hmeaning n hn)⟩
  have hnode : ∀ m ∈ t'.nodes, isShareable m → ∃ n ∈ t.root.preorder, m = outlined stored n := by
    intro m hm hshare
    rcases RuleTree.mem_nodes_iff.mp hm with hm | ⟨e, he, rfl⟩
    · obtain ⟨n, hn, -, heq⟩ := hstored.exists_outlined hm hshare
      exact ⟨n, hn, heq⟩
    · rw [hstored.bindings_eq, mem_numbered_iff hstored.nodup] at he
      obtain ⟨n, hn, rfl⟩ := he
      exact ⟨n, (hstored.mem_preorder n hn).2, rfl⟩
  refine ⟨hrep, ?_, ?_, ?_⟩
  · intro m hm n hn hm' hn' heq
    obtain ⟨k, hk, rfl⟩ := hnode m hm hm'
    obtain ⟨l, hl, rfl⟩ := hnode n hn hn'
    rw [hmeaning k hk, hmeaning l hl] at heq
    exact unlabelled_outlined_congr heq
  · intro m hm hshare name hname heq
    obtain ⟨k, hk, hentity, rfl⟩ := hstored.exists_outlined hm hshare
    obtain ⟨l, -, hentity', -, -, hμ⟩ := hbinding name hname
    rw [hmeaning k hk, hμ] at heq
    rw [← isEntity_unlabelled, heq, isEntity_unlabelled] at hentity
    exact hentity hentity'
  · intro a ha b hb heq
    obtain ⟨k, -, -, -, hka, hμa⟩ := hbinding a ha
    obtain ⟨l, -, -, -, hlb, hμb⟩ := hbinding b hb
    rw [hμa, hμb] at heq
    rw [hka, hlb, nameIn, nameIn, ← Node.signature_unlabelled, heq, Node.signature_unlabelled]

end Hoisted

/-! ### The run -/

/-- The nodes that arise in the rounds from a tree on: those of the trees between rounds, and those that a
round compares. -/
inductive ArisesInRounds : Nat → RuleTree → Node → Prop
  | node {next : Nat} {t : RuleTree} {n : Node} (h : n ∈ t.nodes) : ArisesInRounds next t n
  | compared {next : Nat} {t : RuleTree} {n : Node} (hdup : duplicatedSignatures t ≠ [])
      (h : n ∈ metInRound (duplicatedSignatures t) next t) : ArisesInRounds next t n
  | later {next : Nat} {t : RuleTree} {n : Node} (hdup : duplicatedSignatures t ≠ [])
      (hbusy : (shareRound (duplicatedSignatures t) next t).2.replaced ≠ 0)
      (h : ArisesInRounds (shareRound (duplicatedSignatures t) next t).2.next
        (shareRound (duplicatedSignatures t) next t).1 n) : ArisesInRounds next t n

/-- The nodes that arise in an extraction that deduplicates. -/
def Arises (config : Config) (t : RuleTree) (n : Node) : Prop :=
  n ∈ t.nodes ∨ ArisesInRounds 0 (hoisted config t) n

/-- The rounds from a distinct tree on end with signatures that differ. -/
theorem nodup_of_rounds {whole : Node} (hw : whole.IsPlain) {next : Nat} {t t' : RuleTree}
    (h : Rounds next t t') {μ : Meanings} (hdistinct : Distinct whole μ t) (hfree : FreeFrom next t)
    (hdecide : ∀ m n, ArisesInRounds next t m → ArisesInRounds next t n → m.signature = n.signature →
      m.unlabelled = n.unlabelled) : (signatures t').Nodup := by
  induction h generalizing μ with
  | unique hunique => exact nodup_signatures_iff.mpr hunique
  | idle hdup hidle =>
      have hnodes : SignaturesDecide _ := fun m hm n hn => hdecide m n (.node hm) (.node hn)
      exact absurd hidle (hdistinct.replaced_ne_zero hnodes hdup _)
  | again hdup hbusy hrest ih =>
      obtain ⟨μ', hdistinct', hfree'⟩ := distinct_shareRound hw hdistinct hfree
        fun m hm n hn => hdecide m n (.compared hdup hm) (.compared hdup hn)
      exact ih hdistinct' hfree' fun m n hm hn => hdecide m n (.later hdup hbusy hm) (.later hdup hbusy hn)

/-- The tree that deduplication begins with is distinct, and the names to come are free. -/
theorem distinct_hoisted (config : Config) {t : RuleTree} (hroot : t.root.IsPlain)
    (hbindings : t.bindings = .empty) (hdecide : SignaturesDecide t.root.preorder) :
    ∃ μ, Distinct t.root μ (hoisted config t) ∧ FreeFrom 0 (hoisted config t) := by
  unfold hoisted
  split
  · obtain ⟨stored, hstored⟩ := storesEntities_hoistEntities hbindings hdecide
    obtain ⟨μ, hrep, hkeys⟩ := represents_hoistEntities hroot hbindings
      (hdecide.mono (List.filter_subset_self _))
    refine ⟨μ, distinct_of_storesEntities hdecide hstored hrep hroot, fun k _ hk => ?_⟩
    obtain ⟨i, hi⟩ := hkeys _ hk
    exact label_ne i k hi
  · refine ⟨_, distinct_self hroot hbindings, fun k _ hk => ?_⟩
    rw [hbindings] at hk
    cases hk

/-- **Deduplication ends and leaves nothing to share.** An extraction that deduplicates, with or without
hoisting, takes finitely many rounds. When nodes with one signature that arise in the run differ in labels at
most, no two places in the root and the bindings of its result hold nodes with one signature, references and
nodes without effect apart. -/
theorem extractShared_nothing_left {config : Config} {t : RuleTree} (hdedup : config.detectDuplicates = true)
    (hroot : t.root.IsPlain) (hbindings : t.bindings = .empty)
    (hdecide : ∀ m n, Arises config t m → Arises config t n → m.signature = n.signature →
      m.unlabelled = n.unlabelled) :
    Extracts config t (extractShared config t) ∧ (signatures (extractShared config t)).Nodup := by
  refine ⟨extracts_extractShared config t, ?_⟩
  have hnodes : SignaturesDecide t.root.preorder := by
    have hmem : ∀ {n}, n ∈ t.root.preorder → Arises config t n := fun hn =>
      .inl (List.mem_append_left _ hn)
    exact fun m hm n hn => hdecide m n (hmem hm) (hmem hn)
  obtain ⟨μ, hdistinct, hfree⟩ := distinct_hoisted config hroot hbindings hnodes
  rw [extractShared_eq, if_pos hdedup]
  exact nodup_of_rounds hroot (rounds_removeDuplicates _) hdistinct hfree
    fun m n hm hn => hdecide m n (.inr hm) (.inr hn)

/-! ### Two rounds -/

/-- Only equal nodes are shared. -/
def shareDuplicates : Config := { detectDuplicates := true }

/-- A copied rule whose actions are stored. -/
def sharedRule (id : String) (line : Nat) : Node :=
  (copiedRule id line).withChildren [.reference "dup0", .reference "dup0"]

/-- What the first round makes of two copies of a rule: their actions are stored, and now the rules could
be. -/
def copiesOnce : RuleTree where
  root := .chain [sharedRule "A" 1, sharedRule "B" 3]
  valueMaps := .empty
  bindings := ⟨[("dup0", copiedAction 1)]⟩
  timestampField := none

/-- What the second round makes of them. -/
def copiesTwice : RuleTree where
  root := .chain [.reference "dup1", .reference "dup1"]
  valueMaps := .empty
  bindings := ⟨[("dup0", copiedAction 1), ("dup1", sharedRule "A" 1)]⟩
  timestampField := none

set_option maxRecDepth 20000 in
theorem shareRound_copies : (shareRound (duplicatedSignatures copies) 0 copies).1 = copiesOnce ∧
    (shareRound (duplicatedSignatures copies) 0 copies).2.next = 1 ∧
    metInRound (duplicatedSignatures copies) 0 copies =
      [copiedAction 1, copiedAction 2, sharedRule "A" 1, copiedAction 3, copiedAction 4,
        sharedRule "B" 3, copiesOnce.root] := ⟨by rfl, by rfl, by rfl⟩

set_option maxRecDepth 20000 in
theorem shareRound_copiesOnce :
    (shareRound (duplicatedSignatures copiesOnce) 1 copiesOnce).1 = copiesTwice ∧
    metInRound (duplicatedSignatures copiesOnce) 1 copiesOnce =
      [sharedRule "A" 1, sharedRule "B" 3, copiesTwice.root] := ⟨by rfl, by rfl⟩

theorem duplicatedSignatures_copiesTwice : duplicatedSignatures copiesTwice = [] := by decide +kernel

/-- The nodes of the two rounds, up to labels. -/
def copiesKinds : List Node :=
  [copies.root, copiesOnce.root, copiesTwice.root, copiedRule "A" 1, sharedRule "A" 1, copiedAction 1,
    .reference "dup0", .reference "dup1"].map Node.unlabelled

theorem unlabelled_mem_copiesKinds {n : Node} (h : Arises shareDuplicates copies n) :
    n.unlabelled ∈ copiesKinds := by
  have hlisted : ∀ m ∈ copies.nodes ++ metInRound (duplicatedSignatures copies) 0 copies ++
      copiesOnce.nodes ++ metInRound (duplicatedSignatures copiesOnce) 1 copiesOnce ++
      copiesTwice.nodes, m.unlabelled ∈ copiesKinds := by
    rw [shareRound_copies.2.2, shareRound_copiesOnce.2]
    simp [copiesKinds, copies, copiesOnce, copiesTwice, copiedRule, sharedRule, copiedAction,
      RuleTree.nodes, Table.values, Table.empty, Node.preorder, Node.preorderAll, Node.unlabelled,
      Node.unlabelledAll, Node.withChildren, MatchRule.unlabelled, Action.unlabelled]
  simp only [List.forall_mem_append] at hlisted
  obtain ⟨⟨⟨⟨hcopies, hmet⟩, honce⟩, hmetOnce⟩, htwice⟩ := hlisted
  have hlast : ∀ next, ArisesInRounds next copiesTwice n → n.unlabelled ∈ copiesKinds := by
    intro next h
    cases h with
    | node h => exact htwice n h
    | compared hdup _ => exact absurd duplicatedSignatures_copiesTwice hdup
    | later hdup _ _ => exact absurd duplicatedSignatures_copiesTwice hdup
  have hsecond : ArisesInRounds 1 copiesOnce n → n.unlabelled ∈ copiesKinds := by
    intro h
    cases h with
    | node h => exact honce n h
    | compared _ h => exact hmetOnce n h
    | later _ _ h => exact hlast _ (shareRound_copiesOnce.1 ▸ h)
  rcases h with h | h
  · exact hcopies n h
  · change ArisesInRounds 0 copies n at h
    cases h with
    | node h => exact hcopies n h
    | compared _ h => exact hmet n h
    | later _ _ h =>
        rw [shareRound_copies.1, shareRound_copies.2.1] at h
        exact hsecond h

/-- Deduplication of two copies of a rule takes two rounds, and its result has four nodes to share, all
with signatures of their own. -/
theorem copies_nothing_left :
    Extracts shareDuplicates copies (extractShared shareDuplicates copies) ∧
      (signatures (extractShared shareDuplicates copies)).Nodup ∧
      (extractShared shareDuplicates copies).bindings.keys = ["dup0", "dup1"] := by
  have hroot : copies.root.IsPlain := by
    intro name hname
    simp [copies, copiedRule, copiedAction, Node.preorder, Node.preorderAll] at hname
  have hkinds : (copiesKinds.map Node.signature).Nodup := by decide +kernel
  have hdedup : shareDuplicates.detectDuplicates = true := rfl
  obtain ⟨hextracts, hnodup⟩ := extractShared_nothing_left (t := copies) hdedup hroot rfl
    fun m n hm hn hsignature => by
      refine List.inj_on_of_nodup_map hkinds (unlabelled_mem_copiesKinds hm)
        (unlabelled_mem_copiesKinds hn) ?_
      rwa [Node.signature_unlabelled, Node.signature_unlabelled]
  exact ⟨hextracts, hnodup, by decide +kernel⟩

end LogRules.Sharing

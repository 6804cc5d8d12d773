import LogRules.Proofs.Sharing.Meaning

/-! # Stored nodes and their names

Hoisting and deduplication both keep a store: the stored nodes, the name of every signature that was
met, and the number of the next name. `Store.Sound` says what such a store is right about, and a
node whose signature has a name stands for what the name stands for as long as nodes with one
signature differ in labels at most (`Store.Sound.meaning_eq`). `Kept` says that trees were replaced
by trees that stand for the same, while the store may have grown. -/

namespace LogRules.Sharing

/-- Nodes with one signature differ in labels at most. -/
def SignaturesDecide (nodes : List Node) : Prop :=
  ∀ m ∈ nodes, ∀ n ∈ nodes, m.signature = n.signature → m.unlabelled = n.unlabelled

theorem SignaturesDecide.mono {nodes nodes' : List Node} (h : SignaturesDecide nodes)
    (hsub : nodes' ⊆ nodes) : SignaturesDecide nodes' :=
  fun m hm n hn => h m (hsub hm) n (hsub hn)

/-- The names of signatures, the stored nodes, and the number of the next name. -/
structure Store where
  names : Table String
  bindings : List (String × Node)
  next : Nat

namespace Store

/-- The store is part of a tree that stands for `whole`, in which the names `old` are taken
already. Its names are a label and a number, and the nodes whose signatures have names are among
`met`. -/
structure Sound (whole : Node) (met : List Node) (old : List String) (label : String)
    (μ : Meanings) (σ : Store) : Prop where
  stands : ∀ e ∈ σ.bindings, Stands whole μ e
  named : ∀ signature name, σ.names.get? signature = some name →
    ∃ n ∈ met, n.signature = signature ∧ n.meaning μ = μ name ∧ μ name ∈ whole.unlabelled.preorder
  unknown : ∀ name, name ∉ old ++ σ.bindings.map Prod.fst → μ name = .reference name
  nodup : (old ++ σ.bindings.map Prod.fst).Nodup
  fresh : ∀ k, σ.next ≤ k → label ++ toString k ∉ old ++ σ.bindings.map Prod.fst
  numbered : ∀ e ∈ σ.bindings, ∃ k : Nat, e.1 = label ++ toString k

variable {whole : Node} {met : List Node} {old : List String} {label : String}
variable {μ : Meanings} {σ : Store}

/-- What a signature's name stands for is what every node with this signature stands for. -/
theorem Sound.meaning_eq (h : σ.Sound whole met old label μ) (hmet : SignaturesDecide met)
    {n : Node} (hn : n ∈ met) {name : String} (hname : σ.names.get? n.signature = some name) :
    μ name = n.meaning μ := by
  obtain ⟨m, hm, hsig, hmeaning, -⟩ := h.named _ _ hname
  rw [← hmeaning, Node.meaning, Node.meaning, hmet m hm n hn hsig]

/-- Names with one label differ when their numbers do. -/
theorem label_inj {label : String} {i k : Nat}
    (h : label ++ toString i = label ++ toString k) : i = k := by
  have hdigits : (Nat.repr i).toList = (Nat.repr k).toList :=
    congrArg String.toList ((String.append_right_inj label).mp h)
  rw [Nat.toList_repr, Nat.toList_repr] at hdigits
  rw [← Nat.ofDigitChars_ten_toDigits (n := i), hdigits, Nat.ofDigitChars_ten_toDigits]

/-- A node of the whole is stored under the next name. -/
theorem Sound.store (h : σ.Sound whole met old label μ) (hw : whole.IsPlain) {n : Node}
    (hn : n ∈ met) (hpart : n.meaning μ ∈ whole.unlabelled.preorder) (hshare : isShareable n) :
    ∃ μ', Extends μ μ' ∧ μ' (label ++ toString σ.next) = n.meaning μ ∧
      Sound whole met old label μ'
        ⟨σ.names.insert n.signature (label ++ toString σ.next),
          σ.bindings ++ [(label ++ toString σ.next, n)], σ.next + 1⟩ := by
  set name := label ++ toString σ.next with hname
  have hfresh : name ∉ old ++ σ.bindings.map Prod.fst := h.fresh _ (Nat.le_refl _)
  have hextends : Extends μ (assign μ name (n.meaning μ)) :=
    extends_assign _ (h.unknown name hfresh)
  have hplain : (n.meaning μ).IsPlain := (Node.isPlain_unlabelled.mpr hw).of_mem_preorder hpart
  have hmeaning : n.meaning (assign μ name (n.meaning μ)) = n.meaning μ :=
    hextends.meaning_eq hplain
  have hkeys : old ++ (σ.bindings ++ [(name, n)]).map Prod.fst
      = (old ++ σ.bindings.map Prod.fst) ++ [name] := by
    rw [List.map_append, ← List.append_assoc]
    rfl
  refine ⟨assign μ name (n.meaning μ), hextends, assign_same .., ?_, ?_, ?_, ?_, ?_, ?_⟩
  · intro e he
    rcases List.mem_append.mp he with he | he
    · exact (h.stands e he).of_extends hw hextends
    · cases List.mem_singleton.mp he
      refine ⟨?_, ?_, hshare⟩
      · rw [hmeaning, assign_same]
      · rw [assign_same]
        exact hpart
  · intro signature other hother
    rw [Table.get?_insert] at hother
    split at hother
    · next heq =>
        cases hother
        refine ⟨n, hn, heq, ?_, ?_⟩
        · rw [hmeaning, assign_same]
        · rw [assign_same]
          exact hpart
    · obtain ⟨m, hm, hsig, heq, hmem⟩ := h.named _ _ hother
      have hm' : (μ other).IsPlain := (Node.isPlain_unlabelled.mpr hw).of_mem_preorder hmem
      have hother' : assign μ name (n.meaning μ) other = μ other :=
        hextends other fun href => hm' other (href ▸ Node.mem_preorder_self _)
      refine ⟨m, hm, hsig, ?_, ?_⟩
      · rw [hextends.meaning_eq (heq ▸ hm'), heq, hother']
      · rw [hother']
        exact hmem
  · intro other hother
    rw [hkeys, List.mem_append, List.mem_singleton, not_or] at hother
    rw [assign_of_ne _ _ hother.2]
    exact h.unknown other hother.1
  · rw [hkeys]
    refine List.nodup_append.mpr ⟨h.nodup, List.nodup_singleton _, ?_⟩
    intro a ha b hb heq
    cases List.mem_singleton.mp hb
    exact hfresh (heq ▸ ha)
  · intro k hk
    change σ.next + 1 ≤ k at hk
    rw [hkeys, List.mem_append, List.mem_singleton, not_or]
    refine ⟨h.fresh k (by omega), fun heq => ?_⟩
    have := label_inj (heq.trans hname)
    omega
  · intro e he
    rcases List.mem_append.mp he with he | he
    · exact h.numbered e he
    · cases List.mem_singleton.mp he
      exact ⟨_, hname⟩

/-- A stored node may be replaced by one that stands for the same. -/
theorem Sound.replace {names : Table String} {before after : List (String × Node)} {name : String}
    {m n : Node} {next : Nat}
    (h : Sound whole met old label μ ⟨names, before ++ (name, m) :: after, next⟩)
    (hn : Stands whole μ (name, n)) :
    Sound whole met old label μ ⟨names, before ++ (name, n) :: after, next⟩ := by
  have hkeys : (before ++ (name, n) :: after).map Prod.fst
      = (before ++ (name, m) :: after).map Prod.fst := by
    rw [List.map_append, List.map_append, List.map_cons, List.map_cons]
  refine ⟨?_, h.named, ?_, ?_, ?_, ?_⟩
  · intro e he
    rcases List.mem_append.mp he with he | he
    · exact h.stands e (List.mem_append_left _ he)
    · rcases List.mem_cons.mp he with rfl | he
      · exact hn
      · exact h.stands e (List.mem_append_right _ (List.mem_cons_of_mem _ he))
  · exact fun other hother => h.unknown other (hkeys ▸ hother)
  · exact hkeys ▸ h.nodup
  · exact fun k hk => hkeys ▸ h.fresh k hk
  · intro e he
    rcases List.mem_append.mp he with he | he
    · exact h.numbered e (List.mem_append_left _ he)
    · rcases List.mem_cons.mp he with rfl | he
      · exact h.numbered (name, m) (List.mem_append_right _ List.mem_cons_self)
      · exact h.numbered e (List.mem_append_right _ (List.mem_cons_of_mem _ he))

/-- The store before anything is stored. -/
theorem sound_start {t : RuleTree} (h : Represents whole μ t) (met : List Node) {next : Nat}
    (hfresh : ∀ k, next ≤ k → label ++ toString k ∉ t.bindings.keys) :
    Sound whole met t.bindings.keys label μ ⟨.empty, [], next⟩ where
  stands := fun _ he => nomatch he
  named := fun _ _ hname => nomatch hname
  unknown := fun name hname => h.unknown name (by simpa using hname)
  nodup := by simpa using h.nodup
  fresh := fun k hk => by simpa using hfresh k hk
  numbered := fun _ he => nomatch he

/-- The stored nodes have names of their own. -/
theorem Sound.entries_insertAll (h : σ.Sound whole met old label μ) {bindings : Table Node}
    (hkeys : bindings.keys = old) :
    (bindings.insertAll σ.bindings).entries = bindings.entries ++ σ.bindings := by
  have hnodup := List.nodup_append.mp h.nodup
  refine Table.entries_insertAll hnodup.2.1 fun key hkey hold => ?_
  exact hnodup.2.2 key (hkeys ▸ hold) key hkey rfl

theorem Sound.keys_insertAll (h : σ.Sound whole met old label μ) {bindings : Table Node}
    (hkeys : bindings.keys = old) :
    (bindings.insertAll σ.bindings).keys = old ++ σ.bindings.map Prod.fst := by
  rw [Table.keys, h.entries_insertAll hkeys, List.map_append, ← hkeys, Table.keys]

/-- The tree with the stored nodes added to bindings that stand for parts of the whole. -/
theorem Sound.represents (h : σ.Sound whole met old label μ) {t : RuleTree}
    (hroot : t.root.meaning μ = whole.unlabelled) (hkeys : t.bindings.keys = old)
    (hbindings : ∀ e ∈ t.bindings.entries, Stands whole μ e) :
    Represents whole μ { t with bindings := t.bindings.insertAll σ.bindings } := by
  have hall := h.keys_insertAll hkeys
  refine ⟨hroot, ?_, ?_, ?_⟩
  · intro e he
    rcases List.mem_append.mp (h.entries_insertAll hkeys ▸ he) with he | he
    · exact hbindings e he
    · exact h.stands e he
  · exact fun name hname => h.unknown name (hall ▸ hname)
  · exact hall ▸ h.nodup

end Store

/-! ### Trees replaced by trees that stand for the same -/

/-- The trees stand for parts of the whole. -/
def Parts (whole : Node) (μ : Meanings) (nodes : List Node) : Prop :=
  ∀ n ∈ nodes, n.meaning μ ∈ whole.unlabelled.preorder

theorem Parts.head {whole : Node} {μ : Meanings} {n : Node} {rest : List Node}
    (h : Parts whole μ (n :: rest)) : Parts whole μ [n] := by
  intro m hm
  cases List.mem_singleton.mp hm
  exact h n List.mem_cons_self

theorem Parts.tail {whole : Node} {μ : Meanings} {n : Node} {rest : List Node}
    (h : Parts whole μ (n :: rest)) : Parts whole μ rest :=
  fun m hm => h m (List.mem_cons_of_mem _ hm)

theorem Parts.of_extends {whole : Node} {μ μ' : Meanings} {nodes : List Node}
    (h : Parts whole μ nodes) (hw : whole.IsPlain) (hμ : Extends μ μ') : Parts whole μ' nodes := by
  intro n hn
  have hplain := (Node.isPlain_unlabelled.mpr hw).of_mem_preorder (h n hn)
  exact hμ.meaning_eq hplain ▸ h n hn

theorem Parts.map_meaning_eq {whole : Node} {μ μ' : Meanings} {nodes : List Node}
    (h : Parts whole μ nodes) (hw : whole.IsPlain) (hμ : Extends μ μ') :
    nodes.map (Node.meaning μ') = nodes.map (Node.meaning μ) :=
  hμ.map_meaning_eq fun n hn => (Node.isPlain_unlabelled.mpr hw).of_mem_preorder (h n hn)

theorem Parts.children {whole : Node} {μ : Meanings} {n : Node}
    (h : n.meaning μ ∈ whole.unlabelled.preorder) : Parts whole μ n.children := by
  intro c hc
  have hbelow := Node.meaning_mem_preorder μ (Node.mem_preorder_of_mem_children hc)
  exact Node.mem_preorder_trans hbelow h

/-- With more meanings, the new trees stand for what the old ones stood for. -/
def Kept (whole : Node) (met : List Node) (old : List String) (label : String) (μ : Meanings)
    (nodes nodes' : List Node) (σ : Store) : Prop :=
  ∃ μ', Extends μ μ' ∧ σ.Sound whole met old label μ' ∧
    nodes'.map (Node.meaning μ') = nodes.map (Node.meaning μ)

namespace Kept

variable {whole : Node} {met : List Node} {old : List String} {label : String}
variable {μ : Meanings} {σ : Store}

theorem refl (h : σ.Sound whole met old label μ) (nodes : List Node) :
    Kept whole met old label μ nodes nodes σ := ⟨μ, .refl μ, h, rfl⟩

/-- A tree and the trees after it. -/
theorem cons {σ₁ : Store} {n n' : Node} {rest rest' : List Node} (hw : whole.IsPlain)
    (hparts : Parts whole μ (n :: rest)) (hn : Kept whole met old label μ [n] [n'] σ₁)
    (hrest : ∀ μ₁, σ₁.Sound whole met old label μ₁ → Parts whole μ₁ rest →
      Kept whole met old label μ₁ rest rest' σ) :
    Kept whole met old label μ (n :: rest) (n' :: rest') σ := by
  obtain ⟨μ₁, hμ₁, hσ₁, heq₁⟩ := hn
  rw [List.map_singleton, List.map_singleton, List.singleton_inj] at heq₁
  obtain ⟨μ₂, hμ₂, hσ₂, heq₂⟩ := hrest μ₁ hσ₁ (hparts.tail.of_extends hw hμ₁)
  have hplain : (n'.meaning μ₁).IsPlain :=
    heq₁ ▸ (Node.isPlain_unlabelled.mpr hw).of_mem_preorder (hparts n List.mem_cons_self)
  refine ⟨μ₂, hμ₁.trans hμ₂, hσ₂, ?_⟩
  rw [List.map_cons, List.map_cons, hμ₂.meaning_eq hplain, heq₁, heq₂,
    hparts.tail.map_meaning_eq hw hμ₁]

/-- A tree whose children were replaced. -/
theorem withChildren {n : Node} {nodes : List Node} (hn : ¬ n.IsReference)
    (h : Kept whole met old label μ n.children nodes σ) :
    Kept whole met old label μ [n] [n.withChildren nodes] σ := by
  obtain ⟨μ', hμ', hσ, heq⟩ := h
  refine ⟨μ', hμ', hσ, ?_⟩
  rw [List.map_singleton, List.map_singleton, Node.meaning_withChildren μ' hn, heq,
    ← Node.meaning_eq μ hn]

/-- A tree that was replaced twice. -/
theorem trans {σ₁ : Store} {n n₁ n₂ : Node} (hparts : Parts whole μ [n])
    (h : Kept whole met old label μ [n] [n₁] σ₁)
    (h' : ∀ μ₁, σ₁.Sound whole met old label μ₁ → Parts whole μ₁ [n₁] →
      Kept whole met old label μ₁ [n₁] [n₂] σ) :
    Kept whole met old label μ [n] [n₂] σ := by
  obtain ⟨μ₁, hμ₁, hσ₁, heq₁⟩ := h
  have hparts₁ : Parts whole μ₁ [n₁] := by
    intro m hm
    cases List.mem_singleton.mp hm
    rw [List.map_singleton, List.map_singleton, List.singleton_inj] at heq₁
    exact heq₁ ▸ hparts n List.mem_cons_self
  obtain ⟨μ₂, hμ₂, hσ₂, heq₂⟩ := h' μ₁ hσ₁ hparts₁
  exact ⟨μ₂, hμ₁.trans hμ₂, hσ₂, heq₂.trans heq₁⟩

/-- A node becomes a reference to the name that its signature has. -/
theorem found (h : σ.Sound whole met old label μ) (hmet : SignaturesDecide met) {n : Node}
    (hn : n ∈ met) {name : String} (hname : σ.names.get? n.signature = some name) :
    Kept whole met old label μ [n] [.reference name] σ := by
  refine ⟨μ, .refl μ, h, ?_⟩
  rw [List.map_singleton, List.map_singleton, Node.meaning_reference, h.meaning_eq hmet hn hname]

/-- A node becomes a reference to the next name and is stored. -/
theorem store (h : σ.Sound whole met old label μ) (hw : whole.IsPlain) {n : Node}
    (hn : n ∈ met) (hparts : Parts whole μ [n]) (hshare : isShareable n) :
    Kept whole met old label μ [n] [.reference (label ++ toString σ.next)]
      ⟨σ.names.insert n.signature (label ++ toString σ.next),
        σ.bindings ++ [(label ++ toString σ.next, n)], σ.next + 1⟩ := by
  obtain ⟨μ', hμ', hname, hσ⟩ := h.store hw hn (hparts n List.mem_cons_self) hshare
  refine ⟨μ', hμ', hσ, ?_⟩
  rw [List.map_singleton, List.map_singleton, Node.meaning_reference, hname]

end Kept

end LogRules.Sharing

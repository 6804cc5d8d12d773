import LogRules.Proofs.Pattern.Regular

/-! # Right anchors of fields

A field takes what is in front of the item behind it, so that item has to be found in the message: it is a
constant or the payload marker, unless the field is the last thing of the pattern (`Pattern.Anchored`).
Separating captures and anchoring groups see to this together, but for fields that stand directly in front of
a group, which neither of them looks at: an anchored pattern is one without such fields
(`anchored_anchorGroups_iff`), and no edit of patterns makes such a field or takes one away. -/

namespace LogRules

/-- A field may end at the item: it is a constant or a payload marker. -/
def PatternItem.IsAnchor : PatternItem → Prop
  | value (.constant _) => True
  | value (.payload _) => True
  | _ => False

theorem PatternItem.isAnchor_iff {item : PatternItem} :
    item.IsAnchor ↔ ¬ item.isField = true ∧ ¬ item.isGroup = true := by
  cases item with
  | alternatives branches => simp [IsAnchor, isGroup]
  | value v => cases v <;> simp [IsAnchor, isField, isGroup]

namespace Pattern

/-- Every field is directly followed by a constant or a payload marker, or it is the last item. -/
def FieldsAnchored (p : Pattern) : Prop := p.IsChain fun a b => a.isField = true → b.IsAnchor

/-- Every field of the pattern and of a branch is directly followed by a constant or a payload marker, or
it is the last thing of the pattern. The last field of a branch is that in the last group only. -/
structure Anchored (p : Pattern) : Prop where
  items : FieldsAnchored p
  branches : ∀ branches, .alternatives branches ∈ p → ∀ branch ∈ branches, FieldsAnchored branch
  /-- Something follows a group only if none of its branches ends in a field. -/
  groups : p.IsChain fun a _ => ∀ branches, a = .alternatives branches →
    ∀ branch ∈ branches, ¬ endsInField branch = true

theorem Anchored.left_of_append {p q : Pattern} (h : Anchored (p ++ q)) : Anchored p where
  items := List.IsChain.left_of_append h.items
  branches := fun branches hmem => h.branches branches (List.mem_append_left q hmem)
  groups := List.IsChain.left_of_append h.groups

/-- No field stands directly in front of a group. -/
def GroupsApart (p : Pattern) : Prop := p.IsChain fun a b => ¬ (a.isField = true ∧ b.isGroup = true)

instance (p : Pattern) : Decidable p.GroupsApart :=
  inferInstanceAs (Decidable (p.IsChain fun a b => ¬ (a.isField = true ∧ b.isGroup = true)))

/-- A field is anchored unless another field or a group is behind it. -/
theorem fieldsAnchored_iff {p : Pattern} : FieldsAnchored p ↔ FieldsApart p ∧ GroupsApart p := by
  simp only [FieldsAnchored, FieldsApart, GroupsApart,
    List.isChain_iff_forall_rel_of_append_cons_cons, PatternItem.isAnchor_iff]
  constructor
  · intro h
    refine ⟨fun a b l₁ l₂ heq hboth => ?_, fun a b l₁ l₂ heq hboth => ?_⟩
    · exact (h heq hboth.1).1 hboth.2
    · exact (h heq hboth.1).2 hboth.2
  · rintro ⟨hfields, hgroups⟩ a b l₁ l₂ heq ha
    exact ⟨fun hb => hfields heq ⟨ha, hb⟩, fun hb => hgroups heq ⟨ha, hb⟩⟩

/-- A flat branch has no group that a field could stand in front of. -/
theorem IsFlat.groupsApart {branch : Pattern} (h : branch.IsFlat) : GroupsApart branch := by
  refine List.isChain_iff_forall_rel_of_append_cons_cons.mpr fun a b l₁ l₂ heq hboth => ?_
  have hb : b.IsFlat := h b (heq ▸ by simp)
  cases b with
  | value v => cases hboth.2
  | alternatives branches => exact hb

/-! ### Fields in front of groups stay where they are -/

/-- An item that is no field has no say. -/
theorem groupsApart_cons_of_not_isField {a : PatternItem} {p : Pattern} (ha : ¬ a.isField = true) :
    GroupsApart (a :: p) ↔ GroupsApart p := by
  refine List.isChain_cons.trans ⟨fun h => h.2, fun h => ⟨fun b _ hboth => ha hboth.1, h⟩⟩

/-- Only the kinds of the first items matter. -/
theorem groupsApart_cons_congr {a a' : PatternItem} {p p' : Pattern} (ha : a'.isField = a.isField)
    (hhead : p'.head?.map PatternItem.isGroup = p.head?.map PatternItem.isGroup)
    (h : GroupsApart p' ↔ GroupsApart p) : GroupsApart (a' :: p') ↔ GroupsApart (a :: p) := by
  have hstep : ∀ {a a' : PatternItem} {p p' : Pattern}, a'.isField = a.isField →
      p'.head?.map PatternItem.isGroup = p.head?.map PatternItem.isGroup →
      (∀ b ∈ p.head?, ¬ (a.isField = true ∧ b.isGroup = true)) →
        ∀ b ∈ p'.head?, ¬ (a'.isField = true ∧ b.isGroup = true) := by
    intro a a' p p' ha hhead hall b hb hboth
    rw [Option.mem_def.mp hb, Option.map_some] at hhead
    obtain ⟨c, hc, hkind⟩ := Option.map_eq_some_iff.mp hhead.symm
    exact hall c hc ⟨ha ▸ hboth.1, hkind ▸ hboth.2⟩
  refine List.isChain_cons.trans (Iff.trans ?_ List.isChain_cons.symm)
  exact and_congr ⟨hstep ha.symm hhead.symm, hstep ha hhead⟩ h

theorem groupsApart_stripLeadingSpace (p : Pattern) :
    GroupsApart (stripLeadingSpace p) ↔ GroupsApart p := by
  rcases stripLeadingSpace_cases p with heq | ⟨text, rest, rfl, hcases⟩
  · rw [heq]
  · have hconstant : ∀ text : String, GroupsApart (.value (.constant text) :: rest) ↔ GroupsApart rest :=
      fun _ => groupsApart_cons_of_not_isField Bool.false_ne_true
    rcases hcases with heq | ⟨text', -, heq⟩
    · rw [heq]
      exact (hconstant text).symm
    · rw [heq]
      exact (hconstant text').trans (hconstant text).symm

theorem head?_separateItems (last? : Option String) (p : Pattern) :
    (separateItems last? p).head?.map PatternItem.isGroup = p.head?.map PatternItem.isGroup := by
  cases p with
  | nil => rfl
  | cons item rest =>
      rw [separateItems, gap]
      split
      · next h =>
          -- a space is put in front of a field only
          cases item with
          | value v => rfl
          | alternatives branches => simp [PatternItem.isField] at h
      · cases item <;> rfl

theorem groupsApart_separateItems (last? : Option String) (p : Pattern) :
    GroupsApart (separateItems last? p) ↔ GroupsApart p := by
  induction p generalizing last? with
  | nil => exact Iff.rfl
  | cons item rest ih =>
      have hbehind : GroupsApart (separateItem item :: separateItems (captureText? item) rest) ↔
          GroupsApart (item :: rest) :=
        groupsApart_cons_congr (isField_separateItem item) (head?_separateItems _ rest) (ih _)
      rw [separateItems, ← hbehind]
      rcases gap_cases last? item with hgap | ⟨hgap, -⟩
      · rw [hgap]
        exact groupsApart_cons_of_not_isField Bool.false_ne_true
      · rw [hgap]
        exact Iff.rfl

theorem head?_anchorGroups (p : Pattern) :
    (anchorGroups p).head?.map PatternItem.isGroup = p.head?.map PatternItem.isGroup := by
  fun_cases anchorGroups p <;> rfl

theorem groupsApart_anchorGroups (p : Pattern) : GroupsApart (anchorGroups p) ↔ GroupsApart p := by
  have hgroup : ∀ (branches : List Pattern) (rest : Pattern),
      GroupsApart (.alternatives branches :: rest) ↔ GroupsApart rest :=
    fun _ _ => groupsApart_cons_of_not_isField Bool.false_ne_true
  fun_induction anchorGroups p with
  | case1 branches next rest hends ih => exact (hgroup _ _).trans (ih.trans (hgroup _ _).symm)
  | case2 branches rest hends text ih =>
      have hconstant : GroupsApart (.value (.constant text) :: rest) ↔ GroupsApart rest :=
        groupsApart_cons_of_not_isField Bool.false_ne_true
      exact (hgroup _ _).trans (ih.trans (hconstant.symm.trans (hgroup _ _).symm))
  | case3 branches next rest hends hnext anchored ih =>
      exact (hgroup _ _).trans (ih.trans (hgroup _ _).symm)
  | case4 item rest hitem ih => exact groupsApart_cons_congr rfl (head?_anchorGroups rest) ih
  | case5 => exact Iff.rfl

/-! ### Groups that something follows -/

theorem mergeConstants_ne_nil {p : Pattern} (h : p ≠ []) : mergeConstants p ≠ [] := by
  cases p with
  | nil => exact absurd rfl h
  | cons item rest =>
      show consMerged item (mergeConstants rest) ≠ []
      rcases consMerged_cases item (mergeConstants rest) with heq | ⟨a, b, behind, -, -, heq⟩
      · rw [heq]
        exact List.cons_ne_nil _ _
      · rw [heq]
        exact List.cons_ne_nil _ _

theorem endsInField_cons {item : PatternItem} {p : Pattern} (h : p ≠ []) :
    endsInField (item :: p) = endsInField p := by
  rw [endsInField, endsInField, List.getLast?_cons_of_ne_nil h]

/-- Merging constants keeps the kind of the last item. -/
theorem endsInField_mergeConstants (p : Pattern) :
    endsInField (mergeConstants p) = endsInField p := by
  induction p with
  | nil => rfl
  | cons item rest ih =>
      show endsInField (consMerged item (mergeConstants rest)) = _
      by_cases hrest : rest = []
      · subst hrest
        cases item with
        | alternatives branches => rfl
        | value v => cases v <;> rfl
      · rw [endsInField_cons hrest, ← ih]
        rcases consMerged_cases item (mergeConstants rest) with heq | ⟨a, b, behind, -, hb, heq⟩
        · rw [heq, endsInField_cons (mergeConstants_ne_nil hrest)]
        · rw [heq, hb]
          cases behind with
          | nil => rfl
          | cons next behind => rfl

/-- A branch with a constant at its end does not end in a field. -/
theorem endsInField_appendMerged (branch : Pattern) (text : String) :
    endsInField (appendMerged branch (.constant text)) = false := by
  rw [appendMerged, endsInField_mergeConstants, endsInField, List.getLast?_append_of_ne_nil _ (by simp)]
  rfl

/-- A group that something follows has no branch that ends in a field once groups are anchored. -/
theorem closed_anchorGroups (p : Pattern) : (anchorGroups p).IsChain fun a _ =>
    ∀ branches, a = .alternatives branches → ∀ branch ∈ branches, ¬ endsInField branch = true := by
  have hgroup : ∀ {branches : List Pattern}, (∀ branch ∈ branches, ¬ endsInField branch = true) →
      ∀ branches', PatternItem.alternatives branches = .alternatives branches' →
        ∀ branch ∈ branches', ¬ endsInField branch = true := by
    intro branches hall branches' heq
    obtain rfl := PatternItem.alternatives.inj heq
    exact hall
  fun_induction anchorGroups p with
  | case1 branches next rest hends ih =>
      refine List.isChain_cons.mpr ⟨fun _ _ => hgroup ?_, ih⟩
      simpa using hends
  | case2 branches rest hends text ih =>
      refine List.isChain_cons.mpr ⟨fun _ _ => hgroup fun branch' hbranch' => ?_, ih⟩
      obtain ⟨branch, -, rfl⟩ := List.mem_map.mp hbranch'
      rw [endsInField_appendMerged]
      exact Bool.false_ne_true
  | case3 branches next rest hends hnext anchored ih =>
      refine List.isChain_cons.mpr ⟨fun _ _ => hgroup fun branch' hbranch' => ?_, ih⟩
      obtain ⟨branch, -, rfl⟩ := List.mem_map.mp hbranch'
      split
      · rw [endsInField_appendMerged]
        exact Bool.false_ne_true
      · next h => exact h
  | case4 item rest hitem ih =>
      refine List.isChain_cons.mpr ⟨fun next hnext branches heq => ?_, ih⟩
      cases rest with
      | nil => cases hnext
      | cons next' rest' => exact absurd heq (hitem branches next' rest' · rfl)
  | case5 => exact .nil

/-! ### Anchored patterns -/

theorem Regular.isFlat_of_mem {p : Pattern} (h : Regular p) {branches : List Pattern}
    (hmem : .alternatives branches ∈ p) : ∀ branch ∈ branches, branch.IsFlat := by
  induction h with
  | nil => cases hmem
  | payload alias? => cases List.mem_singleton.mp hmem
  | cons hitem hrest ih =>
      rcases List.mem_cons.mp hmem with rfl | hmem
      · exact hitem
      · exact ih hmem

/-- **Anchoring groups anchors every field** of a regular pattern whose captures are apart, but for fields
directly in front of a group. -/
theorem anchored_anchorGroups_iff {p : Pattern} (hregular : Regular p) (hapart : CapturesApart p) :
    Anchored (anchorGroups p) ↔ GroupsApart p := by
  have hanchors := anchors_anchorGroups hregular
  have hregular' := hanchors.regular hregular
  have hapart' := hanchors.capturesApart hapart
  constructor
  · exact fun h => (groupsApart_anchorGroups p).mp (fieldsAnchored_iff.mp h.items).2
  · intro h
    refine ⟨fieldsAnchored_iff.mpr ⟨hapart'.items, (groupsApart_anchorGroups p).mpr h⟩, ?_,
      closed_anchorGroups p⟩
    intro branches hmem branch hbranch
    have hflat := hregular'.isFlat_of_mem hmem branch hbranch
    exact fieldsAnchored_iff.mpr ⟨hapart'.branches branches hmem branch hbranch, hflat.groupsApart⟩

end Pattern

end LogRules

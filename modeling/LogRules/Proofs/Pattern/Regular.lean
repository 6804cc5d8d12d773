import LogRules.Proofs.Pattern.RoundTrip
import LogRules.Transform.Payload
import LogRules.Transform.Spacing

/-! # Regular patterns

A regular pattern has groups with branches of constants and fields only, no empty constant, and a payload
marker at its end if at all. A well formed pattern that passes the checks of payload markers is regular
(`regular_of_wellFormed`), and the edits of captures and spaces keep it regular, with the same marker and
as many captures of every field. Separating captures leaves no two fields side by side
(`capturesApart_separateCaptures`), and anchoring groups keeps them apart (`Anchors.capturesApart`). -/

namespace LogRules

/-- The value may stand in front of the payload marker: it is a field or a constant that is not empty. -/
def Value.IsInner : Value → Prop
  | .constant text => text ≠ ""
  | .field _ => True
  | .payload _ => False

namespace PatternItem

/-- The item may stand in a branch: it is no group. -/
def IsFlat : PatternItem → Prop
  | value v => v.IsInner
  | alternatives _ => False

/-- The item may stand in front of the payload marker: a group has flat branches. -/
def IsInner : PatternItem → Prop
  | value v => v.IsInner
  | alternatives branches => ∀ branch ∈ branches, ∀ item ∈ branch, item.IsFlat

end PatternItem

namespace Pattern

/-- The branch is made of fields and constants. -/
def IsFlat (branch : Pattern) : Prop := ∀ item ∈ branch, item.IsFlat

/-- Groups have flat branches, and a payload marker stands at the end. -/
inductive Regular : Pattern → Prop
  | nil : Regular []
  | payload (alias? : Option String) : Regular [.value (.payload alias?)]
  | cons {item : PatternItem} {rest : Pattern} (hitem : item.IsInner) (hrest : Regular rest) :
      Regular (item :: rest)

/-- No two fields are side by side. -/
def FieldsApart (p : Pattern) : Prop := p.IsChain fun a b => ¬ (a.isField = true ∧ b.isField = true)

/-- No two fields are side by side, in branches neither. -/
structure CapturesApart (p : Pattern) : Prop where
  items : FieldsApart p
  branches : ∀ branches, .alternatives branches ∈ p → ∀ branch ∈ branches, FieldsApart branch

/-- An alias of the payload marker is captured once on every way through the pattern that has most
captures of it. -/
def AliasOnce (p : Pattern) : Prop :=
  ∀ name, p.payload? = some (some name) → name ≠ startAlias → occurrences name p = 1

/-! ### Regular patterns from well formed ones -/

theorem countPayloads_eq_zero_iff {p : Pattern} :
    countPayloads p = 0 ↔ ∀ item ∈ p, itemPayloads item = 0 := by
  induction p with
  | nil => simp [countPayloads]
  | cons item rest ih => rw [countPayloads, Nat.add_eq_zero_iff, ih, List.forall_mem_cons]

theorem branchPayloads_eq_zero_iff {branches : List Pattern} :
    branchPayloads branches = 0 ↔ ∀ branch ∈ branches, countPayloads branch = 0 := by
  induction branches with
  | nil => simp [branchPayloads]
  | cons branch rest ih => rw [branchPayloads, Nat.add_eq_zero_iff, ih, List.forall_mem_cons]

theorem countPayloads_append (p q : Pattern) :
    countPayloads (p ++ q) = countPayloads p + countPayloads q := by
  induction p with
  | nil => rw [List.nil_append, countPayloads, Nat.zero_add]
  | cons item rest ih => rw [List.cons_append, countPayloads, countPayloads, ih, Nat.add_assoc]

theorem isInner_value {v : Value} (h : v.WellFormed) (hpayload : ¬ v.isPayload = true) : v.IsInner := by
  cases v with
  | constant text => exact h
  | field name => trivial
  | payload alias? => exact absurd rfl hpayload

theorem isInner_of_wellFormedItem {item : PatternItem} (h : WellFormedItem item)
    (hpayload : itemPayloads item = 0) : item.IsInner := by
  have hvalue : ∀ {v : Value}, itemPayloads (.value v) = 0 → ¬ v.isPayload = true := by
    intro v hv hp
    rw [itemPayloads, if_pos hp] at hv
    cases hv
  cases item with
  | value v => exact isInner_value h (hvalue hpayload)
  | alternatives branches =>
      intro branch hbranch item hitem
      have hnone := branchPayloads_eq_zero_iff.mp hpayload branch hbranch
      have hfits := (h.2 branch hbranch).2.2 item hitem
      have hzero := countPayloads_eq_zero_iff.mp hnone item hitem
      cases item with
      | value v => exact isInner_value hfits.1 (hvalue hzero)
      | alternatives inner => exact hfits

theorem regular_append {front p : Pattern} (hfront : ∀ item ∈ front, item.IsInner) (hp : Regular p) :
    Regular (front ++ p) := by
  induction front with
  | nil => exact hp
  | cons item rest ih =>
      exact .cons (hfront item List.mem_cons_self)
        (ih fun i hi => hfront i (List.mem_cons_of_mem _ hi))

/-- A well formed pattern is regular when it has one payload marker at most, at its end. -/
theorem regular_of_wellFormed {p : Pattern} (h : p.WellFormed)
    (hpayload : p.containsPayload = true → countPayloads p ≤ 1 ∧
      ∃ alias?, p.getLast? = some (.value (.payload alias?))) : Regular p := by
  have hinner : ∀ q : Pattern, q ⊆ p → countPayloads q = 0 → ∀ item ∈ q, item.IsInner :=
    fun q hq hnone item hitem => isInner_of_wellFormedItem (h.2 item (hq hitem))
      (countPayloads_eq_zero_iff.mp hnone item hitem)
  by_cases hcontains : p.containsPayload = true
  · obtain ⟨hcount, alias?, hlast⟩ := hpayload hcontains
    obtain ⟨front, rfl⟩ := List.getLast?_eq_some_iff.mp hlast
    have hmarker : countPayloads [.value (.payload alias?)] = 1 := rfl
    rw [countPayloads_append, hmarker] at hcount
    refine regular_append (hinner front (List.subset_append_left _ _) (by omega)) (.payload alias?)
  · have hnone : countPayloads p = 0 := by simpa [containsPayload] using hcontains
    have hregular := regular_append (hinner p (List.Subset.refl p) hnone) .nil
    rwa [List.append_nil] at hregular

/-! ### Leading spaces -/

/-- Stripping spaces leaves the pattern, drops a constant or puts another constant in its place. -/
theorem stripLeadingSpace_cases (p : Pattern) :
    stripLeadingSpace p = p ∨ ∃ text rest, p = .value (.constant text) :: rest ∧
      (stripLeadingSpace p = rest ∨
        ∃ text', text' ≠ "" ∧ stripLeadingSpace p = .value (.constant text') :: rest) := by
  unfold stripLeadingSpace
  split
  · next text rest =>
    split
    · exact .inl rfl
    · refine .inr ⟨text, rest, rfl, ?_⟩
      split
      · exact .inl rfl
      · next cs hcs =>
        refine .inr ⟨String.ofList (text.toList.dropWhile (· == ' ')), ?_, rfl⟩
        intro hempty
        have hlist := congrArg String.toList hempty
        rw [String.toList_ofList] at hlist
        exact hcs (hlist.trans rfl)
  · exact .inl rfl

theorem regular_stripLeadingSpace {p : Pattern} (h : Regular p) : Regular (stripLeadingSpace p) := by
  rcases stripLeadingSpace_cases p with heq | ⟨text, rest, rfl, hcases⟩
  · rwa [heq]
  · cases h with
    | cons hitem hrest =>
        rcases hcases with heq | ⟨text', hne, heq⟩
        · rwa [heq]
        · rw [heq]
          exact .cons hne hrest

theorem aliasOnce_stripLeadingSpace {p : Pattern} (h : AliasOnce p) : AliasOnce (stripLeadingSpace p) := by
  have hconstant : ∀ (text : String) (rest : Pattern),
      payload? (.value (.constant text) :: rest) = payload? rest ∧
        ∀ name, occurrences name (.value (.constant text) :: rest) = occurrences name rest := by
    intro text rest
    exact ⟨rfl, fun name => by simp [occurrences, itemOccurrences]⟩
  rcases stripLeadingSpace_cases p with heq | ⟨text, rest, rfl, hcases⟩
  · rwa [heq]
  · have hrest : AliasOnce rest := by
      intro name hname hstart
      rw [← (hconstant text rest).2 name]
      exact h name ((hconstant text rest).1.trans hname) hstart
    rcases hcases with heq | ⟨text', -, heq⟩
    · rwa [heq]
    · rw [heq]
      intro name hname hstart
      rw [(hconstant text' rest).2 name]
      exact hrest name ((hconstant text' rest).1.symm.trans hname) hstart

/-! ### Captures side by side -/

theorem separateBranches_eq_map (branches : List Pattern) :
    separateBranches branches = branches.map (separateItems none) := by
  induction branches with
  | nil => rfl
  | cons branch rest ih => rw [separateBranches, ih, List.map_cons]

theorem gap_cases (last? : Option String) (item : PatternItem) :
    gap last? item = [.value (.constant " ")] ∨
      gap last? item = [] ∧ (last?.isSome → ¬ item.isField = true) := by
  unfold gap
  split
  · exact .inl rfl
  · next h =>
    refine .inr ⟨rfl, fun hsome hfield => h ?_⟩
    rw [hsome, hfield]
    rfl

/-- What stands in a separated pattern is a space or a separated item of the pattern. -/
theorem mem_separateItems {last? : Option String} {p : Pattern} {item : PatternItem}
    (h : item ∈ separateItems last? p) :
    item = .value (.constant " ") ∨ ∃ other ∈ p, item = separateItem other := by
  induction p generalizing last? with
  | nil => cases h
  | cons first rest ih =>
      rw [separateItems, List.mem_append, List.mem_cons] at h
      rcases h with h | rfl | h
      · rcases gap_cases last? first with hgap | ⟨hgap, -⟩
        · rw [hgap] at h
          exact .inl (List.mem_singleton.mp h)
        · rw [hgap] at h
          cases h
      · exact .inr ⟨first, List.mem_cons_self, rfl⟩
      · rcases ih h with rfl | ⟨other, hother, rfl⟩
        · exact .inl rfl
        · exact .inr ⟨other, List.mem_cons_of_mem _ hother, rfl⟩

theorem isFlat_separateItems {branch : Pattern} (h : branch.IsFlat) (last? : Option String) :
    IsFlat (separateItems last? branch) := by
  intro item hitem
  rcases mem_separateItems hitem with rfl | ⟨other, hother, rfl⟩
  · show " " ≠ ""
    decide
  · have hflat := h other hother
    cases other with
    | value v => exact hflat
    | alternatives branches => exact absurd hflat id

theorem isInner_separateItem {item : PatternItem} (h : item.IsInner) : (separateItem item).IsInner := by
  cases item with
  | value v => exact h
  | alternatives branches =>
      rw [separateItem, separateBranches_eq_map]
      intro branch hbranch
      obtain ⟨other, hother, rfl⟩ := List.mem_map.mp hbranch
      exact isFlat_separateItems (h other hother) none

theorem regular_separateItems {p : Pattern} (h : Regular p) (last? : Option String) :
    Regular (separateItems last? p) := by
  induction h generalizing last? with
  | nil => exact .nil
  | payload alias? =>
      have hgap : gap last? (.value (.payload alias?)) = [] := by
        unfold gap
        rw [if_neg (by simp [PatternItem.isField])]
      rw [separateItems, hgap]
      exact .payload alias?
  | @cons item rest hitem hrest ih =>
      have hbehind := Regular.cons (isInner_separateItem hitem) (ih (captureText? item))
      rw [separateItems]
      rcases gap_cases last? item with hgap | ⟨hgap, -⟩
      · rw [hgap]
        exact .cons (show " " ≠ "" by decide) hbehind
      · rw [hgap]
        exact hbehind

theorem isField_separateItem (item : PatternItem) : (separateItem item).isField = item.isField := by
  cases item <;> rfl

theorem isSome_captureText?_of_isField {item : PatternItem} (h : item.isField = true) :
    (captureText? item).isSome := by
  cases item with
  | alternatives branches => cases h
  | value v =>
      cases v with
      | field name => rfl
      | constant text => cases h
      | payload alias? => cases h

/-- A field does not follow a field, nor what stands in front of the pattern if that is a capture. -/
theorem fieldsApart_separateItems (p : Pattern) (last? : Option String) :
    FieldsApart (separateItems last? p) ∧
      (last?.isSome → ∀ item ∈ (separateItems last? p).head?, ¬ item.isField = true) := by
  induction p generalizing last? with
  | nil => exact ⟨.nil, fun _ _ h => nomatch h⟩
  | cons item rest ih =>
      obtain ⟨hrest, hhead⟩ := ih (captureText? item)
      have hbehind : FieldsApart (separateItem item :: separateItems (captureText? item) rest) := by
        refine List.isChain_cons.mpr ⟨fun next hnext hboth => ?_, hrest⟩
        rw [isField_separateItem] at hboth
        exact hhead (isSome_captureText?_of_isField hboth.1) next hnext hboth.2
      rw [separateItems]
      rcases gap_cases last? item with hgap | ⟨hgap, hfield⟩
      · rw [hgap]
        refine ⟨List.isChain_cons.mpr ⟨fun _ _ hboth => (nomatch hboth.1), hbehind⟩, ?_⟩
        intro _ next hnext
        obtain rfl := Option.some.inj hnext
        exact Bool.false_ne_true
      · rw [hgap]
        refine ⟨hbehind, fun hsome next hnext => ?_⟩
        obtain rfl := Option.some.inj hnext
        rw [isField_separateItem]
        exact hfield hsome

theorem capturesApart_separateCaptures (p : Pattern) : CapturesApart (separateCaptures p) where
  items := (fieldsApart_separateItems p none).1
  branches := by
    intro branches hmem branch hbranch
    rcases mem_separateItems hmem with heq | ⟨other, -, heq⟩
    · cases heq
    · cases other with
      | value v => cases heq
      | alternatives inner =>
          rw [separateItem, separateBranches_eq_map] at heq
          obtain rfl := PatternItem.alternatives.inj heq
          obtain ⟨b, -, rfl⟩ := List.mem_map.mp hbranch
          exact (fieldsApart_separateItems b none).1

mutual
theorem itemOccurrences_separateItem (name : String) :
    ∀ item : PatternItem, itemOccurrences name (separateItem item) = itemOccurrences name item
  | .value _ => rfl
  | .alternatives branches => branchOccurrences_separateBranches name branches

theorem occurrences_separateItems (name : String) :
    ∀ (last? : Option String) (p : Pattern),
      occurrences name (separateItems last? p) = occurrences name p
  | _, [] => rfl
  | last?, item :: rest => by
      have hitem := itemOccurrences_separateItem name item
      have hrest := occurrences_separateItems name (captureText? item) rest
      rw [separateItems, occurrences, ← hitem, ← hrest]
      rcases gap_cases last? item with hgap | ⟨hgap, -⟩
      · rw [hgap, List.cons_append, occurrences, List.nil_append, occurrences]
        simp [itemOccurrences]
      · rw [hgap, List.nil_append, occurrences]

theorem branchOccurrences_separateBranches (name : String) :
    ∀ branches : List Pattern,
      branchOccurrences name (separateBranches branches) = branchOccurrences name branches
  | [] => rfl
  | branch :: rest => by
      rw [separateBranches, branchOccurrences, branchOccurrences, occurrences_separateItems name none branch,
        branchOccurrences_separateBranches name rest]
end

theorem payload?_separateItems (last? : Option String) (p : Pattern) :
    payload? (separateItems last? p) = payload? p := by
  induction p generalizing last? with
  | nil => rfl
  | cons item rest ih =>
      have hbehind : payload? (separateItem item :: separateItems (captureText? item) rest) =
          payload? (item :: rest) := by
        cases item with
        | alternatives branches => exact ih _
        | value v =>
            cases v with
            | payload alias? => rfl
            | constant text => exact ih _
            | field name => exact ih _
      rw [separateItems, ← hbehind]
      rcases gap_cases last? item with hgap | ⟨hgap, -⟩
      · rw [hgap]
        rfl
      · rw [hgap]
        rfl

theorem aliasOnce_separateCaptures {p : Pattern} (h : AliasOnce p) : AliasOnce (separateCaptures p) := by
  intro name hname hstart
  unfold separateCaptures at hname ⊢
  rw [payload?_separateItems] at hname
  rw [occurrences_separateItems]
  exact h name hname hstart

/-! ### Merged constants -/

/-- Merging an item keeps it, or joins two constants. -/
theorem consMerged_cases (item : PatternItem) (rest : Pattern) :
    consMerged item rest = item :: rest ∨ ∃ a b behind, item = .value (.constant a) ∧
      rest = .value (.constant b) :: behind ∧
      consMerged item rest = .value (.constant (a ++ b)) :: behind := by
  unfold consMerged
  split
  · next a b behind => exact .inr ⟨a, b, behind, rfl, rfl, rfl⟩
  · exact .inl rfl

theorem isFlat_mergeConstants {branch : Pattern} (h : branch.IsFlat) : IsFlat (mergeConstants branch) := by
  induction branch with
  | nil => exact h
  | cons item rest ih =>
      have hitem := h item List.mem_cons_self
      have hrest := ih fun i hi => h i (List.mem_cons_of_mem _ hi)
      show IsFlat (consMerged item (mergeConstants rest))
      rcases consMerged_cases item (mergeConstants rest) with heq | ⟨a, b, behind, rfl, hb, heq⟩
      · rw [heq]
        exact List.forall_mem_cons.mpr ⟨hitem, hrest⟩
      · rw [hb] at hrest
        rw [heq]
        have hne : a ++ b ≠ "" := by
          intro hempty
          exact hitem (String.append_eq_empty_iff.mp hempty).1
        exact List.forall_mem_cons.mpr ⟨hne, (List.forall_mem_cons.mp hrest).2⟩

/-- Merging constants keeps fields apart, and a field in front. -/
theorem fieldsApart_mergeConstants {p : Pattern} (h : FieldsApart p) :
    FieldsApart (mergeConstants p) ∧
      (mergeConstants p).head?.map PatternItem.isField = p.head?.map PatternItem.isField := by
  induction p with
  | nil => exact ⟨.nil, rfl⟩
  | cons item rest ih =>
      obtain ⟨hhead, hrest⟩ := List.isChain_cons.mp h
      obtain ⟨hmerged, hsame⟩ := ih hrest
      show FieldsApart (consMerged item (mergeConstants rest)) ∧
        (consMerged item (mergeConstants rest)).head?.map PatternItem.isField = _
      rcases consMerged_cases item (mergeConstants rest) with heq | ⟨a, b, behind, rfl, hb, heq⟩
      · rw [heq]
        refine ⟨List.isChain_cons.mpr ⟨fun next hnext hboth => ?_, hmerged⟩, rfl⟩
        have hfield := congrArg (Option.map PatternItem.isField) (Option.mem_def.mp hnext)
        rw [hsame, Option.map_some] at hfield
        obtain ⟨other, hother, hsamefield⟩ := Option.map_eq_some_iff.mp hfield
        exact hhead other hother ⟨hboth.1, hsamefield ▸ hboth.2⟩
      · rw [hb] at hmerged
        rw [heq]
        exact ⟨List.isChain_cons.mpr ⟨fun _ _ hboth => (nomatch hboth.1),
          (List.isChain_cons.mp hmerged).2⟩, rfl⟩

theorem occurrences_mergeConstants (name : String) (p : Pattern) :
    occurrences name (mergeConstants p) = occurrences name p := by
  induction p with
  | nil => rfl
  | cons item rest ih =>
      show occurrences name (consMerged item (mergeConstants rest)) = _
      rcases consMerged_cases item (mergeConstants rest) with heq | ⟨a, b, behind, rfl, hb, heq⟩
      · rw [heq, occurrences, occurrences, ih]
      · rw [hb] at ih
        rw [heq, occurrences, occurrences, ← ih, occurrences]
        simp [itemOccurrences]

theorem occurrences_append (name : String) (p q : Pattern) :
    occurrences name (p ++ q) = occurrences name p + occurrences name q := by
  induction p with
  | nil => rw [List.nil_append, occurrences, Nat.zero_add]
  | cons item rest ih => rw [List.cons_append, occurrences, occurrences, ih, Nat.add_assoc]

/-! ### Groups that end in a capture -/

/-- A branch as it is, or with a constant at its end. -/
def Extends (branch branch' : Pattern) : Prop :=
  branch' = branch ∨ ∃ text, text ≠ "" ∧ branch' = appendMerged branch (.constant text)

/-- Branches of groups get constants at their end, and a constant behind a group may go away. -/
inductive Anchors : Pattern → Pattern → Prop
  | nil : Anchors [] []
  | keep {item : PatternItem} {rest rest' : Pattern} (h : Anchors rest rest') :
      Anchors (item :: rest) (item :: rest')
  | move {text : String} {branches : List Pattern} {f : Pattern → Pattern} {rest rest' : Pattern}
      (hbranches : ∀ branch ∈ branches, Extends branch (f branch)) (h : Anchors rest rest') :
      Anchors (.alternatives branches :: .value (.constant text) :: rest)
        (.alternatives (branches.map f) :: rest')
  | add {branches : List Pattern} {f : Pattern → Pattern} {rest rest' : Pattern}
      (hbranches : ∀ branch ∈ branches, Extends branch (f branch)) (h : Anchors rest rest') :
      Anchors (.alternatives branches :: rest) (.alternatives (branches.map f) :: rest')

theorem Regular.tail {item : PatternItem} {rest : Pattern} (h : Regular (item :: rest)) :
    Regular rest := by
  cases h with
  | payload alias? => exact .nil
  | cons hitem hrest => exact hrest

theorem anchors_anchorGroups {p : Pattern} (h : Regular p) : Anchors p (anchorGroups p) := by
  fun_induction anchorGroups p with
  | case1 branches next rest hends ih => exact .keep (ih h.tail)
  | case2 branches rest hends text ih =>
      refine .move (fun branch _ => .inr ⟨text, ?_, rfl⟩) (ih h.tail.tail)
      cases h.tail with
      | cons hitem hrest => exact hitem
  | case3 branches next rest hends hnext anchored ih =>
      refine .add (fun branch _ => ?_) (ih h.tail)
      split
      · exact .inr ⟨" ", by decide, rfl⟩
      · exact .inl rfl
  | case4 item rest hitem ih => exact .keep (ih h.tail)
  | case5 => exact .nil

namespace Extends

variable {branch branch' : Pattern}

theorem isFlat (h : Extends branch branch') (hflat : branch.IsFlat) : branch'.IsFlat := by
  rcases h with rfl | ⟨text, hne, rfl⟩
  · exact hflat
  · refine isFlat_mergeConstants fun item hitem => ?_
    rcases List.mem_append.mp hitem with hitem | hitem
    · exact hflat item hitem
    · obtain rfl := List.mem_singleton.mp hitem
      exact hne

theorem fieldsApart (h : Extends branch branch') (hapart : FieldsApart branch) :
    FieldsApart branch' := by
  rcases h with rfl | ⟨text, -, rfl⟩
  · exact hapart
  · refine (fieldsApart_mergeConstants ?_).1
    refine List.isChain_append.mpr ⟨hapart, List.isChain_singleton _, ?_⟩
    intro a _ b hb hboth
    obtain rfl := Option.some.inj hb
    cases hboth.2

theorem occurrences_eq (h : Extends branch branch') (name : String) :
    occurrences name branch' = occurrences name branch := by
  rcases h with rfl | ⟨text, -, rfl⟩
  · rfl
  · have hconstant : occurrences name [.value (.constant text)] = 0 := by
      simp [occurrences, itemOccurrences]
    rw [appendMerged, occurrences_mergeConstants, occurrences_append, hconstant, Nat.add_zero]

theorem branchOccurrences_eq {branches : List Pattern} {f : Pattern → Pattern}
    (h : ∀ branch ∈ branches, Extends branch (f branch)) (name : String) :
    branchOccurrences name (branches.map f) = branchOccurrences name branches := by
  induction branches with
  | nil => rfl
  | cons branch rest ih =>
      rw [List.map_cons, branchOccurrences, branchOccurrences,
        (h branch List.mem_cons_self).occurrences_eq name,
        ih fun b hb => h b (List.mem_cons_of_mem _ hb)]

end Extends

namespace Anchors

variable {p p' : Pattern}

theorem isInner_map {branches : List Pattern} {f : Pattern → Pattern}
    (h : ∀ branch ∈ branches, Extends branch (f branch))
    (hinner : (PatternItem.alternatives branches).IsInner) :
    (PatternItem.alternatives (branches.map f)).IsInner := by
  intro branch' hbranch'
  obtain ⟨branch, hbranch, rfl⟩ := List.mem_map.mp hbranch'
  exact (h branch hbranch).isFlat (hinner branch hbranch)

theorem regular (h : Anchors p p') (hp : Regular p) : Regular p' := by
  induction h with
  | nil => exact .nil
  | keep h ih =>
      cases hp with
      | payload alias? =>
          cases h
          exact .payload alias?
      | cons hitem hrest => exact .cons hitem (ih hrest)
  | move hbranches h ih =>
      cases hp with
      | cons hitem hrest => exact .cons (isInner_map hbranches hitem) (ih hrest.tail)
  | add hbranches h ih =>
      cases hp with
      | cons hitem hrest => exact .cons (isInner_map hbranches hitem) (ih hrest)

/-- A group is no field. -/
theorem fieldsApart_group {branches : List Pattern} {rest : Pattern} (h : FieldsApart rest) :
    FieldsApart (.alternatives branches :: rest) :=
  List.isChain_cons.mpr ⟨fun _ _ hboth => (nomatch hboth.1), h⟩

theorem fieldsApart (h : Anchors p p') (hp : FieldsApart p) :
    FieldsApart p' ∧ p'.head?.map PatternItem.isField = p.head?.map PatternItem.isField := by
  induction h with
  | nil => exact ⟨.nil, rfl⟩
  | @keep item rest rest' h ih =>
      obtain ⟨hhead, hrest⟩ := List.isChain_cons.mp hp
      obtain ⟨hapart, hsame⟩ := ih hrest
      refine ⟨List.isChain_cons.mpr ⟨fun next hnext hboth => ?_, hapart⟩, rfl⟩
      rw [Option.mem_def.mp hnext, Option.map_some] at hsame
      obtain ⟨other, hother, hfield⟩ := Option.map_eq_some_iff.mp hsame.symm
      exact hhead other hother ⟨hboth.1, hfield ▸ hboth.2⟩
  | move hbranches h ih =>
      have hrest := (List.isChain_cons.mp (List.isChain_cons.mp hp).2).2
      exact ⟨fieldsApart_group (ih hrest).1, rfl⟩
  | add hbranches h ih =>
      exact ⟨fieldsApart_group (ih (List.isChain_cons.mp hp).2).1, rfl⟩

/-- A group of the anchored pattern extends the branches of a group. -/
theorem exists_group (h : Anchors p p') {branches' : List Pattern} (hmem : .alternatives branches' ∈ p') :
    ∃ branches, .alternatives branches ∈ p ∧ ∀ branch' ∈ branches', ∃ branch ∈ branches,
      Extends branch branch' := by
  have hextends : ∀ {branches : List Pattern} {f : Pattern → Pattern},
      (∀ branch ∈ branches, Extends branch (f branch)) →
        ∀ branch' ∈ branches.map f, ∃ branch ∈ branches, Extends branch branch' := by
    intro branches f hf branch' hbranch'
    obtain ⟨branch, hbranch, rfl⟩ := List.mem_map.mp hbranch'
    exact ⟨branch, hbranch, hf branch hbranch⟩
  induction h with
  | nil => cases hmem
  | keep h ih =>
      rcases List.mem_cons.mp hmem with rfl | hmem
      · exact ⟨branches', List.mem_cons_self, fun branch hbranch => ⟨branch, hbranch, .inl rfl⟩⟩
      · obtain ⟨branches, hbranches, hall⟩ := ih hmem
        exact ⟨branches, List.mem_cons_of_mem _ hbranches, hall⟩
  | @move text branches f rest rest' hbranches h ih =>
      rcases List.mem_cons.mp hmem with heq | hmem
      · obtain rfl := PatternItem.alternatives.inj heq
        exact ⟨branches, List.mem_cons_self, hextends hbranches⟩
      · obtain ⟨others, hothers, hall⟩ := ih hmem
        exact ⟨others, List.mem_cons_of_mem _ (List.mem_cons_of_mem _ hothers), hall⟩
  | @add branches f rest rest' hbranches h ih =>
      rcases List.mem_cons.mp hmem with heq | hmem
      · obtain rfl := PatternItem.alternatives.inj heq
        exact ⟨branches, List.mem_cons_self, hextends hbranches⟩
      · obtain ⟨others, hothers, hall⟩ := ih hmem
        exact ⟨others, List.mem_cons_of_mem _ hothers, hall⟩

theorem capturesApart (h : Anchors p p') (hp : CapturesApart p) : CapturesApart p' where
  items := (h.fieldsApart hp.items).1
  branches := by
    intro branches' hmem branch' hbranch'
    obtain ⟨branches, hbranches, hall⟩ := h.exists_group hmem
    obtain ⟨branch, hbranch, hextends⟩ := hall branch' hbranch'
    exact hextends.fieldsApart (hp.branches branches hbranches branch hbranch)

theorem payload?_eq (h : Anchors p p') : payload? p' = payload? p := by
  induction h with
  | nil => rfl
  | @keep item rest rest' h ih =>
      cases item with
      | alternatives branches => exact ih
      | value v =>
          cases v with
          | payload alias? => rfl
          | constant text => exact ih
          | field name => exact ih
  | move hbranches h ih => exact ih
  | add hbranches h ih => exact ih

theorem occurrences_eq (h : Anchors p p') (name : String) :
    occurrences name p' = occurrences name p := by
  induction h with
  | nil => rfl
  | keep h ih => rw [occurrences, occurrences, ih]
  | move hbranches h ih =>
      rw [occurrences, occurrences, occurrences, ih, itemOccurrences, itemOccurrences, itemOccurrences,
        Extends.branchOccurrences_eq hbranches name]
      simp
  | add hbranches h ih =>
      rw [occurrences, occurrences, ih, itemOccurrences, itemOccurrences,
        Extends.branchOccurrences_eq hbranches name]

theorem aliasOnce (h : Anchors p p') (hp : AliasOnce p) : AliasOnce p' := by
  intro name hname hstart
  rw [h.occurrences_eq]
  exact hp name (h.payload?_eq.symm.trans hname) hstart

end Anchors

end Pattern

end LogRules

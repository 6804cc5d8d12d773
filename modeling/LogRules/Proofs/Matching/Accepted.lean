import LogRules.Proofs.Matching.Constants
import LogRules.Proofs.Matching.RoundTrip
import LogRules.Proofs.Pattern.Regular

/-! # Patterns that have a matcher

A regular pattern in which no captures are side by side and an alias is captured once has a matcher, unless
the alias is not captured in every branch (`ofPattern_fails_only`). The items between two groups become the
elements of one alternative, so neighbours stay neighbours, and chunks that capture a field are counted by
`Pattern.occurrences`. -/

namespace LogRules.Matching

open Pattern

/-! ### Elements of a branch -/

/-- The elements of an item that is a field or a constant. -/
def innerElements : PatternItem → Elements
  | .value (.constant text) => ofConstant text
  | .value (.field name) => [.capture name false]
  | _ => []

theorem ofValue_isInner {v : Value} (h : v.IsInner) : ofValue v = .ok (innerElements (.value v)) := by
  cases v with
  | constant text => rfl
  | field name => rfl
  | payload alias? => exact absurd h id

/-- The branch is made of fields and constants, empty ones included. -/
def IsPlain (branch : Pattern) : Prop := ∀ item ∈ branch, ∃ v, item = .value v ∧ ¬ v.isPayload = true

theorem isPlain_of_isFlat {branch : Pattern} (h : branch.IsFlat) : IsPlain branch := by
  intro item hitem
  have hflat := h item hitem
  cases item with
  | alternatives branches => exact absurd hflat id
  | value v =>
      refine ⟨v, rfl, ?_⟩
      cases v with
      | constant text => exact Bool.false_ne_true
      | field name => exact Bool.false_ne_true
      | payload alias? => exact absurd hflat id

theorem ofBranch_isPlain {branch : Pattern} (h : IsPlain branch) :
    ofBranch branch = .ok (branch.flatMap innerElements) := by
  have hitems : branch.mapM ofBranchItem = .ok (branch.map innerElements) := by
    rw [mapM_eq_ok, List.forall₂_map_right_iff, List.forall₂_same]
    intro item hitem
    obtain ⟨v, rfl, hv⟩ := h item hitem
    cases v with
    | constant text => rfl
    | field name => rfl
    | payload alias? => exact absurd rfl hv
  exact map_eq_ok.mpr ⟨_, hitems, rfl⟩

/-- A constant gives one element that is no capture, a field gives one capture. -/
theorem innerElements_cases {v : Value} (h : v.IsInner) :
    (∃ c, innerElements (.value v) = [.constant c] ∧ (PatternItem.value v).isField = false ∧
      ∀ name, itemOccurrences name (.value v) = 0) ∨
    ∃ field, innerElements (.value v) = [.capture field false] ∧ v = .field field := by
  cases v with
  | constant text =>
      refine .inl ⟨_, ofConstant_ne_nil (normalize_encode_ne_nil h), rfl, fun name => ?_⟩
      simp [itemOccurrences]
  | field name => exact .inr ⟨name, rfl, rfl⟩
  | payload alias? => exact absurd h id

/-- The elements start with a capture. -/
def StartsWithCapture (elements : Elements) : Prop :=
  ∃ field marked rest, elements = .capture field marked :: rest

theorem adjacentCaptures?_capture {field : String} {marked : Bool} {elements : Elements}
    (hstart : ¬ StartsWithCapture elements) (h : adjacentCaptures? elements = none) :
    adjacentCaptures? (.capture field marked :: elements) = none := by
  cases elements with
  | nil => rfl
  | cons e rest =>
      cases e with
      | constant c => exact h
      | payload => exact h
      | capture other marked' => exact absurd ⟨other, marked', rest, rfl⟩ hstart

/-- Elements of values with a field in front of them that is followed by no capture. -/
theorem adjacentCaptures?_inner {v : Value} (hv : v.IsInner) {elements : Elements}
    (hstart : StartsWithCapture elements → (PatternItem.value v).isField = false)
    (h : adjacentCaptures? elements = none) :
    adjacentCaptures? (innerElements (.value v) ++ elements) = none ∧
      (StartsWithCapture (innerElements (.value v) ++ elements) →
        (PatternItem.value v).isField = true) := by
  rcases innerElements_cases hv with ⟨c, heq, -, -⟩ | ⟨field, heq, rfl⟩
  · rw [heq]
    exact ⟨h, fun ⟨_, _, _, hcapture⟩ => (nomatch hcapture)⟩
  · rw [heq]
    exact ⟨adjacentCaptures?_capture (fun hc => (nomatch hstart hc)) h, fun _ => rfl⟩

theorem countP_innerElements {v : Value} (hv : v.IsInner) (name : String) :
    (innerElements (.value v)).countP (Element.captures name) = itemOccurrences name (.value v) := by
  rcases innerElements_cases hv with ⟨c, heq, -, hzero⟩ | ⟨field, heq, rfl⟩
  · rw [heq, hzero name]
    rfl
  · rw [heq, itemOccurrences]
    by_cases hfield : field = name
    · simp [Element.captures, hfield]
    · simp [Element.captures, hfield]

theorem adjacentCaptures?_branch {branch : Pattern} (h : branch.IsFlat) (hapart : FieldsApart branch) :
    adjacentCaptures? (branch.flatMap innerElements) = none ∧
      (StartsWithCapture (branch.flatMap innerElements) →
        ∃ item ∈ branch.head?, item.isField = true) := by
  induction branch with
  | nil => exact ⟨rfl, fun ⟨_, _, _, heq⟩ => nomatch heq⟩
  | cons item rest ih =>
      obtain ⟨hhead, hrest⟩ := List.isChain_cons.mp hapart
      obtain ⟨hnone, hstarts⟩ := ih (fun i hi => h i (List.mem_cons_of_mem _ hi)) hrest
      cases item with
      | alternatives branches => exact absurd (h _ List.mem_cons_self) id
      | value v =>
          have hstart : StartsWithCapture (rest.flatMap innerElements) →
              (PatternItem.value v).isField = false := by
            intro hcapture
            obtain ⟨next, hnext, hfield⟩ := hstarts hcapture
            by_contra htrue
            exact hhead next hnext ⟨Bool.not_eq_false _ |>.mp htrue, hfield⟩
          obtain ⟨hnone', hstarts'⟩ :=
            adjacentCaptures?_inner (h _ List.mem_cons_self) hstart hnone
          exact ⟨hnone', fun hcapture => ⟨_, rfl, hstarts' hcapture⟩⟩

theorem countP_branch {branch : Pattern} (h : branch.IsFlat) (name : String) :
    (branch.flatMap innerElements).countP (Element.captures name) = occurrences name branch := by
  induction branch with
  | nil => rfl
  | cons item rest ih =>
      rw [List.flatMap_cons, List.countP_append, occurrences,
        ih fun i hi => h i (List.mem_cons_of_mem _ hi)]
      cases item with
      | alternatives branches => exact absurd (h _ List.mem_cons_self) id
      | value v => rw [countP_innerElements (h _ List.mem_cons_self)]

/-! ### Chunks of a group -/

/-- The chunk of a group with flat branches. -/
def groupChunk (branches : List Pattern) : Chunk := ⟨branches.map fun b => b.flatMap innerElements⟩

theorem mapM_ofBranch {branches : List Pattern} (h : ∀ branch ∈ branches, IsPlain branch) :
    branches.mapM ofBranch = .ok (groupChunk branches).alternatives := by
  unfold groupChunk
  rw [mapM_eq_ok, List.forall₂_map_right_iff, List.forall₂_same]
  exact fun branch hbranch => ofBranch_isPlain (h branch hbranch)

theorem branchOccurrences_eq_zero_iff {name : String} {branches : List Pattern} :
    branchOccurrences name branches = 0 ↔ ∀ branch ∈ branches, occurrences name branch = 0 := by
  induction branches with
  | nil => simp [branchOccurrences]
  | cons branch rest ih =>
      rw [branchOccurrences, Nat.max_eq_zero_iff, ih, List.forall_mem_cons]

theorem countCaptures_groupChunk {name : String} {branches : List Pattern}
    (h : (PatternItem.alternatives branches).IsInner) :
    (groupChunk branches).countCaptures name = 0 ↔ branchOccurrences name branches = 0 := by
  have hbranch : ∀ branch ∈ branches, (occurrences name branch = 0 ↔
      ∀ e ∈ branch.flatMap innerElements, ¬ e.captures name = true) := by
    intro branch hmem
    rw [← countP_branch (h branch hmem), List.countP_eq_zero]
  rw [branchOccurrences_eq_zero_iff, Chunk.countCaptures, groupChunk, List.countP_eq_zero]
  constructor
  · intro hnone branch hmem
    exact (hbranch branch hmem).mpr fun e he =>
      hnone e (List.mem_flatten.mpr ⟨_, List.mem_map_of_mem hmem, he⟩)
  · intro hzero e he
    obtain ⟨elements, helements, hmem⟩ := List.mem_flatten.mp he
    obtain ⟨branch, hb, rfl⟩ := List.mem_map.mp helements
    exact (hbranch branch hb).mp (hzero branch hb) e hmem

/-! ### The layout of a regular pattern -/

/-- The number of chunks that capture a field. -/
def capturingChunks (name : String) (chunks : List Chunk) : Nat :=
  chunks.countP fun chunk => chunk.countCaptures name != 0

/-- The elements in front of the first group and the chunks of a pattern. -/
structure IsLayout (p : Pattern) (front : Elements) (chunks : List Chunk) : Prop where
  eq : layout p = .ok (front, chunks)
  front_apart : adjacentCaptures? front = none
  chunks_apart : ∀ chunk ∈ chunks, ∀ elements ∈ chunk.alternatives, adjacentCaptures? elements = none
  starts : StartsWithCapture front → ∃ item ∈ p.head?, item.isField = true
  count_le : ∀ name,
    front.countP (Element.captures name) + capturingChunks name chunks ≤ occurrences name p
  found : ∀ name, occurrences name p ≠ 0 →
    front.countP (Element.captures name) + capturingChunks name chunks ≠ 0

theorem isLayout_nil : IsLayout [] [] [] where
  eq := rfl
  front_apart := rfl
  chunks_apart := fun _ h => nomatch h
  starts := fun ⟨_, _, _, heq⟩ => nomatch heq
  count_le := fun _ => Nat.le_refl 0
  found := fun _ h => h

theorem isLayout_payload (alias? : Option String) :
    IsLayout [.value (.payload alias?)] (if alias?.isNone then [.payload] else []) [] where
  eq := rfl
  front_apart := by cases alias? <;> rfl
  chunks_apart := fun _ h => nomatch h
  starts := by
    rintro ⟨_, _, _, heq⟩
    cases alias? <;> cases heq
  count_le := by
    intro name
    have hzero : (if alias?.isNone then [Element.payload] else []).countP (Element.captures name) = 0 := by
      cases alias? <;> rfl
    rw [hzero]
    exact Nat.zero_le _
  found := by
    intro name hne
    refine absurd ?_ hne
    simp [occurrences, itemOccurrences]

theorem isLayout_value {v : Value} (hv : v.IsInner) {rest : Pattern} {front : Elements}
    {chunks : List Chunk} (hapart : FieldsApart (.value v :: rest)) (h : IsLayout rest front chunks) :
    IsLayout (.value v :: rest) (innerElements (.value v) ++ front) chunks := by
  have hstart : StartsWithCapture front → (PatternItem.value v).isField = false := by
    intro hcapture
    obtain ⟨next, hnext, hfield⟩ := h.starts hcapture
    by_contra htrue
    exact (List.isChain_cons.mp hapart).1 next hnext ⟨Bool.not_eq_false _ |>.mp htrue, hfield⟩
  obtain ⟨hnone, hstarts⟩ := adjacentCaptures?_inner hv hstart h.front_apart
  refine ⟨?_, hnone, h.chunks_apart, fun hcapture => ⟨_, rfl, hstarts hcapture⟩, ?_, ?_⟩
  · rw [layout, ofValue_isInner hv, h.eq]
    · rfl
    · rintro alias? rfl
      exact hv
  · intro name
    have hle := h.count_le name
    rw [List.countP_append, countP_innerElements hv, occurrences]
    omega
  · intro name hne
    have hfound := h.found name
    rw [List.countP_append, countP_innerElements hv]
    rw [occurrences] at hne
    omega

theorem capturingChunks_plainChunk (name : String) (elements : Elements) :
    capturingChunks name (plainChunk elements) ≤ elements.countP (Element.captures name) ∧
      (elements.countP (Element.captures name) ≠ 0 → capturingChunks name (plainChunk elements) ≠ 0) := by
  have hcount : Chunk.countCaptures name ⟨[elements]⟩ = elements.countP (Element.captures name) := by
    rw [Chunk.countCaptures, List.flatten_singleton]
  cases elements with
  | nil => exact ⟨Nat.le_refl 0, id⟩
  | cons e rest =>
      have hplain : capturingChunks name (plainChunk (e :: rest)) =
          if (e :: rest).countP (Element.captures name) != 0 then 1 else 0 := by
        rw [← hcount]
        exact List.countP_singleton
      rw [hplain]
      split
      · next h =>
        have hne := bne_iff_ne.mp h
        exact ⟨by omega, fun _ => Nat.one_ne_zero⟩
      · next h =>
        exact ⟨Nat.zero_le _, fun hne => absurd (bne_iff_ne.mpr hne) h⟩

theorem adjacentCaptures?_plainChunk {elements : Elements} (h : adjacentCaptures? elements = none) :
    ∀ chunk ∈ plainChunk elements, ∀ alternative ∈ chunk.alternatives,
      adjacentCaptures? alternative = none := by
  intro chunk hchunk alternative hmem
  unfold plainChunk at hchunk
  split at hchunk
  · cases hchunk
  · obtain rfl := List.mem_singleton.mp hchunk
    obtain rfl := List.mem_singleton.mp hmem
    exact h

theorem capturingChunks_append (name : String) (first second : List Chunk) :
    capturingChunks name (first ++ second) = capturingChunks name first + capturingChunks name second :=
  List.countP_append

theorem isLayout_group {branches : List Pattern} (hinner : (PatternItem.alternatives branches).IsInner)
    (hapart : ∀ branch ∈ branches, FieldsApart branch) {rest : Pattern} {front : Elements}
    {chunks : List Chunk} (h : IsLayout rest front chunks) :
    IsLayout (.alternatives branches :: rest) []
      (groupChunk branches :: plainChunk front ++ chunks) := by
  have hcount : ∀ name, capturingChunks name (groupChunk branches :: plainChunk front ++ chunks) =
      (if branchOccurrences name branches = 0 then 0 else 1) +
        (capturingChunks name (plainChunk front) + capturingChunks name chunks) := by
    intro name
    have hgroup : capturingChunks name [groupChunk branches] =
        if branchOccurrences name branches = 0 then 0 else 1 := by
      have hzero : (groupChunk branches).countCaptures name = 0 ↔ branchOccurrences name branches = 0 :=
        countCaptures_groupChunk hinner
      by_cases hnone : branchOccurrences name branches = 0
      · simp [capturingChunks, hzero.mpr hnone, hnone]
      · have hne : (groupChunk branches).countCaptures name ≠ 0 := fun heq => hnone (hzero.mp heq)
        simp [capturingChunks, hne, hnone]
    rw [← hgroup, ← capturingChunks_append, ← capturingChunks_append]
    rfl
  refine ⟨?_, rfl, ?_, fun ⟨_, _, _, heq⟩ => (nomatch heq), ?_, ?_⟩
  · rw [layout, mapM_ofBranch fun branch hbranch => isPlain_of_isFlat (hinner branch hbranch), h.eq]
    rfl
  · intro chunk hchunk elements helements
    rw [List.cons_append, List.mem_cons, List.mem_append] at hchunk
    rcases hchunk with rfl | hchunk | hchunk
    · obtain ⟨branch, hbranch, rfl⟩ := List.mem_map.mp helements
      exact (adjacentCaptures?_branch (hinner branch hbranch) (hapart branch hbranch)).1
    · exact adjacentCaptures?_plainChunk h.front_apart chunk hchunk elements helements
    · exact h.chunks_apart chunk hchunk elements helements
  · intro name
    have hle := h.count_le name
    have hplain := (capturingChunks_plainChunk name front).1
    rw [hcount, occurrences, itemOccurrences, List.countP_nil]
    split <;> omega
  · intro name hne
    have hfound := h.found name
    have hplain := (capturingChunks_plainChunk name front).2
    rw [occurrences, itemOccurrences] at hne
    rw [hcount, List.countP_nil]
    split <;> omega

/-- A regular pattern in which no captures are side by side has a layout. -/
theorem exists_isLayout {p : Pattern} (h : Regular p) (hapart : CapturesApart p) :
    ∃ front chunks, IsLayout p front chunks := by
  induction h with
  | nil => exact ⟨[], [], isLayout_nil⟩
  | payload alias? => exact ⟨_, [], isLayout_payload alias?⟩
  | @cons item rest hitem hrest ih =>
      obtain ⟨front, chunks, hlayout⟩ := ih ⟨(List.isChain_cons.mp hapart.items).2,
        fun branches hmem => hapart.branches branches (List.mem_cons_of_mem _ hmem)⟩
      cases item with
      | value v => exact ⟨_, chunks, isLayout_value hitem hapart.items hlayout⟩
      | alternatives branches =>
          exact ⟨[], _, isLayout_group hitem (hapart.branches branches List.mem_cons_self) hlayout⟩

/-! ### Matchers of regular patterns -/

theorem countMarkers_le_one {p : Pattern} (h : Regular p) : countMarkers p ≤ 1 := by
  induction h with
  | nil => exact Nat.zero_le 1
  | payload alias? => exact Nat.le_refl 1
  | @cons item rest hitem hrest ih =>
      have hzero : ¬ (item.value?.any Value.isPayload) = true := by
        cases item with
        | alternatives branches => exact Bool.false_ne_true
        | value v =>
            cases v with
            | constant text => exact Bool.false_ne_true
            | field name => exact Bool.false_ne_true
            | payload alias? => exact absurd hitem id
      have hrest : countMarkers (item :: rest) = countMarkers rest := List.countP_cons_of_neg hzero
      rw [hrest]
      exact ih

/-- The chunks of a regular pattern. -/
theorem exists_chunksOf {p : Pattern} (h : Regular p) (hapart : CapturesApart p) :
    ∃ chunks, chunksOf p = .ok chunks ∧
      (∀ chunk ∈ chunks, ∀ elements ∈ chunk.alternatives, adjacentCaptures? elements = none) ∧
      ∀ name, capturingChunks name chunks ≤ occurrences name p ∧
        (occurrences name p ≠ 0 → capturingChunks name chunks ≠ 0) := by
  obtain ⟨front, chunks, hlayout⟩ := exists_isLayout h hapart
  have hchunks : chunksOf p = .ok (if (plainChunk front ++ chunks).isEmpty then [⟨[[]]⟩]
      else plainChunk front ++ chunks) := by
    rw [chunksOf, hlayout.eq]
    rfl
  have hcount : ∀ name, capturingChunks name (plainChunk front ++ chunks) ≤ occurrences name p ∧
      (occurrences name p ≠ 0 → capturingChunks name (plainChunk front ++ chunks) ≠ 0) := by
    intro name
    have hle := hlayout.count_le name
    have hfound := hlayout.found name
    obtain ⟨hplain, hplain'⟩ := capturingChunks_plainChunk name front
    rw [capturingChunks_append]
    omega
  refine ⟨_, hchunks, ?_, ?_⟩
  · split
    · intro chunk hchunk elements helements
      obtain rfl := List.mem_singleton.mp hchunk
      obtain rfl := List.mem_singleton.mp helements
      rfl
    · intro chunk hchunk elements helements
      rcases List.mem_append.mp hchunk with hchunk | hchunk
      · exact adjacentCaptures?_plainChunk hlayout.front_apart chunk hchunk elements helements
      · exact hlayout.chunks_apart chunk hchunk elements helements
  · intro name
    split
    · next hempty =>
      have hnil := List.isEmpty_iff.mp hempty
      have hzero := hcount name
      rw [hnil] at hzero
      exact hzero
    · exact hcount name

/-- A field that is captured in one chunk is an alias, unless some branch of the chunk lacks it. -/
theorem aliasError?_of_one {name : String} {chunks : List Chunk}
    (h : capturingChunks name chunks = 1) :
    aliasError? name chunks = none ∨
      aliasError? name chunks = some (.payloadNotInEveryAlternative name) := by
  rw [capturingChunks, List.countP_eq_length_filter, List.length_eq_one_iff] at h
  obtain ⟨chunk, hchunk⟩ := h
  unfold aliasError?
  rw [hchunk]
  dsimp only
  split
  · exact .inr rfl
  · exact .inl rfl

/-- A regular pattern in which no captures are side by side and an alias is captured once has a matcher,
unless the alias is not captured in every branch. -/
theorem ofPattern_fails_only {p : Pattern} (h : Regular p) (halias : AliasOnce p)
    (hapart : CapturesApart p) :
    FailsOnlyWith (fun e => ∃ field, e = .payloadNotInEveryAlternative field)
      (Matcher.ofPattern p) := by
  obtain ⟨chunks, hchunks, hnone, hcount⟩ := exists_chunksOf h hapart
  have hmarkers := countMarkers_le_one h
  have hadjacent : (chunks.flatMap Chunk.alternatives).findSome? adjacentCaptures? = none := by
    rw [List.findSome?_eq_none_iff]
    intro elements helements
    obtain ⟨chunk, hchunk, hmem⟩ := List.mem_flatMap.mp helements
    exact hnone chunk hchunk elements hmem
  rw [ofPattern_eq, if_neg (by omega), hchunks]
  show FailsOnlyWith _ (ofChunks p.payload? chunks)
  unfold ofChunks
  rw [hadjacent]
  split
  · next heq => cases heq
  · next name _ hpayload =>
    split
    · exact failsOnlyWith_ok _
    · next hstart =>
      have hone := halias name hpayload hstart
      have hchunk : capturingChunks name chunks = 1 := by
        have hbounds := hcount name
        omega
      rcases aliasError?_of_one hchunk with herror | herror
      · rw [herror]
        exact failsOnlyWith_ok _
      · rw [herror]
        exact failsOnlyWith_error ⟨name, rfl⟩
  · exact failsOnlyWith_ok _

end LogRules.Matching

import LogRules.Proofs.Matching.Routes

/-! # Patterns that are accepted

Which patterns have a matcher, read off the pattern alone (`ofPattern_accepts_iff`): a payload marker comes
last, no branch holds a marker or a group, no two fields are side by side, and an alias is captured in one
stretch, as often as the stretch has alternatives. -/

namespace LogRules.Matching

open Pattern

/-! ### Stretches -/

/-- The items in front of the first group, and from there on the groups, each with the items behind it. -/
def runAndStretches : Pattern → Pattern × List (List Pattern)
  | [] => ([], [])
  | .value v :: rest =>
    let (run, others) := runAndStretches rest
    (.value v :: run, others)
  | .alternatives branches :: rest =>
    let (run, others) := runAndStretches rest
    ([], branches :: [run] :: others)

/-- The alternatives of a pattern from its front to its end: those of its groups, and between two groups the
items there as the only one. -/
def stretches (p : Pattern) : List (List Pattern) := [(runAndStretches p).1] :: (runAndStretches p).2

/-- The stretches that capture a field. -/
def capturing (name : String) (p : Pattern) : List (List Pattern) :=
  (stretches p).filter fun part => countField name part.flatten != 0

/-- The item is a payload marker. -/
def IsMarker (item : PatternItem) : Prop := item.value?.any Value.isPayload = true

/-- A marker comes last, and no branch holds a marker or a group. -/
structure WellPlaced (p : Pattern) : Prop where
  marker_last : ∀ item ∈ p.dropLast, ¬ IsMarker item
  branches_plain : ∀ branches, .alternatives branches ∈ p → ∀ branch ∈ branches, IsPlain branch

/-- Nothing in the pattern keeps a message from being cut along it. -/
structure Matchable (p : Pattern) : Prop extends WellPlaced p where
  fields_apart : ∀ part ∈ stretches p, ∀ branch ∈ part, ¬ LeavesFieldsSideBySide branch

/-- One stretch captures the field, in each of its alternatives once. -/
def CapturedInEach (name : String) (p : Pattern) : Prop :=
  ∃ part, capturing name p = [part] ∧ ∀ branch ∈ part, countField name branch = 1

/-- One stretch captures the field, as often as it has alternatives. -/
def CapturedAsOften (name : String) (p : Pattern) : Prop :=
  ∃ part, capturing name p = [part] ∧ countField name part.flatten = part.length

/-- The field with which the payload starts; none at the start of the message or behind the pattern. -/
def alias? (p : Pattern) : Option String := p.payload?.join.filter (· ≠ startAlias)

/-! ### Elements of a stretch -/

/-- The elements of an item outside of the groups. -/
def outerElements : PatternItem → Elements
  | .value (.payload none) => [.payload]
  | item => innerElements item

theorem outerElements_constant {text : String} (h : text ≠ "") :
    outerElements (.value (.constant text)) = [.constant (normalize (Text.encode text))] :=
  ofConstant_ne_nil (normalize_encode_ne_nil h)

theorem normalize_eq_space_iff {text : String} (h : text ≠ "") :
    normalize (Text.encode text) = [space] ↔ IsBlank text := by
  constructor
  · intro heq
    by_contra hblank
    obtain ⟨a, core, b, henc, hcore, htidy⟩ := exists_padded_encode hblank
    rw [henc, normalize_padded a b hcore htidy] at heq
    have hhead := htidy.squeeze.1
    rw [heq] at hhead
    exact hhead rfl
  · intro hblank
    obtain ⟨n, henc⟩ := encode_eq_spaces hblank h
    rw [henc, normalize_spaces]

theorem ne_empty_of_not_blank {text : String} (h : ¬ IsBlank text) : text ≠ "" := by
  rintro rfl
  exact h nofun

/-- The items of an alternative, which may end in a payload marker. -/
def IsRun (run : Pattern) : Prop :=
  ∃ items marker, run = items ++ marker ∧ IsPlain items ∧
    (marker = [] ∨ ∃ alias?, marker = [.value (.payload alias?)])

theorem IsPlain.isRun {branch : Pattern} (h : IsPlain branch) : IsRun branch :=
  ⟨branch, [], (List.append_nil branch).symm, h, .inl rfl⟩

theorem IsRun.cons {run : Pattern} (h : IsRun run) {v : Value} (hv : ¬ v.isPayload = true) :
    IsRun (.value v :: run) := by
  obtain ⟨items, marker, rfl, hplain, hmarker⟩ := h
  exact ⟨.value v :: items, marker, rfl, List.forall_mem_cons.mpr ⟨⟨v, rfl, hv⟩, hplain⟩, hmarker⟩

theorem flatMap_outerElements {branch : Pattern} (h : IsPlain branch) :
    branch.flatMap outerElements = branch.flatMap innerElements := by
  refine List.flatMap_congr fun item hitem => ?_
  obtain ⟨v, rfl, hv⟩ := h item hitem
  cases v with
  | constant text => rfl
  | field name => rfl
  | payload alias? => exact absurd rfl hv

theorem adjacentCaptures?_append_payload (elements : Elements) :
    adjacentCaptures? (elements ++ [.payload]) = adjacentCaptures? elements := by
  fun_induction adjacentCaptures? elements with
  | case1 => rfl
  | case2 e rest hnot ih =>
      rw [List.cons_append, adjacentCaptures?, ih]
      intro a marked b marked' others he hothers
      cases rest with
      | nil => cases hothers
      | cons next rest =>
          obtain ⟨rfl, -⟩ := List.cons.inj hothers
          exact hnot a marked b marked' rest he rfl
  | case3 => rfl

/-- A marker behind items leaves no more fields side by side than there are. -/
theorem leavesFieldsSideBySide_append_payload (items : Pattern) (alias? : Option String) :
    LeavesFieldsSideBySide (items ++ [.value (.payload alias?)]) ↔ LeavesFieldsSideBySide items := by
  have hmarker : [PatternItem.value (.payload alias?)].filter (fun item => !isEmptyConstant item) =
      [.value (.payload alias?)] := rfl
  unfold LeavesFieldsSideBySide FieldsApart
  rw [List.filter_append, hmarker, List.isChain_append]
  refine not_congr ⟨fun h => h.1, fun h => ⟨h, List.isChain_singleton _, fun a _ b hb hboth => ?_⟩⟩
  obtain rfl := Option.some.inj hb
  exact Bool.false_ne_true hboth.2

theorem IsRun.adjacentCaptures?_iff {run : Pattern} (h : IsRun run) :
    adjacentCaptures? (run.flatMap outerElements) = none ↔ ¬ LeavesFieldsSideBySide run := by
  obtain ⟨items, marker, rfl, hplain, rfl | ⟨alias?, rfl⟩⟩ := h
  · rw [List.append_nil, flatMap_outerElements hplain]
    exact adjacentCaptures?_branch_iff hplain
  · rw [leavesFieldsSideBySide_append_payload, ← adjacentCaptures?_branch_iff hplain, List.flatMap_append,
      flatMap_outerElements hplain]
    cases alias? with
    | none => exact iff_of_eq (congrArg (· = none) (adjacentCaptures?_append_payload _))
    | some name =>
        have hnone : List.flatMap outerElements [.value (.payload (some name))] = [] := rfl
        rw [hnone, List.append_nil]

theorem countP_outerElement (name : String) (item : PatternItem) :
    (outerElements item).countP (Element.captures name) =
      if item.value? == some (.field name) then 1 else 0 := by
  cases item with
  | alternatives branches => rfl
  | value v =>
      cases v with
      | constant text =>
          show (ofConstant text).countP _ = 0
          unfold ofConstant
          dsimp only
          split <;> rfl
      | field field =>
          show [Element.capture field false].countP _ = _
          by_cases hfield : field = name
          · simp [Element.captures, PatternItem.value?, hfield]
          · simp [Element.captures, PatternItem.value?, hfield]
      | payload alias? => cases alias? <;> rfl

theorem countP_outerElements (name : String) (run : Pattern) :
    (run.flatMap outerElements).countP (Element.captures name) = countField name run := by
  induction run with
  | nil => rfl
  | cons item run ih =>
      rw [List.flatMap_cons, List.countP_append, ih, countP_outerElement, countField, countField,
        List.countP_cons, Nat.add_comm]

/-- The chunk of a stretch. -/
def stretchChunk (part : List Pattern) : Chunk := ⟨part.map fun branch => branch.flatMap outerElements⟩

theorem countCaptures_stretchChunk (name : String) (part : List Pattern) :
    (stretchChunk part).countCaptures name = countField name part.flatten := by
  have hflatten : (part.map fun branch => branch.flatMap outerElements).flatten =
      part.flatten.flatMap outerElements := by
    induction part with
    | nil => rfl
    | cons branch part ih => rw [List.map_cons, List.flatten_cons, List.flatten_cons, List.flatMap_append, ih]
  rw [← countP_outerElements, Chunk.countCaptures, stretchChunk, hflatten]

/-! ### Chunks of stretches -/

/-- Every stretch has its chunk, unless it has no elements. -/
inductive Lays : List (List Pattern) → List Chunk → Prop
  | nil : Lays [] []
  | skip {run : Pattern} {parts : List (List Pattern)} {chunks : List Chunk}
      (hempty : run.flatMap outerElements = []) (hrest : Lays parts chunks) : Lays ([run] :: parts) chunks
  | keep {parts : List (List Pattern)} {chunks : List Chunk} (part : List Pattern)
      (hrest : Lays parts chunks) : Lays (part :: parts) (stretchChunk part :: chunks)

theorem Lays.plainChunk {parts : List (List Pattern)} {chunks : List Chunk} (h : Lays parts chunks)
    (run : Pattern) : Lays ([run] :: parts) (plainChunk (run.flatMap outerElements) ++ chunks) := by
  unfold Matching.plainChunk
  split
  · next hempty => exact .skip (List.isEmpty_iff.mp hempty) h
  · exact .keep [run] h

theorem Lays.append_inv {first second : List (List Pattern)} {chunks : List Chunk}
    (h : Lays (first ++ second) chunks) :
    ∃ left right, chunks = left ++ right ∧ Lays first left ∧ Lays second right := by
  induction first generalizing chunks with
  | nil => exact ⟨[], chunks, rfl, .nil, h⟩
  | cons part first ih =>
      cases h with
      | skip hempty hrest =>
          obtain ⟨left, right, rfl, hleft, hright⟩ := ih hrest
          exact ⟨left, right, rfl, .skip hempty hleft, hright⟩
      | keep _ hrest =>
          obtain ⟨left, right, rfl, hleft, hright⟩ := ih hrest
          exact ⟨stretchChunk part :: left, right, rfl, .keep part hleft, hright⟩

/-- A stretch whose alternatives all have elements has its chunk. -/
theorem Lays.cons_inv {part : List Pattern} {parts : List (List Pattern)} {chunks : List Chunk}
    (h : Lays (part :: parts) chunks) (hpart : ∀ branch ∈ part, branch.flatMap outerElements ≠ []) :
    ∃ others, chunks = stretchChunk part :: others ∧ Lays parts others := by
  cases h with
  | skip hempty hrest => exact absurd hempty (hpart _ (List.mem_singleton_self _))
  | keep _ hrest => exact ⟨_, rfl, hrest⟩

/-- What holds of the chunks without captures side by side holds of the stretches. -/
theorem Lays.apart_iff {parts : List (List Pattern)} {chunks : List Chunk} (h : Lays parts chunks) :
    (∀ chunk ∈ chunks, ∀ elements ∈ chunk.alternatives, adjacentCaptures? elements = none) ↔
      ∀ part ∈ parts, ∀ branch ∈ part, adjacentCaptures? (branch.flatMap outerElements) = none := by
  induction h with
  | nil => simp
  | @skip run parts chunks hempty hrest ih => simp [ih, hempty, adjacentCaptures?]
  | @keep parts chunks part hrest ih => simp [ih, stretchChunk]

/-- The chunks that capture a field are those of the stretches that capture it. -/
theorem Lays.filter_eq {parts : List (List Pattern)} {chunks : List Chunk} (h : Lays parts chunks)
    (name : String) : chunks.filter (fun chunk => chunk.countCaptures name != 0) =
      (parts.filter fun part => countField name part.flatten != 0).map stretchChunk := by
  induction h with
  | nil => rfl
  | @skip run parts chunks hempty hrest ih =>
      have hzero : countField name [run].flatten = 0 := by
        rw [List.flatten_singleton, ← countP_outerElements, hempty]
        rfl
      rw [List.filter_cons, hzero, ih]
      rfl
  | @keep parts chunks part hrest ih =>
      have hcount := countCaptures_stretchChunk name part
      rw [List.filter_cons, List.filter_cons, hcount, ih]
      split <;> rfl

/-- The alias can mark where the payload starts. -/
theorem aliasError?_eq_none_iff {parts : List (List Pattern)} {chunks : List Chunk} (h : Lays parts chunks)
    (name : String) : aliasError? name chunks = none ↔
      ∃ part, (parts.filter fun part => countField name part.flatten != 0) = [part] ∧
        countField name part.flatten = part.length := by
  unfold aliasError?
  rw [h.filter_eq]
  have hcount := countCaptures_stretchChunk name
  have hlength (part : List Pattern) : (stretchChunk part).alternatives.length = part.length :=
    List.length_map _
  generalize parts.filter (fun part => countField name part.flatten != 0) = found
  cases found with
  | nil => simp
  | cons part others =>
      cases others with
      | nil => simp [hcount, hlength]
      | cons other others =>
          simp only [List.map_cons, List.isEmpty_cons]
          split <;> simp

/-! ### Layouts -/

theorem payload_or (v : Value) : (∃ alias?, v = .payload alias?) ∨ ¬ v.isPayload = true := by
  cases v with
  | constant text => exact .inr Bool.false_ne_true
  | field name => exact .inr Bool.false_ne_true
  | payload alias? => exact .inl ⟨alias?, rfl⟩

theorem WellPlaced.tail {item : PatternItem} {p : Pattern} (h : WellPlaced (item :: p)) : WellPlaced p := by
  refine ⟨fun other hother => ?_, fun branches hmem => h.branches_plain branches (List.mem_cons_of_mem _ hmem)⟩
  cases p with
  | nil => cases hother
  | cons next rest => exact h.marker_last other (List.mem_cons_of_mem _ hother)

theorem WellPlaced.eq_nil_of_payload {alias? : Option String} {p : Pattern}
    (h : WellPlaced (.value (.payload alias?) :: p)) : p = [] := by
  cases p with
  | nil => rfl
  | cons next rest => exact absurd rfl (h.marker_last _ List.mem_cons_self)

theorem isPlain_of_ofBranch {branch : Pattern} {elements : Elements} (h : ofBranch branch = .ok elements) :
    IsPlain branch := by
  obtain ⟨parts, hparts, -⟩ := map_eq_ok.mp h
  intro item hitem
  obtain ⟨elements, helements⟩ := exists_of_mapM_eq_ok hparts hitem
  cases item with
  | alternatives branches => cases helements
  | value v =>
      refine ⟨v, rfl, ?_⟩
      cases v with
      | constant text => exact Bool.false_ne_true
      | field name => exact Bool.false_ne_true
      | payload alias? => cases helements

/-- A value that is no marker stands at the front of the elements. -/
theorem layout_value {v : Value} (hv : ¬ v.isPayload = true) (rest : Pattern) :
    layout (.value v :: rest) = (fun r => (outerElements (.value v) ++ r.1, r.2)) <$> layout rest := by
  cases v with
  | constant text => cases h : layout rest <;> simp [layout, h] <;> rfl
  | field name => cases h : layout rest <;> simp [layout, h] <;> rfl
  | payload alias? => exact absurd rfl hv

/-- A marker among the items of a stretch is the marker of the pattern. -/
theorem payload?_of_mem_stretches {p : Pattern} (h : WellPlaced p) {part : List Pattern}
    (hpart : part ∈ stretches p) {branch : Pattern} (hbranch : branch ∈ part) {alias? : Option String}
    (hmem : .value (.payload alias?) ∈ branch) : p.payload? = some alias? := by
  induction p generalizing part branch with
  | nil =>
      obtain rfl := List.mem_singleton.mp hpart
      obtain rfl := List.mem_singleton.mp hbranch
      cases hmem
  | cons item rest ih =>
      have ih := @ih h.tail
      cases item with
      | alternatives branches =>
          rcases List.mem_cons.mp hpart with rfl | hpart
          · obtain rfl := List.mem_singleton.mp hbranch
            cases hmem
          · rcases List.mem_cons.mp hpart with rfl | hpart
            · obtain ⟨v, hv, hnot⟩ := h.branches_plain _ List.mem_cons_self branch hbranch _ hmem
              cases hv
              exact absurd rfl hnot
            · exact ih hpart hbranch hmem
      | value v =>
          obtain ⟨other, rfl⟩ | hv := payload_or v
          · obtain rfl := h.eq_nil_of_payload
            obtain rfl := List.mem_singleton.mp hpart
            obtain rfl := List.mem_singleton.mp hbranch
            cases List.mem_singleton.mp hmem
            rfl
          · have hrest : Pattern.payload? (.value v :: rest) = Pattern.payload? rest := by
              cases v with
              | constant text => rfl
              | field name => rfl
              | payload alias? => exact absurd rfl hv
            rw [hrest]
            rcases List.mem_cons.mp hpart with rfl | hpart
            · obtain rfl := List.mem_singleton.mp hbranch
              rcases List.mem_cons.mp hmem with heq | hmem
              · cases heq
                exact absurd rfl hv
              · exact ih List.mem_cons_self List.mem_cons_self hmem
            · exact ih (List.mem_cons_of_mem _ hpart) hbranch hmem

/-- What a layout says about its pattern. -/
structure IsLayoutOf (p : Pattern) (front : Elements) (chunks : List Chunk) : Prop where
  placed : WellPlaced p
  front_eq : front = (runAndStretches p).1.flatMap outerElements
  lays : Lays (runAndStretches p).2 chunks
  runs : ∀ part ∈ stretches p, ∀ branch ∈ part, IsRun branch

theorem isLayoutOf_payload (alias? : Option String) :
    IsLayoutOf [.value (.payload alias?)] (if alias?.isNone then [.payload] else []) [] where
  placed := ⟨(fun _ h => nomatch h), fun _ h => by simp at h⟩
  front_eq := by cases alias? <;> rfl
  lays := .nil
  runs := by
    refine List.forall_mem_cons.mpr ⟨List.forall_mem_singleton.mpr ?_, fun _ h => nomatch h⟩
    exact ⟨[], _, rfl, (fun _ h => nomatch h), .inr ⟨alias?, rfl⟩⟩

theorem IsLayoutOf.value {p : Pattern} {front : Elements} {chunks : List Chunk}
    (h : IsLayoutOf p front chunks) {v : Value} (hv : ¬ v.isPayload = true) :
    IsLayoutOf (.value v :: p) (outerElements (.value v) ++ front) chunks := by
  refine ⟨⟨fun item hitem => ?_, fun branches hmem => ?_⟩, ?_, h.lays, ?_⟩
  · cases p with
    | nil => cases hitem
    | cons next rest =>
        rcases List.mem_cons.mp hitem with rfl | hitem
        · exact hv
        · exact h.placed.marker_last item hitem
  · exact h.placed.branches_plain branches (by simpa using hmem)
  · rw [h.front_eq]
    rfl
  · obtain ⟨hrun, hothers⟩ := List.forall_mem_cons.mp h.runs
    refine List.forall_mem_cons.mpr ⟨?_, hothers⟩
    exact List.forall_mem_singleton.mpr ((List.forall_mem_singleton.mp hrun).cons hv)

theorem IsLayoutOf.group {p : Pattern} {front : Elements} {chunks : List Chunk}
    (h : IsLayoutOf p front chunks) {branches : List Pattern} (hplain : ∀ branch ∈ branches, IsPlain branch) :
    IsLayoutOf (.alternatives branches :: p) []
      (groupChunk branches :: Matching.plainChunk front ++ chunks) := by
  have hchunk : stretchChunk branches = groupChunk branches := by
    unfold stretchChunk groupChunk
    congr 1
    exact List.map_congr_left fun branch hbranch => flatMap_outerElements (hplain branch hbranch)
  refine ⟨⟨fun item hitem => ?_, fun others hmem => ?_⟩, rfl, ?_, ?_⟩
  · cases p with
    | nil => cases hitem
    | cons next rest =>
        rcases List.mem_cons.mp hitem with rfl | hitem
        · exact Bool.false_ne_true
        · exact h.placed.marker_last item hitem
  · rcases List.mem_cons.mp hmem with heq | hmem
    · cases heq
      exact hplain
    · exact h.placed.branches_plain others hmem
  · rw [h.front_eq, ← hchunk]
    exact .keep branches (h.lays.plainChunk _)
  · refine List.forall_mem_cons.mpr ⟨?_, List.forall_mem_cons.mpr ⟨?_, h.runs⟩⟩
    · exact List.forall_mem_singleton.mpr (IsPlain.isRun fun _ h => nomatch h)
    · exact fun branch hbranch => (hplain branch hbranch).isRun

theorem isLayoutOf_of_layout {p : Pattern} {front : Elements} {chunks : List Chunk}
    (h : layout p = .ok (front, chunks)) : IsLayoutOf p front chunks := by
  induction p generalizing front chunks with
  | nil =>
      cases h
      refine ⟨⟨(fun _ h => nomatch h), fun _ h => nomatch h⟩, rfl, .nil, ?_⟩
      refine List.forall_mem_cons.mpr ⟨List.forall_mem_singleton.mpr ?_, fun _ h => nomatch h⟩
      exact IsPlain.isRun fun _ h => nomatch h
  | cons item rest ih =>
      cases item with
      | alternatives branches =>
          obtain ⟨alternatives, halternatives, h⟩ := bind_eq_ok.mp h
          obtain ⟨⟨others, behind⟩, hrest, heq⟩ := bind_eq_ok.mp h
          have hplain : ∀ branch ∈ branches, IsPlain branch := by
            intro branch hbranch
            obtain ⟨elements, helements⟩ := exists_of_mapM_eq_ok halternatives hbranch
            exact isPlain_of_ofBranch helements
          obtain rfl := Except.ok.inj (halternatives.symm.trans (mapM_ofBranch hplain))
          cases heq
          exact (ih hrest).group hplain
      | value v =>
          obtain ⟨alias?, rfl⟩ | hv := payload_or v
          · rw [layout] at h
            split at h
            · next hempty =>
                cases h
                obtain rfl := List.isEmpty_iff.mp hempty
                exact isLayoutOf_payload alias?
            · cases h
          · rw [layout_value hv] at h
            obtain ⟨⟨others, behind⟩, hrest, heq⟩ := map_eq_ok.mp h
            cases heq
            exact (ih hrest).value hv

/-- A pattern has a layout when its marker comes last and its branches are plain. -/
theorem exists_layout {p : Pattern} (h : WellPlaced p) : ∃ front chunks, layout p = .ok (front, chunks) := by
  induction p with
  | nil => exact ⟨[], [], rfl⟩
  | cons item rest ih =>
      obtain ⟨front, chunks, hlayout⟩ := ih h.tail
      cases item with
      | alternatives branches =>
          have hplain := h.branches_plain branches List.mem_cons_self
          refine ⟨[], (groupChunk branches :: Matching.plainChunk front ++ chunks), ?_⟩
          rw [layout, mapM_ofBranch hplain, hlayout]
          rfl
      | value v =>
          obtain ⟨alias?, rfl⟩ | hv := payload_or v
          · obtain rfl := h.eq_nil_of_payload
            exact ⟨_, _, rfl⟩
          · refine ⟨outerElements (.value v) ++ front, chunks, ?_⟩
            rw [layout_value hv, hlayout]
            rfl

/-! ### Acceptance -/

/-- The chunks of a pattern are those of its stretches. -/
theorem lays_of_chunksOf {p : Pattern} {chunks : List Chunk} (h : chunksOf p = .ok chunks) :
    WellPlaced p ∧ Lays (stretches p) chunks ∧ ∀ part ∈ stretches p, ∀ branch ∈ part, IsRun branch := by
  obtain ⟨⟨front, behind⟩, hlayout, heq⟩ := bind_eq_ok.mp h
  obtain ⟨hplaced, hfront, hlays, hruns⟩ := isLayoutOf_of_layout hlayout
  refine ⟨hplaced, ?_, hruns⟩
  have hall := hlays.plainChunk (runAndStretches p).1
  rw [← hfront] at hall
  cases heq
  split
  · -- without elements the first stretch stands for all of them
    next hempty =>
      obtain ⟨hplain, hbehind⟩ := List.append_eq_nil_iff.mp (List.isEmpty_iff.mp hempty)
      have hnil : front = [] := by
        cases front with
        | nil => rfl
        | cons e rest => cases hplain
      rw [hbehind] at hlays
      have hkeep := hlays.keep [(runAndStretches p).1]
      rwa [stretchChunk, List.map_singleton, ← hfront, hnil] at hkeep
  · exact hall

theorem ofChunks_isOk_iff {p : Pattern} {chunks : List Chunk} :
    (∃ matcher, ofChunks p.payload? chunks = .ok matcher) ↔
      (∀ chunk ∈ chunks, ∀ elements ∈ chunk.alternatives, adjacentCaptures? elements = none) ∧
        ∀ name ∈ alias? p, aliasError? name chunks = none := by
  rw [← findSome?_adjacentCaptures?_iff]
  unfold ofChunks alias?
  cases (chunks.flatMap Chunk.alternatives).findSome? adjacentCaptures? with
  | some pair => exact iff_of_false (fun ⟨_, h⟩ => nomatch h) (fun h => nomatch h.1)
  | none =>
      rcases p.payload? with _ | _ | name
      · simp
      · simp
      · by_cases hstart : name = startAlias
        · simp [hstart]
        · cases herror : aliasError? name chunks <;> simp [hstart, herror]

theorem countMarkers_le_one_of_last {p : Pattern} (h : ∀ item ∈ p.dropLast, ¬ IsMarker item) :
    countMarkers p ≤ 1 := by
  have hzero : p.dropLast.countP (fun item => item.value?.any Value.isPayload) = 0 := List.countP_eq_zero.mpr h
  have hlength : (p.drop (p.length - 1)).length ≤ 1 := by
    rw [List.length_drop]
    omega
  have hsplit : p = p.dropLast ++ p.drop (p.length - 1) := by
    rw [List.dropLast_eq_take, List.take_append_drop]
  rw [countMarkers, hsplit, List.countP_append, hzero, Nat.zero_add]
  exact List.countP_le_length.trans hlength

theorem countField_append (name : String) (first second : Pattern) :
    countField name (first ++ second) = countField name first + countField name second := List.countP_append

theorem countField_flatten_le {name : String} {part : List Pattern}
    (h : ∀ branch ∈ part, countField name branch ≤ 1) : countField name part.flatten ≤ part.length := by
  induction part with
  | nil => exact Nat.le_refl 0
  | cons branch part ih =>
      obtain ⟨hbranch, hpart⟩ := List.forall_mem_cons.mp h
      have ih := ih hpart
      rw [List.flatten_cons, countField_append, List.length_cons]
      omega

/-- Alternatives that capture a field at most once capture it as often as they are when each does. -/
theorem countField_flatten_eq_length_iff {name : String} {part : List Pattern}
    (h : ∀ branch ∈ part, countField name branch ≤ 1) :
    countField name part.flatten = part.length ↔ ∀ branch ∈ part, countField name branch = 1 := by
  induction part with
  | nil => simp [countField]
  | cons branch part ih =>
      obtain ⟨hbranch, hpart⟩ := List.forall_mem_cons.mp h
      have hle := countField_flatten_le hpart
      rw [List.flatten_cons, countField_append, List.length_cons, List.forall_mem_cons, ← ih hpart]
      omega

theorem capturedInEach_iff {name : String} {p : Pattern}
    (h : ∀ part ∈ stretches p, ∀ branch ∈ part, countField name branch ≤ 1) :
    CapturedInEach name p ↔ CapturedAsOften name p := by
  refine exists_congr fun part => and_congr_right fun hpart => ?_
  have hmem : part ∈ capturing name p := hpart ▸ List.mem_singleton_self part
  exact (countField_flatten_eq_length_iff (h part (List.mem_filter.mp hmem).1)).symm

/-- The matcher of a pattern is made of the chunks of its stretches. -/
theorem exists_ofChunks {p : Pattern} {matcher : Matcher} (h : Matcher.ofPattern p = .ok matcher) :
    ∃ chunks, WellPlaced p ∧ Lays (stretches p) chunks ∧
      (∀ part ∈ stretches p, ∀ branch ∈ part, IsRun branch) ∧ ofChunks p.payload? chunks = .ok matcher := by
  rw [ofPattern_eq] at h
  split at h
  · cases h
  · obtain ⟨chunks, hchunks, hmatcher⟩ := bind_eq_ok.mp h
    obtain ⟨hplaced, hlays, hruns⟩ := lays_of_chunksOf hchunks
    exact ⟨chunks, hplaced, hlays, hruns, hmatcher⟩

/-- The matcher of a pattern with an alias. -/
theorem exists_lays_of_ofPattern {p : Pattern} {matcher : Matcher} (h : Matcher.ofPattern p = .ok matcher)
    {name : String} (hname : name ∈ alias? p) :
    ∃ chunks, WellPlaced p ∧ Lays (stretches p) chunks ∧ matcher = ⟨chunks.map (Chunk.mark name), false⟩ := by
  obtain ⟨chunks, hplaced, hlays, -, hmatcher⟩ := exists_ofChunks h
  refine ⟨chunks, hplaced, hlays, ?_⟩
  obtain ⟨hpayload, hstart⟩ := Option.filter_eq_some_iff.mp hname
  rw [Option.join_eq_some_iff] at hpayload
  have hne : name ≠ startAlias := by simpa using hstart
  unfold ofChunks at hmatcher
  rw [hpayload] at hmatcher
  split at hmatcher
  · cases hmatcher
  · next heq =>
    cases heq
    rw [if_neg hne] at hmatcher
    split at hmatcher
    · cases hmatcher
    · exact (Except.ok.inj hmatcher).symm
  · next hnone => exact absurd rfl (hnone name)

/-- **Accepted patterns.** A pattern has a matcher when nothing keeps a message from being cut along it and an
alias is captured in one stretch, as often as that has alternatives. If no alternative captures the alias twice,
then each has to capture it. -/
theorem ofPattern_accepts_iff (p : Pattern) :
    ((∃ matcher, Matcher.ofPattern p = .ok matcher) ↔
      Matchable p ∧ ∀ name ∈ alias? p, CapturedAsOften name p) ∧
    ((∀ name ∈ alias? p, ∀ part ∈ stretches p, ∀ branch ∈ part, countField name branch ≤ 1) →
      ((∃ matcher, Matcher.ofPattern p = .ok matcher) ↔
        Matchable p ∧ ∀ name ∈ alias? p, CapturedInEach name p)) := by
  have haccepts : (∃ matcher, Matcher.ofPattern p = .ok matcher) ↔
      Matchable p ∧ ∀ name ∈ alias? p, CapturedAsOften name p := by
    rw [ofPattern_eq]
    constructor
    · rintro ⟨matcher, h⟩
      split at h
      · cases h
      · obtain ⟨chunks, hchunks, hmatcher⟩ := bind_eq_ok.mp h
        obtain ⟨hplaced, hlays, hruns⟩ := lays_of_chunksOf hchunks
        obtain ⟨hapart, halias⟩ := ofChunks_isOk_iff.mp ⟨matcher, hmatcher⟩
        refine ⟨⟨hplaced, fun part hpart branch hbranch => ?_⟩,
          fun name hname => (aliasError?_eq_none_iff hlays name).mp (halias name hname)⟩
        have hnone := hlays.apart_iff.mp hapart part hpart branch hbranch
        exact (hruns part hpart branch hbranch).adjacentCaptures?_iff.mp hnone
    · rintro ⟨⟨hplaced, hapart⟩, halias⟩
      obtain ⟨front, behind, hlayout⟩ := exists_layout hplaced
      obtain ⟨chunks, hchunks⟩ : ∃ chunks, chunksOf p = .ok chunks := ⟨_, bind_eq_ok.mpr ⟨_, hlayout, rfl⟩⟩
      obtain ⟨-, hlays, hruns⟩ := lays_of_chunksOf hchunks
      have hcount := countMarkers_le_one_of_last hplaced.marker_last
      rw [if_neg (by omega), hchunks]
      refine ofChunks_isOk_iff.mpr ⟨hlays.apart_iff.mpr fun part hpart branch hbranch => ?_,
        fun name hname => (aliasError?_eq_none_iff hlays name).mpr (halias name hname)⟩
      exact (hruns part hpart branch hbranch).adjacentCaptures?_iff.mpr (hapart part hpart branch hbranch)
  refine ⟨haccepts, fun honce => haccepts.trans (and_congr_right fun _ => ?_)⟩
  exact forall₂_congr fun name hname => (capturedInEach_iff (honce name hname)).symm

/-- `{<id> x|y <id>}: <!payload:id>` -/
def idInEachBranch : Pattern :=
  [.alternatives [[.value (.field "id"), .value (.constant " x")],
    [.value (.constant "y "), .value (.field "id")]], .value (.constant ": "), .value (.payload (some "id"))]

theorem ofPattern_accepts_idInEachBranch :
    ∃ matcher, Matcher.ofPattern idInEachBranch = .ok matcher ∧ Matchable idInEachBranch ∧
      ∀ name ∈ alias? idInEachBranch, CapturedInEach name idInEachBranch := by
  have hsome : (Matcher.ofPattern idInEachBranch).toOption.isSome = true := by decide +kernel
  obtain ⟨matcher, hmatcher⟩ := Option.isSome_iff_exists.mp hsome
  have haccepted := eq_ok_of_toOption hmatcher
  exact ⟨matcher, haccepted, ((ofPattern_accepts_iff idInEachBranch).2 (by decide)).mp ⟨matcher, haccepted⟩⟩

/-- `{<a>x<a>|y}<!payload:a>`: as many captures as branches, but none in the second. -/
def twiceInOneBranch : Pattern :=
  [.alternatives [[.value (.field "a"), .value (.constant "x"), .value (.field "a")],
    [.value (.constant "y")]], .value (.payload (some "a"))]

theorem not_forall_capturedInEach : ¬ ∀ (p : Pattern) (matcher : Matcher),
    Matcher.ofPattern p = .ok matcher → ∀ name ∈ alias? p, CapturedInEach name p := by
  intro h
  have haccepted : Matcher.ofPattern twiceInOneBranch =
      .ok ⟨[⟨[[.capture "a" true, .constant [120], .capture "a" true], [.constant [121]]]⟩], false⟩ :=
    eq_ok_of_toOption (by decide +kernel)
  obtain ⟨part, hpart, heach⟩ := h _ _ haccepted "a" (by decide)
  have hcapturing : capturing "a" twiceInOneBranch =
      [[[.value (.field "a"), .value (.constant "x"), .value (.field "a")], [.value (.constant "y")]]] := rfl
  obtain rfl := List.singleton_inj.mp (hcapturing.symm.trans hpart)
  have hnone := heach [.value (.constant "y")] (by simp)
  exact absurd hnone (by decide)

end LogRules.Matching

import LogRules.Proofs.Matching.Routes

/-! # Round trips through groups

When no branch before a chosen one can be placed, the matcher places the pieces along a route as if they were
one alternative (`Route.takes_iff_place?`). So a route in an anchored pattern, in which no constant behind a
field occurs early, is given back exactly when no steps along it clash (`Route.givesBack_iff`). They clash when
a constant of spaces follows a constant that takes all spaces, across an end of a branch, or when a field that
ends at a space follows a constant that leaves one. -/

namespace LogRules.Matching

namespace Route

/-! ### Placing along a route -/

theorem length_plainNumbers (pieces : List Piece) :
    (plainNumbers pieces).length = (plainChunk (elementsOf pieces)).length := by
  unfold plainNumbers plainChunk
  split <;> rfl

theorem length_numbers (r : Route) : r.numbers.length = r.chunks.length := by
  simp [numbers, chunks, Choice.numbers, Choice.chunks, length_plainNumbers, List.length_flatMap]

/-- The first chunks are placed by the matcher of the pattern in front of the next group. -/
theorem exists_run_of_takes {r : Route} (hplain : r.BranchesPlain) (hapart : r.Apart)
    {message : List UInt8} {p : Placement} (hpayload : p.payload? = none)
    (h : Takes message 0 0 r.chunks r.numbers p) :
    ∃ matcher, Matcher.ofPattern r.pattern = .ok matcher ∧
      matcher.run message = some ⟨p.captures, p.stop⟩ := by
  refine ⟨_, (ofPattern_eq_ok_iff hplain).mpr ⟨hapart, rfl⟩, ?_⟩
  have hplace : (placeChunks 0 0 message r.matcherChunks).2 = some p :=
    (r.placeChunks_matcherChunks message).trans h.1
  refine Option.map_eq_some_iff.mpr ⟨p, hplace, ?_⟩
  rw [hpayload]
  rfl

/-- The chunks of one more choice are placed like the elements of its pieces. -/
theorem takes_choice_iff {choice : Choice} {message : List UInt8} {number pos : Nat} {p : Placement}
    (hfirst : ∀ branch ∈ choice.before,
      place? (branch.flatMap innerElements) pos pos (message.drop pos) = none)
    (hend : EndsInCapture (elementsOf choice.taken) → elementsOf choice.behind = []) :
    Takes message number pos choice.chunks choice.numbers p ↔
      place? (elementsOf choice.pieces) pos pos (message.drop pos) = some p := by
  have hgroup : ∀ q, Takes message number pos [groupChunk choice.branches] [choice.before.length] q ↔
      place? (elementsOf choice.taken) pos pos (message.drop pos) = some q := by
    intro q
    have hchunk : groupChunk choice.branches = ⟨choice.before.map (fun b => b.flatMap innerElements) ++
        elementsOf choice.taken :: choice.after.map fun b => b.flatMap innerElements⟩ := by
      rw [groupChunk, Choice.branches, List.map_append, List.map_cons, flatMap_innerElements_patternOf]
    have htakes := @takes_alternative message number pos
      (choice.before.map fun b => b.flatMap innerElements)
      (choice.after.map fun b => b.flatMap innerElements) (elementsOf choice.taken) q
      (List.forall_mem_map.mpr hfirst)
    rwa [List.length_map, ← hchunk] at htakes
  have hchunks : choice.chunks = [groupChunk choice.branches] ++ plainChunk (elementsOf choice.behind) := rfl
  have hnumbers : choice.numbers = [choice.before.length] ++ plainNumbers choice.behind := rfl
  have helements : elementsOf choice.pieces = elementsOf choice.taken ++ elementsOf choice.behind :=
    List.flatMap_append
  rw [hchunks, hnumbers, helements, takes_append_of_length rfl,
    place?_append (unmarked_elementsOf _) (unmarked_elementsOf _) hend]
  refine exists_congr fun q => exists_congr fun s => ?_
  rw [hgroup, plainNumbers, takes_plainChunk]

/-- **Along a route** the chunks are placed like one alternative. -/
theorem takes_iff_place? {opening : List Piece} {choices : List Choice} {message : List UInt8}
    (hplain : (mk opening choices).BranchesPlain) (hapart : (mk opening choices).Apart)
    (hanchored : (mk opening choices).pattern.Anchored)
    (hclosed : FieldsClosed (mk opening choices).pieces)
    (hfirst : (mk opening choices).TakesFirst message) (p : Placement) :
    Takes message 0 0 (mk opening choices).chunks (mk opening choices).numbers p ↔
      place? (elementsOf (mk opening choices).pieces) 0 0 message = some p := by
  induction choices using List.reverseRecOn generalizing p with
  | nil =>
      have hchunks : (mk opening []).chunks = plainChunk (elementsOf opening) := List.append_nil _
      have hnumbers : (mk opening []).numbers = plainNumbers opening := List.append_nil _
      have hpieces : (mk opening []).pieces = opening := List.append_nil _
      rw [hchunks, hnumbers, hpieces]
      exact takes_plainChunk
  | append_singleton choices choice ih =>
      obtain ⟨hpattern, hpieces, hchunks, hnumbers⟩ := concat_frame opening choices choice
      have hplain' : (mk opening choices).BranchesPlain :=
        fun c hc => hplain c (List.mem_append_left _ hc)
      have hapart' : (mk opening choices).Apart := by
        intro chunk hchunk
        exact hapart chunk (hchunks ▸ List.mem_append_left _ hchunk)
      rw [hpattern] at hanchored
      rw [hpieces] at hclosed
      have hclosed' := List.IsChain.left_of_append hclosed
      have hfirst' : (mk opening choices).TakesFirst message := by
        rintro done c rest rfl
        exact hfirst done c (rest ++ [choice]) (by simp)
      have hstart := ih hplain' hapart' hanchored.left_of_append hclosed' hfirst'
      have hend : EndsInCapture (elementsOf (mk opening choices).pieces) →
          elementsOf choice.pieces = [] := by
        intro hcapture
        obtain ⟨piece, hlast, hfield⟩ := exists_isField_of_endsInCapture hclosed' hcapture
        exact absurd hfield (not_isField_of_getLast? hanchored piece hlast)
      have hendtaken : EndsInCapture (elementsOf choice.taken) → elementsOf choice.behind = [] := by
        intro hcapture
        have htaken : FieldsClosed choice.taken :=
          List.IsChain.left_of_append (List.IsChain.right_of_append hclosed)
        obtain ⟨piece, hlast, hfield⟩ := exists_isField_of_endsInCapture htaken hcapture
        rw [behind_eq_nil_of_isField hanchored hlast hfield]
        rfl
      have helements : elementsOf ((mk opening choices).pieces ++ choice.pieces) =
          elementsOf (mk opening choices).pieces ++ elementsOf choice.pieces := List.flatMap_append
      rw [hchunks, hnumbers, hpieces, helements, takes_append_of_length (length_numbers _)]
      have happend := @place?_append _ _ (unmarked_elementsOf (mk opening choices).pieces)
        (unmarked_elementsOf choice.pieces) hend message 0 0 p
      rw [List.drop_zero] at happend
      rw [happend]
      refine exists_congr fun q => exists_congr fun s => ?_
      rw [hstart]
      refine and_congr_right fun hq => and_congr_left' (takes_choice_iff ?_ hendtaken)
      -- the group is tried where the pattern in front of it ends
      obtain ⟨matcher, hmatcher, hrun⟩ := exists_run_of_takes hplain' hapart'
        (payload?_eq_none (unmarked_elementsOf _) hq) ((hstart q).mpr hq)
      intro branch hbranch
      have hmem : branch ∈ choice.branches := List.mem_append_left _ hbranch
      have hbranchapart : adjacentCaptures? (branch.flatMap innerElements) = none :=
        hapart (groupChunk choice.branches) (hchunks ▸ List.mem_append_right _ List.mem_cons_self) _
          (List.mem_map_of_mem hmem)
      exact place?_eq_none_of_not_matches (hplain choice (by simp) branch hmem) hbranchapart
        (hfirst choices choice [] rfl matcher _ hmatcher hrun branch hbranch) q.stop

/-! ### The exact condition -/

theorem fieldsClosed_of_mem {r : Route} (h : FieldsClosed r.pieces) {choice : Choice}
    (hchoice : choice ∈ r.choices) : FieldsClosed choice.taken ∧ FieldsClosed choice.behind := by
  obtain ⟨done, rest, hchoices⟩ := List.append_of_mem hchoice
  have hpieces : FieldsClosed (r.choices.flatMap Choice.pieces) := List.IsChain.right_of_append h
  rw [hchoices, List.flatMap_append, List.flatMap_cons] at hpieces
  have hchoice : FieldsClosed choice.pieces :=
    List.IsChain.left_of_append (List.IsChain.right_of_append hpieces)
  exact ⟨List.IsChain.left_of_append hchoice, List.IsChain.right_of_append hchoice⟩

/-- Only a branch that is not chosen can have two captures side by side. -/
theorem apart_iff {r : Route} (hplain : r.BranchesPlain) (hclosed : FieldsClosed r.pieces) :
    r.Apart ↔ ∀ choice ∈ r.choices, ∀ branch ∈ choice.before ++ choice.after,
      ¬ LeavesFieldsSideBySide branch := by
  have hbranches : ∀ choice : Choice, ∀ branch ∈ choice.before ++ choice.after,
      branch ∈ choice.branches := by
    intro choice branch hbranch
    rcases List.mem_append.mp hbranch with hbefore | hafter
    · exact List.mem_append_left _ hbefore
    · exact List.mem_append_right _ (List.mem_cons_of_mem _ hafter)
  constructor
  · intro hapart choice hchoice branch hbranch
    have hmem := hbranches choice branch hbranch
    refine (adjacentCaptures?_branch_iff (hplain choice hchoice branch hmem)).mp ?_
    exact hapart (groupChunk choice.branches)
      (List.mem_append_right _ (List.mem_flatMap.mpr ⟨choice, hchoice, List.mem_cons_self⟩)) _
      (List.mem_map_of_mem hmem)
  · intro hothers chunk hchunk
    rcases List.mem_append.mp hchunk with hopening | hchoices
    · exact adjacentCaptures?_plainChunk
        (adjacentCaptures?_of_fieldsClosed (List.IsChain.left_of_append hclosed)) chunk hopening
    · obtain ⟨choice, hchoice, hmem⟩ := List.mem_flatMap.mp hchoices
      obtain ⟨htaken, hbehind⟩ := fieldsClosed_of_mem hclosed hchoice
      rcases List.mem_cons.mp hmem with rfl | hplainChunk
      · rintro elements helements
        obtain ⟨branch, hbranch, rfl⟩ := List.mem_map.mp helements
        have hiff := adjacentCaptures?_branch_iff (hplain choice hchoice branch hbranch)
        rcases List.mem_append.mp hbranch with hbefore | hrest
        · exact hiff.mpr (hothers choice hchoice branch (List.mem_append_left _ hbefore))
        · rcases List.mem_cons.mp hrest with rfl | hafter
          · rw [flatMap_innerElements_patternOf]
            exact adjacentCaptures?_of_fieldsClosed htaken
          · exact hiff.mpr (hothers choice hchoice branch (List.mem_append_right _ hafter))
      · exact adjacentCaptures?_plainChunk (adjacentCaptures?_of_fieldsClosed hbehind) chunk hplainChunk

theorem matcherChunks_of_ne_nil {r : Route} (h : r.choices ≠ []) : r.matcherChunks = r.chunks := by
  obtain ⟨choice, rest, hchoices⟩ := List.exists_cons_of_ne_nil h
  refine if_neg fun hempty => ?_
  rw [chunks, hchoices, List.flatMap_cons, Choice.chunks] at hempty
  simp at hempty

/-- **Round trips through groups.** The pattern is anchored, the fillers are not empty and have no spaces at
their ends, no constant behind a field occurs early, and no branch before a chosen one matches where its group
is tried. Such a route is given back unless steps along it clash, or a branch that is not chosen leaves two
fields side by side, so that there is no matcher. -/
theorem givesBack_iff (r : Route) (hgroups : r.choices ≠ []) (hplain : r.BranchesPlain)
    (hanchored : r.pattern.Anchored) (hfillers : FillersTidy r.pieces) (hends : EndsInTime r.pieces)
    (hfirst : r.TakesFirst r.message) :
    r.GivesBack ↔ ((stepsOf r.pieces).IsChain fun a b => ¬ a.Clashes b) ∧
      ∀ choice ∈ r.choices, ∀ branch ∈ choice.before ++ choice.after,
        ¬ LeavesFieldsSideBySide branch := by
  have hclosed := fieldsClosed_pieces hanchored hfillers hends
  rw [← finds_iff_of_pieces hclosed hfillers hends, ← apart_iff hplain hclosed]
  constructor
  · rintro ⟨matcher, found, hmatcher, hrun, hnumbers, htexts⟩
    obtain ⟨hapart, rfl⟩ := (ofPattern_eq_ok_iff hplain).mp hmatcher
    rw [matcherChunks_of_ne_nil hgroups] at hrun hnumbers
    obtain ⟨p, hp, rfl⟩ := Option.map_eq_some_iff.mp hrun
    have hplace := (takes_iff_place? hplain hapart hanchored hclosed hfirst p).mp ⟨hp, hnumbers⟩
    exact ⟨⟨p, hplace, htexts⟩, hapart⟩
  · rintro ⟨⟨p, hplace, htexts⟩, hapart⟩
    obtain ⟨hp, hnumbers⟩ := (takes_iff_place? hplain hapart hanchored hclosed hfirst p).mpr hplace
    refine ⟨_, ⟨p.captures, p.payload?.getD p.stop⟩, (ofPattern_eq_ok_iff hplain).mpr ⟨hapart, rfl⟩, ?_,
      ?_, htexts⟩
    · rw [matcherChunks_of_ne_nil hgroups]
      exact Option.map_eq_some_iff.mpr ⟨p, hp, rfl⟩
    · rw [matcherChunks_of_ne_nil hgroups]
      exact hnumbers

/-- The pattern `<u>: {x|y} {c|<d>}` and the message `k: y 1`. -/
def colonAndGroups : Route where
  opening := [.field "u" [107], .constant ": "]
  choices := [⟨[[.value (.constant "x")]], [.constant "y"], [], [.constant " "]⟩,
    ⟨[[.value (.constant "c")]], [.field "d" [49]], [], []⟩]

theorem anchored_colonAndGroups : colonAndGroups.pattern.Anchored := by
  refine ⟨?_, ?_, ?_⟩
  · simp [Pattern.FieldsAnchored, pattern, colonAndGroups, patternOf, Choice.items, Piece.item,
      PatternItem.isField, PatternItem.IsAnchor]
  · simp [Pattern.FieldsAnchored, pattern, colonAndGroups, patternOf, Choice.items, Choice.branches,
      Piece.item]
  · simp [pattern, colonAndGroups, patternOf, Choice.items, Choice.branches, Piece.item,
      Pattern.endsInField, PatternItem.isField]

/-- Neither `x` nor `c` is where its group is tried. -/
theorem takesFirst_colonAndGroups : colonAndGroups.TakesFirst colonAndGroups.message := by
  intro done choice rest hchoices matcher found hmatcher hrun branch hbranch
  rcases done with _ | ⟨first, _ | ⟨second, done⟩⟩
  · obtain ⟨rfl, -⟩ := List.cons.inj hchoices
    obtain rfl := List.mem_singleton.mp hbranch
    have hfront : Matcher.ofPattern (mk colonAndGroups.opening []).pattern =
        .ok ⟨[⟨[[.capture "u" false, .constant [58]]]⟩], false⟩ :=
      eq_ok_of_toOption (by decide +kernel)
    cases hfront.symm.trans hmatcher
    have hfound : found = ⟨[⟨"u", 0, 1⟩], 3⟩ := Option.some.inj (hrun.symm.trans (by decide))
    have hx : Matcher.ofPattern [.value (.constant "x")] = .ok ⟨[⟨[[.constant [120]]]⟩], false⟩ :=
      eq_ok_of_toOption (by decide +kernel)
    rw [hfound]
    exact not_matches_of_run hx (by decide)
  · obtain ⟨rfl, htail⟩ := List.cons.inj hchoices
    obtain ⟨rfl, -⟩ := List.cons.inj htail
    obtain rfl := List.mem_singleton.mp hbranch
    have hfront : Matcher.ofPattern (mk colonAndGroups.opening
        [⟨[[.value (.constant "x")]], [.constant "y"], [], [.constant " "]⟩]).pattern =
        .ok ⟨[⟨[[.capture "u" false, .constant [58]]]⟩, ⟨[[.constant [120]], [.constant [121]]]⟩,
          ⟨[[.constant [32]]]⟩], false⟩ :=
      eq_ok_of_toOption (by decide +kernel)
    cases hfront.symm.trans hmatcher
    have hfound : found = ⟨[⟨"u", 0, 1⟩], 5⟩ := Option.some.inj (hrun.symm.trans (by decide))
    have hc : Matcher.ofPattern [.value (.constant "c")] = .ok ⟨[⟨[[.constant [99]]]⟩], false⟩ :=
      eq_ok_of_toOption (by decide +kernel)
    rw [hfound]
    exact not_matches_of_run hc (by decide)
  · have hlength := congrArg List.length hchoices
    simp [colonAndGroups] at hlength

/-- The space between the groups is still there behind `y`, and the second branches are taken. -/
theorem givesBack_colonAndGroups : colonAndGroups.GivesBack := by
  refine (givesBack_iff colonAndGroups (by decide) ?_ anchored_colonAndGroups ?_ ?_
    takesFirst_colonAndGroups).mpr ⟨by decide, ?_⟩
  · simp [BranchesPlain, colonAndGroups, Choice.branches, IsPlain, patternOf, Piece.item,
      Value.isPayload]
  · unfold FillersTidy colonAndGroups
    simp only [pieces, List.flatMap_cons, List.flatMap_nil, Choice.pieces, List.cons_append,
      List.nil_append, List.append_nil, List.mem_cons, Piece.field.injEq, reduceCtorEq,
      List.not_mem_nil, or_false, false_or]
    rintro name filler (⟨rfl, rfl⟩ | ⟨rfl, rfl⟩) <;> decide
  · change EndsInTime [.field "u" [107], .constant ": ", .constant "y", .constant " ", .field "d" [49]]
    unfold EndsInTime
    iterate 5 rw [forall_field_cons]
    refine ⟨?_, ?_, ?_, ?_, ?_, ?_⟩
    · rintro _ _ _ _ ⟨⟩ ⟨⟩
      rw [occursEarly_iff (by decide)]
      decide
    · rintro _ _ _ _ ⟨⟩ ⟨⟩
    · rintro _ _ _ _ ⟨⟩ ⟨⟩
    · rintro _ _ _ _ ⟨⟩ ⟨⟩
    · rintro _ _ _ _ ⟨⟩ ⟨⟩
    · simp
  · simp [colonAndGroups, LeavesFieldsSideBySide, Pattern.FieldsApart, isEmptyConstant]

/-- The pattern `{<x>,|b} {c|d}` and the message `foo, c`. -/
def commaAndSpace : Route where
  opening := []
  choices := [⟨[], [.field "x" [102, 111, 111], .constant ","], [[.value (.constant "b")]],
      [.constant " "]⟩,
    ⟨[], [.constant "c"], [[.value (.constant "d")]], []⟩]

theorem anchored_commaAndSpace : commaAndSpace.pattern.Anchored := by
  refine ⟨?_, ?_, ?_⟩
  · simp [Pattern.FieldsAnchored, pattern, commaAndSpace, patternOf, Choice.items, Piece.item,
      PatternItem.isField]
  · simp [Pattern.FieldsAnchored, pattern, commaAndSpace, patternOf, Choice.items, Choice.branches,
      Piece.item, PatternItem.isField, PatternItem.IsAnchor]
  · simp [pattern, commaAndSpace, patternOf, Choice.items, Choice.branches, Piece.item,
      Pattern.endsInField, PatternItem.isField]

/-- The comma behind `foo` takes the space between the groups, too. -/
theorem not_forall_givesBack : ¬ ∀ r : Route, r.choices ≠ [] → r.BranchesPlain → r.pattern.Anchored →
    FillersTidy r.pieces → EndsInTime r.pieces → r.TakesFirst r.message → r.GivesBack := by
  intro h
  have hmatcher : Matcher.ofPattern commaAndSpace.pattern =
      .ok ⟨[⟨[[.capture "x" false, .constant [44]], [.constant [98]]]⟩, ⟨[[.constant [32]]]⟩,
        ⟨[[.constant [99]], [.constant [100]]]⟩], false⟩ :=
    eq_ok_of_toOption (by decide +kernel)
  have hgives := h commaAndSpace (by decide) ?_ anchored_commaAndSpace ?_ ?_ ?_
  · obtain ⟨matcher, found, hother, hrun, -⟩ := hgives
    cases hmatcher.symm.trans hother
    have hnone : Matcher.run ⟨[⟨[[.capture "x" false, .constant [44]], [.constant [98]]]⟩,
        ⟨[[.constant [32]]]⟩, ⟨[[.constant [99]], [.constant [100]]]⟩], false⟩ commaAndSpace.message =
        none := by
      decide
    cases hnone.symm.trans hrun
  · simp [BranchesPlain, commaAndSpace, Choice.branches, IsPlain, patternOf, Piece.item,
      Value.isPayload]
  · unfold FillersTidy commaAndSpace
    simp [pieces, Choice.pieces, Tidy, space]
  · change EndsInTime [.field "x" [102, 111, 111], .constant ",", .constant " ", .constant "c"]
    unfold EndsInTime
    iterate 4 rw [forall_field_cons]
    refine ⟨?_, ?_, ?_, ?_, ?_⟩
    · rintro _ _ _ _ ⟨⟩ ⟨⟩
      rw [occursEarly_iff (by decide)]
      decide
    · rintro _ _ _ _ ⟨⟩ ⟨⟩
    · rintro _ _ _ _ ⟨⟩ ⟨⟩
    · rintro _ _ _ _ ⟨⟩ ⟨⟩
    · simp
  · intro done choice rest hchoices matcher found _ _ branch hbranch
    have hmem : choice ∈ commaAndSpace.choices := hchoices ▸ by simp
    have hbefore : ∀ c ∈ commaAndSpace.choices, c.before = [] := by simp [commaAndSpace]
    rw [hbefore choice hmem] at hbranch
    cases hbranch

end Route

end LogRules.Matching

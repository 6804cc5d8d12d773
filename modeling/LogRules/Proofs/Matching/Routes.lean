import LogRules.Proofs.Matching.Accepted
import LogRules.Proofs.Matching.Chunks
import LogRules.Proofs.Matching.Steps
import LogRules.Proofs.Pattern.Anchored

/-! # Routes through the groups of a pattern

A route fills a pattern along one branch of each group. Its pattern has a matcher when no branch leaves two
fields side by side (`Route.ofPattern_eq_ok_iff`). In an anchored pattern every field along a route is followed
by its constant, unless nothing follows (`Route.fieldsClosed_pieces`). -/

namespace LogRules.Matching

/-! ### Branches -/

/-- The item is an empty constant. -/
def isEmptyConstant : PatternItem → Bool
  | .value (.constant text) => text == ""
  | _ => false

/-- Two fields of the branch have nothing but empty constants between them. -/
def LeavesFieldsSideBySide (branch : Pattern) : Prop :=
  ¬ Pattern.FieldsApart (branch.filter fun item => !isEmptyConstant item)

theorem flatMap_innerElements_filter (branch : Pattern) :
    (branch.filter fun item => !isEmptyConstant item).flatMap innerElements =
      branch.flatMap innerElements := by
  induction branch with
  | nil => rfl
  | cons item rest ih =>
      by_cases hempty : isEmptyConstant item = true
      · have hnone : innerElements item = [] := by
          cases item with
          | alternatives branches => rfl
          | value v =>
              cases v with
              | constant text =>
                  obtain rfl := eq_of_beq hempty
                  rfl
              | field name => cases hempty
              | payload alias? => cases hempty
        rw [List.filter_cons_of_neg (by simpa using hempty), ih, List.flatMap_cons, hnone,
          List.nil_append]
      · rw [List.filter_cons_of_pos (by simpa using hempty), List.flatMap_cons, ih, List.flatMap_cons]

theorem isFlat_filter {branch : Pattern} (h : IsPlain branch) :
    Pattern.IsFlat (branch.filter fun item => !isEmptyConstant item) := by
  intro item hitem
  obtain ⟨hmem, hkept⟩ := List.mem_filter.mp hitem
  obtain ⟨v, rfl, hv⟩ := h item hmem
  cases v with
  | constant text =>
      rintro rfl
      cases hkept
  | field name => exact trivial
  | payload alias? => exact absurd rfl hv

theorem isPlain_patternOf (pieces : List Piece) : IsPlain (patternOf pieces) := by
  intro item hitem
  obtain ⟨piece, -, rfl⟩ := List.mem_map.mp hitem
  cases piece with
  | constant text => exact ⟨_, rfl, Bool.false_ne_true⟩
  | field name filler => exact ⟨_, rfl, Bool.false_ne_true⟩

theorem exists_pieces {branch : Pattern} (h : IsPlain branch) :
    ∃ pieces, patternOf pieces = branch := by
  induction branch with
  | nil => exact ⟨[], rfl⟩
  | cons item rest ih =>
      obtain ⟨pieces, rfl⟩ := ih fun i hi => h i (List.mem_cons_of_mem _ hi)
      obtain ⟨v, rfl, hv⟩ := h item List.mem_cons_self
      cases v with
      | constant text => exact ⟨.constant text :: pieces, rfl⟩
      | field name => exact ⟨.field name [] :: pieces, rfl⟩
      | payload alias? => exact absurd rfl hv

theorem flatMap_innerElements_patternOf (pieces : List Piece) :
    (patternOf pieces).flatMap innerElements = elementsOf pieces := by
  rw [patternOf, List.flatMap_map, elementsOf]
  congr 1
  funext piece
  cases piece <;> rfl

/-- A branch has two captures side by side when it leaves two fields side by side. -/
theorem adjacentCaptures?_branch_iff {branch : Pattern} (h : IsPlain branch) :
    adjacentCaptures? (branch.flatMap innerElements) = none ↔ ¬ LeavesFieldsSideBySide branch := by
  rw [LeavesFieldsSideBySide, not_not, ← flatMap_innerElements_filter]
  constructor
  · intro hnone
    refine List.isChain_iff_forall_rel_of_append_cons_cons.mpr fun a b before rest heq hboth => ?_
    have hcapture : ∀ {item : PatternItem}, item.isField = true →
        ∃ name, innerElements item = [.capture name false] := by
      intro item hitem
      cases item with
      | alternatives branches => cases hitem
      | value v =>
          cases v with
          | constant text => cases hitem
          | field name => exact ⟨name, rfl⟩
          | payload alias? => cases hitem
    obtain ⟨name, ha⟩ := hcapture hboth.1
    obtain ⟨name', hb⟩ := hcapture hboth.2
    rw [heq, List.flatMap_append, List.flatMap_cons, List.flatMap_cons, ha, hb] at hnone
    exact adjacentCaptures?_append_ne_none _ _ _ _ hnone
  · exact fun hapart => (adjacentCaptures?_branch (isFlat_filter h) hapart).1

/-- The branch has a matcher that finds something in the message. -/
def Matches (branch : Pattern) (message : List UInt8) : Prop :=
  ∃ matcher found, Matcher.ofPattern branch = .ok matcher ∧ matcher.run message = some found

theorem not_matches_of_run {branch : Pattern} {matcher : Matcher} {message : List UInt8}
    (hmatcher : Matcher.ofPattern branch = .ok matcher) (hrun : matcher.run message = none) :
    ¬ Matches branch message := by
  rintro ⟨other, found, hother, hfound⟩
  cases hmatcher.symm.trans hother
  cases hrun.symm.trans hfound

/-- A branch that does not match cannot be placed, wherever the message starts. -/
theorem place?_eq_none_of_not_matches {branch : Pattern} (hplain : IsPlain branch)
    (hapart : adjacentCaptures? (branch.flatMap innerElements) = none) {message : List UInt8}
    (h : ¬ Matches branch message) (pos : Nat) :
    place? (branch.flatMap innerElements) pos pos message = none := by
  obtain ⟨pieces, rfl⟩ := exists_pieces hplain
  rw [flatMap_innerElements_patternOf] at hapart ⊢
  have hmatcher : Matcher.ofPattern (patternOf pieces) = .ok ⟨[⟨[elementsOf pieces]⟩], false⟩ := by
    rw [ofPattern_patternOf, hapart]
  have hnormal : NormalConstants (elementsOf pieces) :=
    normal_of_ofPattern hmatcher _ (List.mem_singleton.mpr rfl) _ (List.mem_singleton.mpr rfl)
  by_contra hplace
  have hlies := (place?_isSome_iff hnormal pos pos message).mp (Option.isSome_iff_ne_none.mpr hplace)
  obtain ⟨p, hp⟩ := Option.isSome_iff_exists.mp ((place?_isSome_iff hnormal 0 0 message).mpr hlies)
  refine h ⟨_, ⟨p.captures, p.payload?.getD p.stop⟩, hmatcher, ?_⟩
  rw [run_single, hp]
  rfl

theorem payload?_eq_none_of_forall {p : Pattern}
    (h : ∀ item ∈ p, ¬ (item.value?.any Value.isPayload) = true) : p.payload? = none := by
  induction p with
  | nil => rfl
  | cons item rest ih =>
      have hrest := ih fun i hi => h i (List.mem_cons_of_mem _ hi)
      cases item with
      | alternatives branches => exact hrest
      | value v =>
          cases v with
          | constant text => exact hrest
          | field name => exact hrest
          | payload alias? => exact absurd rfl (h _ List.mem_cons_self)

/-- No chunk has an alternative with two captures side by side. -/
theorem findSome?_adjacentCaptures?_iff {chunks : List Chunk} :
    (chunks.flatMap Chunk.alternatives).findSome? adjacentCaptures? = none ↔
      ∀ chunk ∈ chunks, ∀ elements ∈ chunk.alternatives, adjacentCaptures? elements = none := by
  rw [List.findSome?_eq_none_iff]
  constructor
  · exact fun h chunk hchunk elements helements =>
      h elements (List.mem_flatMap.mpr ⟨chunk, hchunk, helements⟩)
  · intro h elements helements
    obtain ⟨chunk, hchunk, hmem⟩ := List.mem_flatMap.mp helements
    exact h chunk hchunk elements hmem

theorem ofChunks_none_eq_ok_iff {chunks : List Chunk} {matcher : Matcher} :
    ofChunks none chunks = .ok matcher ↔
      (∀ chunk ∈ chunks, ∀ elements ∈ chunk.alternatives, adjacentCaptures? elements = none) ∧
        matcher = ⟨chunks, false⟩ := by
  rw [← findSome?_adjacentCaptures?_iff]
  unfold ofChunks
  cases (chunks.flatMap Chunk.alternatives).findSome? adjacentCaptures? with
  | some pair => exact iff_of_false (fun herror => nomatch herror) (fun h => nomatch h.1)
  | none => exact ⟨fun h => ⟨rfl, (Except.ok.inj h).symm⟩, fun h => congrArg Except.ok h.2.symm⟩

/-! ### Fields with a constant behind them -/

theorem isField_item (piece : Piece) : piece.item.isField = piece.isField := by
  cases piece <;> rfl

/-- The last piece in front of a group is no field. -/
theorem not_isField_of_fieldsAnchored {pieces : List Piece} {branches : List Pattern} {tail : Pattern}
    (h : Pattern.FieldsAnchored (patternOf pieces ++ .alternatives branches :: tail)) :
    ∀ piece ∈ pieces.getLast?, ¬ piece.isField = true := by
  intro piece hlast hfield
  obtain ⟨others, rfl⟩ := List.getLast?_eq_some_iff.mp hlast
  rw [patternOf, List.map_append, List.append_assoc] at h
  exact (List.isChain_append_cons_cons.mp h).2.1 ((isField_item piece).trans hfield)

theorem fieldsAnchored_patternOf {pieces : List Piece} (h : Pattern.FieldsAnchored (patternOf pieces)) :
    pieces.IsChain fun a b => a.isField = true → ¬ b.isField = true := by
  have hchain := (List.isChain_map Piece.item).mp h
  refine hchain.imp fun a b hanchor ha hb => ?_
  have hitem := hanchor ((isField_item a).trans ha)
  exact (PatternItem.isAnchor_iff.mp hitem).1 ((isField_item b).trans hb)

theorem endsInField_patternOf {pieces : List Piece} :
    Pattern.endsInField (patternOf pieces) = true ↔ ∃ piece ∈ pieces.getLast?, piece.isField = true := by
  rw [Pattern.endsInField, patternOf, List.getLast?_map, Option.any_map]
  simp [Option.any_eq_true, isField_item]

/-- Elements that end in a capture come from pieces that end in a field. -/
theorem exists_isField_of_endsInCapture {pieces : List Piece} (h : FieldsClosed pieces)
    (hend : EndsInCapture (elementsOf pieces)) : ∃ piece ∈ pieces.getLast?, piece.isField = true := by
  induction pieces with
  | nil =>
      obtain ⟨field, marked, hlast⟩ := hend
      cases hlast
  | cons piece rest ih =>
      have hcons : elementsOf (piece :: rest) = piece.elements ++ elementsOf rest := rfl
      by_cases hrest : elementsOf rest = []
      · obtain ⟨field, marked, hlast⟩ := hend
        rw [hcons, hrest, List.append_nil] at hlast
        cases piece with
        | constant text =>
            have hmem : .capture field marked ∈ ofConstant text := List.mem_of_getLast? hlast
            unfold ofConstant at hmem
            dsimp only at hmem
            split at hmem
            · cases hmem
            · cases List.mem_singleton.mp hmem
        | field name filler =>
            cases rest with
            | nil => exact ⟨_, rfl, rfl⟩
            | cons next rest =>
                obtain ⟨text, rfl, htext⟩ := (List.isChain_cons_cons.mp h).1 rfl
                rw [elementsOf_constant rfl (normalize_encode_ne_nil htext)] at hrest
                cases hrest
      · have hne : rest ≠ [] := by
          rintro rfl
          exact hrest rfl
        obtain ⟨field, marked, hlast⟩ := hend
        rw [hcons, List.getLast?_append_of_ne_nil _ hrest] at hlast
        rw [List.getLast?_cons_of_ne_nil hne]
        exact ih h.tail ⟨field, marked, hlast⟩

/-! ### Routes -/

/-- A group with the branch that is taken, filled, and the pieces up to the next group. -/
structure Choice where
  before : List Pattern
  taken : List Piece
  after : List Pattern
  behind : List Piece

/-- The alternative that is taken between two groups, if there are elements. -/
def plainNumbers (pieces : List Piece) : List Nat := if (elementsOf pieces).isEmpty then [] else [0]

namespace Choice

def branches (c : Choice) : List Pattern := c.before ++ patternOf c.taken :: c.after

def items (c : Choice) : Pattern := .alternatives c.branches :: patternOf c.behind

def pieces (c : Choice) : List Piece := c.taken ++ c.behind

def chunks (c : Choice) : List Chunk := groupChunk c.branches :: plainChunk (elementsOf c.behind)

theorem mem_branches (c : Choice) : patternOf c.taken ∈ c.branches :=
  List.mem_append_right _ List.mem_cons_self

/-- The alternatives that are taken. -/
def numbers (c : Choice) : List Nat := c.before.length :: plainNumbers c.behind

end Choice

/-- The pieces in front of the first group, and the choices in the groups. -/
structure Route where
  opening : List Piece
  choices : List Choice

namespace Route

def pattern (r : Route) : Pattern := patternOf r.opening ++ r.choices.flatMap Choice.items

/-- The pieces along the chosen branches. -/
def pieces (r : Route) : List Piece := r.opening ++ r.choices.flatMap Choice.pieces

def message (r : Route) : List UInt8 := messageOf r.pieces

def chunks (r : Route) : List Chunk :=
  plainChunk (elementsOf r.opening) ++ r.choices.flatMap Choice.chunks

/-- The alternatives that are taken in the chunks. -/
def numbers (r : Route) : List Nat := plainNumbers r.opening ++ r.choices.flatMap Choice.numbers

/-- Every branch has fields and constants only. -/
def BranchesPlain (r : Route) : Prop :=
  ∀ choice ∈ r.choices, ∀ branch ∈ choice.branches, IsPlain branch

/-- Where a group is tried, no branch before the chosen one matches what is left of the message. -/
def TakesFirst (r : Route) (message : List UInt8) : Prop :=
  ∀ done choice rest, r.choices = done ++ choice :: rest → ∀ matcher found,
    Matcher.ofPattern (Route.mk r.opening done).pattern = .ok matcher →
      matcher.run message = some found →
        ∀ branch ∈ choice.before, ¬ Matches branch (message.drop found.rest)

/-- The pattern has a matcher, the matcher commits to the chosen branches, and it captures the fields in
order with their fillers. -/
def GivesBack (r : Route) : Prop :=
  ∃ matcher found, Matcher.ofPattern r.pattern = .ok matcher ∧
    matcher.run r.message = some found ∧
    matchedIn (matcher.attempts r.message).1 = r.numbers ∧
    textsOf found.captures r.message = fieldsOf r.pieces

/-! ### The matcher of a route -/

/-- No alternative has two captures side by side. -/
def Apart (r : Route) : Prop :=
  ∀ chunk ∈ r.chunks, ∀ elements ∈ chunk.alternatives, adjacentCaptures? elements = none

theorem layout_choices {choices : List Choice}
    (h : ∀ choice ∈ choices, ∀ branch ∈ choice.branches, IsPlain branch) :
    layout (choices.flatMap Choice.items) = .ok ([], choices.flatMap Choice.chunks) := by
  induction choices with
  | nil => rfl
  | cons choice rest ih =>
      have hbehind := layout_patternOf_append choice.behind
        (ih fun c hc => h c (List.mem_cons_of_mem _ hc))
      show layout (.alternatives choice.branches ::
        (patternOf choice.behind ++ rest.flatMap Choice.items)) = _
      rw [layout, mapM_ofBranch (h choice List.mem_cons_self), hbehind, List.append_nil]
      rfl

/-- The chunks of the matcher, at least one. -/
def matcherChunks (r : Route) : List Chunk := if r.chunks.isEmpty then [⟨[[]]⟩] else r.chunks

theorem chunksOf_pattern {r : Route} (h : r.BranchesPlain) :
    chunksOf r.pattern = .ok r.matcherChunks := by
  have hlayout := layout_patternOf_append r.opening (layout_choices h)
  rw [List.append_nil] at hlayout
  rw [chunksOf, pattern, hlayout]
  rfl

/-- No item is a payload marker. -/
theorem not_isPayload_of_mem (r : Route) :
    ∀ item ∈ r.pattern, ¬ (item.value?.any Value.isPayload) = true := by
  have hpieces : ∀ pieces : List Piece, ∀ item ∈ patternOf pieces,
      ¬ (item.value?.any Value.isPayload) = true := by
    intro pieces item hitem
    obtain ⟨v, rfl, hv⟩ := isPlain_patternOf pieces item hitem
    exact hv
  intro item hitem
  rcases List.mem_append.mp hitem with hopening | hchoices
  · exact hpieces r.opening item hopening
  · obtain ⟨choice, -, hchoice⟩ := List.mem_flatMap.mp hchoices
    rcases List.mem_cons.mp hchoice with rfl | hbehind
    · exact Bool.false_ne_true
    · exact hpieces choice.behind item hbehind

theorem apart_iff_matcherChunks (r : Route) :
    r.Apart ↔ ∀ chunk ∈ r.matcherChunks, ∀ elements ∈ chunk.alternatives,
      adjacentCaptures? elements = none := by
  unfold Apart matcherChunks
  cases r.chunks with
  | nil => simp [adjacentCaptures?]
  | cons chunk chunks => rfl

/-- The pattern of a route has a matcher when no alternative has two captures side by side. -/
theorem ofPattern_eq_ok_iff {r : Route} (h : r.BranchesPlain) {matcher : Matcher} :
    Matcher.ofPattern r.pattern = .ok matcher ↔ r.Apart ∧ matcher = ⟨r.matcherChunks, false⟩ := by
  have hcount : countMarkers r.pattern = 0 := List.countP_eq_zero.mpr r.not_isPayload_of_mem
  rw [ofPattern_eq, hcount, chunksOf_pattern h, payload?_eq_none_of_forall r.not_isPayload_of_mem,
    apart_iff_matcherChunks]
  exact ofChunks_none_eq_ok_iff

/-- The chunks of the matcher are placed like the chunks of the route. -/
theorem placeChunks_matcherChunks (r : Route) (message : List UInt8) :
    (placeChunks 0 0 message r.matcherChunks).2 = (placeChunks 0 0 message r.chunks).2 := by
  unfold matcherChunks
  cases r.chunks with
  | nil => rfl
  | cons chunk chunks => rfl

/-! ### Pieces along a route in an anchored pattern -/

theorem concat_frame (opening : List Piece) (choices : List Choice) (choice : Choice) :
    (mk opening (choices ++ [choice])).pattern = (mk opening choices).pattern ++ choice.items ∧
      (mk opening (choices ++ [choice])).pieces = (mk opening choices).pieces ++ choice.pieces ∧
      (mk opening (choices ++ [choice])).chunks = (mk opening choices).chunks ++ choice.chunks ∧
      (mk opening (choices ++ [choice])).numbers = (mk opening choices).numbers ++ choice.numbers := by
  simp [pattern, pieces, chunks, numbers]

/-- The last piece in front of a group is no field. -/
theorem not_isField_of_getLast? {opening : List Piece} {choices : List Choice}
    {branches : List Pattern} {tail : Pattern}
    (h : ((mk opening choices).pattern ++ .alternatives branches :: tail).Anchored) :
    ∀ piece ∈ (mk opening choices).pieces.getLast?, ¬ piece.isField = true := by
  induction choices using List.reverseRecOn generalizing branches tail with
  | nil =>
      have hopening : patternOf opening = (mk opening []).pattern := (List.append_nil _).symm
      have hpieces : (mk opening []).pieces = opening := List.append_nil opening
      rw [hpieces]
      exact not_isField_of_fieldsAnchored (hopening ▸ h.items)
  | append_singleton choices choice ih =>
      obtain ⟨hpattern, hpieces, -, -⟩ := concat_frame opening choices choice
      rw [hpattern, List.append_assoc] at h
      rw [hpieces, Choice.pieces, ← List.append_assoc]
      by_cases hbehind : choice.behind = []
      · rw [hbehind, List.append_nil]
        by_cases htaken : choice.taken = []
        · rw [htaken, List.append_nil]
          exact ih h
        · rw [List.getLast?_append_of_ne_nil _ htaken]
          intro piece hlast hfield
          have hgroup : patternOf choice.behind = [] := by rw [hbehind]; rfl
          rw [Choice.items, hgroup] at h
          exact (List.isChain_append_cons_cons.mp h.groups).2.1 _ rfl _ choice.mem_branches
            (endsInField_patternOf.mpr ⟨piece, hlast, hfield⟩)
      · rw [List.getLast?_append_of_ne_nil _ hbehind]
        have hitems : Pattern.FieldsAnchored (.alternatives choice.branches ::
            (patternOf choice.behind ++ .alternatives branches :: tail)) :=
          List.IsChain.right_of_append h.items
        exact not_isField_of_fieldsAnchored (List.IsChain.tail hitems)

/-- A chosen branch ends in a field only if nothing follows. -/
theorem behind_eq_nil_of_isField {p : Pattern} {choice : Choice} (h : (p ++ choice.items).Anchored)
    {piece : Piece} (hlast : piece ∈ choice.taken.getLast?) (hfield : piece.isField = true) :
    choice.behind = [] := by
  cases hbehind : choice.behind with
  | nil => rfl
  | cons next rest =>
      rw [Choice.items, hbehind] at h
      exact absurd (endsInField_patternOf.mpr ⟨piece, hlast, hfield⟩)
        ((List.isChain_append_cons_cons.mp h.groups).2.1 _ rfl _ choice.mem_branches)

/-- Fields along a route in an anchored pattern are not side by side. -/
theorem fieldsApart_pieces {opening : List Piece} {choices : List Choice}
    (h : (mk opening choices).pattern.Anchored) :
    (mk opening choices).pieces.IsChain fun a b => a.isField = true → ¬ b.isField = true := by
  induction choices using List.reverseRecOn with
  | nil =>
      have hopening : (mk opening []).pattern = patternOf opening := List.append_nil _
      have hpieces : (mk opening []).pieces = opening := List.append_nil opening
      rw [hpieces]
      exact fieldsAnchored_patternOf (hopening ▸ h.items)
  | append_singleton choices choice ih =>
      obtain ⟨hpattern, hpieces, -, -⟩ := concat_frame opening choices choice
      rw [hpattern] at h
      rw [hpieces]
      have htaken := h.branches _ (List.mem_append_right _ List.mem_cons_self) _ choice.mem_branches
      have hitems : Pattern.FieldsAnchored choice.items := List.IsChain.right_of_append h.items
      have hbehind : Pattern.FieldsAnchored (patternOf choice.behind) := List.IsChain.tail hitems
      have hchoice : choice.pieces.IsChain fun a b => a.isField = true → ¬ b.isField = true := by
        refine List.isChain_append.mpr ⟨fieldsAnchored_patternOf htaken,
          fieldsAnchored_patternOf hbehind, fun a ha b hb hfield => ?_⟩
        rw [behind_eq_nil_of_isField h ha hfield] at hb
        cases hb
      refine List.isChain_append.mpr ⟨ih h.left_of_append, hchoice, fun a ha b _ hfield => ?_⟩
      exact absurd hfield (not_isField_of_getLast? h a ha)

/-- Every field along a route is directly followed by a constant that is not empty, or it is the last piece. -/
theorem fieldsClosed_pieces {r : Route} (h : r.pattern.Anchored) (hfillers : FillersTidy r.pieces)
    (hends : EndsInTime r.pieces) : FieldsClosed r.pieces := by
  refine List.isChain_iff_forall_rel_of_append_cons_cons.mpr fun a b before rest heq ha => ?_
  have hb := List.isChain_iff_forall_rel_of_append_cons_cons.mp (fieldsApart_pieces h) heq ha
  cases a with
  | constant text => cases ha
  | field name filler =>
      cases b with
      | field other filler' => exact absurd rfl hb
      | constant text =>
          refine ⟨text, rfl, ?_⟩
          rintro rfl
          have hne := (hfillers name filler (heq ▸ by simp)).1
          exact hends before name filler "" rest heq (occursEarly_empty hne _)

end Route

end LogRules.Matching

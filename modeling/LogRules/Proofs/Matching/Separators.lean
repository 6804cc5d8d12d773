import LogRules.Proofs.Matching.RoundTrip

/-! # Constants of spaces between fields

A constant of spaces ends a field at its first space. Two things can go wrong. A constant in front
that ends in a space leaves this space to the field behind it, which ends there, empty. And an empty
constant is no constant: the fields around it are side by side, and the pattern has no matcher. All
other fillings are given back (`givesBack_iff_of_separators`). -/

namespace LogRules.Matching

/-! ### Empty constants -/

/-- The piece is an empty constant. -/
def Piece.isEmpty : Piece → Bool
  | constant text => text == ""
  | field _ _ => false

/-- The pieces without the empty constants. -/
def solid (pieces : List Piece) : List Piece := pieces.filter fun piece => !piece.isEmpty

/-- Two fields with nothing but an empty constant between them. -/
def LeavesFieldsAdjacent (pieces : List Piece) : Prop :=
  ∃ before name filler name' filler' rest,
    pieces = before ++ .field name filler :: .constant "" :: .field name' filler' :: rest

theorem solid_cons_field (name : String) (filler : List UInt8) (rest : List Piece) :
    solid (.field name filler :: rest) = .field name filler :: solid rest := rfl

theorem solid_cons_constant {text : String} (h : text ≠ "") (rest : List Piece) :
    solid (.constant text :: rest) = .constant text :: solid rest :=
  List.filter_cons_of_pos (by simpa [Piece.isEmpty] using h)

theorem mem_of_mem_solid {piece : Piece} {pieces : List Piece} (h : piece ∈ solid pieces) :
    piece ∈ pieces :=
  (List.mem_filter.mp h).1

theorem ne_empty_of_mem_solid {text : String} {pieces : List Piece}
    (h : .constant text ∈ solid pieces) : text ≠ "" := by
  rintro rfl
  exact absurd (List.mem_filter.mp h).2 (by decide)

/-- An empty constant adds nothing to the elements, the message and the fields. -/
theorem solid_frame (pieces : List Piece) :
    elementsOf (solid pieces) = elementsOf pieces ∧ messageOf (solid pieces) = messageOf pieces ∧
      fieldsOf (solid pieces) = fieldsOf pieces := by
  induction pieces with
  | nil => exact ⟨rfl, rfl, rfl⟩
  | cons piece rest ih =>
      obtain ⟨helements, hmessage, hfields⟩ := ih
      cases piece with
      | constant text =>
          by_cases htext : text = ""
          · subst htext
            exact ⟨helements, hmessage, hfields⟩
          · rw [solid_cons_constant htext]
            exact ⟨congrArg (ofConstant text ++ ·) helements,
              congrArg (Text.encode text ++ ·) hmessage, hfields⟩
      | field name filler =>
          rw [solid_cons_field]
          exact ⟨congrArg (Element.capture name false :: ·) helements, congrArg (filler ++ ·) hmessage,
            congrArg ((name, filler) :: ·) hfields⟩

theorem givesBack_solid (pieces : List Piece) : GivesBack (solid pieces) ↔ GivesBack pieces := by
  obtain ⟨helements, hmessage, hfields⟩ := solid_frame pieces
  unfold GivesBack
  rw [ofPattern_patternOf, ofPattern_patternOf, helements, hmessage, hfields]

/-! ### What is left without the empty constants -/

theorem Alternates.neighbours (before : List Piece) {a b : Piece} {rest : List Piece}
    (h : Alternates (before ++ a :: b :: rest)) : a.isField ≠ b.isField :=
  (List.isChain_append_cons_cons.mp h).2.1

theorem Alternates.head?_solid_of_constant {text : String} {rest : List Piece}
    (h : Alternates (.constant text :: rest)) :
    ∀ piece ∈ (Matching.solid rest).head?, piece.isField = true := by
  cases rest with
  | nil => exact fun _ hnone => nomatch hnone
  | cons next after =>
      cases next with
      | constant other => exact absurd rfl (h.neighbours [])
      | field name filler =>
          rintro _ ⟨⟩
          rfl

theorem Alternates.head?_solid_of_field {name : String} {filler : List UInt8} {rest : List Piece}
    (h : Alternates (.field name filler :: rest))
    (hadjacent : ¬ LeavesFieldsAdjacent (.field name filler :: rest)) :
    ∀ piece ∈ (Matching.solid rest).head?, piece.isField = false := by
  cases rest with
  | nil => exact fun _ hnone => nomatch hnone
  | cons next after =>
      cases next with
      | field other filler' => exact absurd rfl (h.neighbours [])
      | constant text =>
          by_cases htext : text = ""
          · subst htext
            cases after with
            | nil => exact fun _ hnone => nomatch hnone
            | cons third after =>
                cases third with
                | constant other => exact absurd rfl (h.neighbours [_])
                | field other filler' =>
                    exact absurd ⟨[], name, filler, other, filler', after, rfl⟩ hadjacent
          · rw [solid_cons_constant htext]
            rintro _ ⟨⟩
            rfl

theorem Alternates.solid {pieces : List Piece} (h : Alternates pieces)
    (hadjacent : ¬ LeavesFieldsAdjacent pieces) : Alternates (solid pieces) := by
  induction pieces with
  | nil => exact .nil
  | cons piece rest ih =>
      have hrest : Alternates (Matching.solid rest) := by
        refine ih (List.IsChain.tail h) ?_
        rintro ⟨before, name, filler, name', filler', after, rfl⟩
        exact hadjacent ⟨piece :: before, name, filler, name', filler', after, rfl⟩
      cases piece with
      | constant text =>
          by_cases htext : text = ""
          · subst htext
            exact hrest
          · rw [solid_cons_constant htext]
            refine List.isChain_cons.mpr ⟨fun next hnext => ?_, hrest⟩
            rw [h.head?_solid_of_constant next hnext]
            exact Bool.false_ne_true
      | field name filler =>
          rw [solid_cons_field]
          refine List.isChain_cons.mpr ⟨fun next hnext => ?_, hrest⟩
          rw [h.head?_solid_of_field hadjacent next hnext]
          exact Bool.false_ne_true.symm

/-- A constant behind a field is still the same constant behind the same field. -/
theorem exists_of_solid_eq (before : List Piece) {pieces rest : List Piece} {name text : String}
    {filler : List UInt8} (h : Alternates pieces)
    (heq : solid pieces = before ++ .field name filler :: .constant text :: rest) :
    ∃ before' rest', pieces = before' ++ .field name filler :: .constant text :: rest' ∧
      solid before' = before ∧ solid rest' = rest := by
  obtain ⟨left, right, rfl, hbefore, hright⟩ := List.filter_eq_append_iff.mp heq
  obtain ⟨gap, behind, rfl, hgap, -, hbehind⟩ := List.filter_eq_cons_iff.mp hright
  obtain ⟨gap', rest', rfl, hgap', -, hrest⟩ := List.filter_eq_cons_iff.mp hbehind
  have hnil : gap' = [] := by
    cases gap' with
    | nil => rfl
    | cons first others =>
        cases first with
        | field other filler' => exact absurd rfl (hgap' _ List.mem_cons_self)
        | constant other =>
            have hchain := (h.right_of_append.right_of_append : Alternates _).tail
            cases others with
            | nil => exact absurd rfl (List.isChain_cons_cons.mp hchain).1
            | cons second others =>
                cases second with
                | field other' filler' =>
                    exact absurd rfl (hgap' _ (List.mem_cons_of_mem _ List.mem_cons_self))
                | constant other' => exact absurd rfl (List.isChain_cons_cons.mp hchain).1
  subst hnil
  refine ⟨left ++ gap, rest', by simp, ?_, hrest⟩
  rw [solid, List.filter_append, List.filter_eq_nil_iff.mpr hgap, List.append_nil]
  exact hbefore

/-- Nothing else stands in front of a constant that is first without the empty constants. -/
theorem leavesSpaces_solid {pieces : List Piece} (h : Alternates pieces) :
    LeavesSpaces (solid pieces) ↔ LeavesSpaces pieces := by
  constructor
  · rintro ⟨text, name, filler, separator, rest, heq, htext, hlast, hseparator⟩
    obtain ⟨before, rest', rfl, hbefore, -⟩ := exists_of_solid_eq [_] h heq
    obtain ⟨gap, behind, rfl, hgap, -, hbehind⟩ := List.filter_eq_cons_iff.mp hbefore
    have hnil : gap = [] := by
      obtain rfl | ⟨others, last, rfl⟩ := gap.eq_nil_or_concat
      · rfl
      · rw [List.concat_eq_append] at hgap h
        cases last with
        | field other filler' =>
            exact absurd rfl (hgap (.field other filler') List.mem_concat_self)
        | constant other =>
            rw [List.append_assoc, List.append_assoc] at h
            exact absurd rfl (h.neighbours others)
    have hnil' : behind = [] := by
      cases behind with
      | nil => rfl
      | cons first others =>
          cases first with
          | field other filler' => cases hbehind
          | constant other =>
              rw [List.append_assoc] at h
              exact absurd rfl (h.neighbours gap)
    subst hnil hnil'
    exact ⟨text, name, filler, separator, rest', rfl, htext, hlast, hseparator⟩
  · rintro ⟨text, name, filler, separator, rest, rfl, htext, hlast, hnonempty, hseparator⟩
    have hne : text ≠ "" := by
      rintro rfl
      exact htext fun c hc => nomatch hc
    refine ⟨text, name, filler, separator, solid rest, ?_, htext, hlast, hnonempty, hseparator⟩
    rw [solid_cons_constant hne, solid_cons_field, solid_cons_constant hnonempty]

/-! ### Fields side by side -/

theorem adjacentCaptures?_cons {element : Element} {elements : Elements}
    (h : adjacentCaptures? (element :: elements) = none) : adjacentCaptures? elements = none := by
  unfold adjacentCaptures? at h
  split at h
  · cases h
  · next heq =>
      obtain ⟨-, rfl⟩ := List.cons.inj heq
      exact h
  · cases elements <;> contradiction

theorem adjacentCaptures?_append_ne_none (elements : Elements) (a b : String) (rest : Elements) :
    adjacentCaptures? (elements ++ .capture a false :: .capture b false :: rest) ≠ none := by
  induction elements with
  | nil => exact Option.some_ne_none (a, b)
  | cons element elements ih => exact fun hnone => ih (adjacentCaptures?_cons hnone)

theorem not_givesBack_of_adjacent {pieces : List Piece} (h : LeavesFieldsAdjacent pieces) :
    ¬ GivesBack pieces := by
  obtain ⟨before, name, filler, name', filler', rest, rfl⟩ := h
  rintro ⟨matcher, m, hmatcher, -⟩
  rw [ofPattern_patternOf] at hmatcher
  split at hmatcher
  · cases hmatcher
  · next hnone =>
      have helements : elementsOf (before ++ .field name filler :: .constant "" ::
          .field name' filler' :: rest) =
          elementsOf before ++ .capture name false :: .capture name' false :: elementsOf rest :=
        List.flatMap_append
      rw [helements] at hnone
      exact adjacentCaptures?_append_ne_none _ _ _ _ hnone

/-! ### The exact condition -/

/-- **Constants of spaces between fields.** Fillers are not empty and have no spaces at their ends;
a filler before a constant of spaces has none at all, and no field before another constant ends
early. Such a filling is given back unless the constant in front leaves a space to a field that
ends at a space, or an empty constant leaves two fields side by side. -/
theorem givesBack_iff_of_separators (pieces : List Piece) (halternates : Alternates pieces)
    (hfillers : ∀ name filler, .field name filler ∈ pieces → filler ≠ [] ∧ Tidy filler)
    (hends : ∀ before name filler text rest,
      pieces = before ++ .field name filler :: .constant text :: rest →
        if IsBlank text then space ∉ filler else ¬ EndsEarly filler text rest) :
    GivesBack pieces ↔ ¬ LeavesSpaces pieces ∧ ¬ LeavesFieldsAdjacent pieces := by
  by_cases hadjacent : LeavesFieldsAdjacent pieces
  · exact ⟨fun hgives => absurd hgives (not_givesBack_of_adjacent hadjacent),
      fun h => absurd hadjacent h.2⟩
  have hfits : Fits (solid pieces) := by
    refine ⟨halternates.solid hadjacent, fun _ => ne_empty_of_mem_solid,
      fun name filler h => (hfillers name filler (mem_of_mem_solid h)).2, ?_, ?_⟩
    · intro before name filler text rest heq htext
      obtain ⟨before', rest', hpieces, -, -⟩ := exists_of_solid_eq before halternates heq
      have hspace := hends before' name filler text rest' hpieces
      rw [if_pos htext] at hspace
      exact ⟨(hfillers name filler (by simp [hpieces])).1, hspace⟩
    · intro before name filler text rest heq htext
      obtain ⟨before', rest', hpieces, -, hrest⟩ := exists_of_solid_eq before halternates heq
      have hearly := hends before' name filler text rest' hpieces
      rw [if_neg htext] at hearly
      rintro ⟨k, hk, hoccurrence⟩
      rw [← hrest, (solid_frame rest').2.1] at hoccurrence
      exact hearly ⟨k, hk, hoccurrence⟩
  rw [← givesBack_solid, ← leavesSpaces_solid halternates]
  constructor
  · exact fun hgives => ⟨fun hleaves => not_givesBack_of_leavesSpaces hfits hleaves hgives, hadjacent⟩
  · exact fun h => givesBack_of_fits hfits h.1

/-- The pattern `word <a> <b>` and the message `word x y`. -/
def wordAndFields : List Piece :=
  [.constant "word ", .field "a" [120], .constant " ", .field "b" [121]]

/-- The space behind the word ends the field `a`, and `x y` is left for the field `b`. -/
theorem not_givesBack_wordAndFields : ¬ GivesBack wordAndFields := by
  have hiff := givesBack_iff_of_separators wordAndFields (by decide) ?_ ?_
  · rw [hiff, not_and_or, not_not]
    exact .inl ⟨"word ", "a", [120], " ", [.field "b" [121]], rfl, by decide, by decide, by decide,
      by decide⟩
  · unfold wordAndFields
    simp only [List.mem_cons, Piece.field.injEq, reduceCtorEq, List.not_mem_nil, or_false, false_or]
    rintro name filler (⟨rfl, rfl⟩ | ⟨rfl, rfl⟩) <;> decide
  · unfold wordAndFields
    iterate 4 rw [forall_field_cons]
    refine ⟨?_, ?_, ?_, ?_, ?_⟩
    · rintro _ _ _ _ ⟨⟩ ⟨⟩
    · rintro _ _ _ _ ⟨⟩ ⟨⟩
      decide
    · rintro _ _ _ _ ⟨⟩ ⟨⟩
    · rintro _ _ _ _ ⟨⟩ ⟨⟩
    · simp

end LogRules.Matching

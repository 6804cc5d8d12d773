import LogRules.Proofs.Matching.Spaces
import Mathlib.Data.List.Chain

/-! # Filled patterns

A filled pattern is a list of pieces: constants, and fields with the bytes that stand in their place.
It is a pattern (`patternOf`) and a message (`messageOf`). `GivesBack` says that the matcher of the
pattern finds in the message the fields with their fillers. The elements of the pattern are placed
from field to field (`place?_of_fieldsFit`): what is left of the message agrees with the pieces that
are left up to the spaces in front. -/

namespace LogRules.Matching

/-! ### Pieces -/

/-- A constant, or a field and the bytes that stand in its place. -/
inductive Piece where
  | constant (text : String)
  | field (name : String) (filler : List UInt8)

namespace Piece

/-- The pattern item of a piece. -/
def item : Piece → PatternItem
  | constant text => .value (.constant text)
  | field name _ => .value (.field name)

/-- The bytes of a piece in a message. -/
def bytes : Piece → List UInt8
  | constant text => Text.encode text
  | field _ filler => filler

/-- The piece is a field. -/
def isField : Piece → Bool
  | constant _ => false
  | field _ _ => true

/-- The field of a piece with its filler. -/
def field? : Piece → Option (String × List UInt8)
  | constant _ => none
  | field name filler => some (name, filler)

/-- The elements of a piece. -/
def elements : Piece → Elements
  | constant text => ofConstant text
  | field name _ => [.capture name false]

end Piece

/-- The pattern that is filled. -/
def patternOf (pieces : List Piece) : Pattern := pieces.map Piece.item

/-- The filled pattern. -/
def messageOf (pieces : List Piece) : List UInt8 := pieces.flatMap Piece.bytes

/-- The fields with their fillers. -/
def fieldsOf (pieces : List Piece) : List (String × List UInt8) := pieces.filterMap Piece.field?

/-- The elements of the pattern. -/
def elementsOf (pieces : List Piece) : Elements := pieces.flatMap Piece.elements

/-- Constants and fields alternate. -/
def Alternates (pieces : List Piece) : Prop := pieces.IsChain fun a b => a.isField ≠ b.isField

instance : DecidablePred Alternates :=
  fun pieces => inferInstanceAs (Decidable (pieces.IsChain fun a b => a.isField ≠ b.isField))

/-- A constant of nothing but spaces. -/
def IsBlank (text : String) : Prop := ∀ c ∈ Text.encode text, c = space

instance : DecidablePred IsBlank :=
  fun text => List.decidableBAll (fun c => c = space) (Text.encode text)

/-- An occurrence of the constant behind a filler starts at or after the first byte of the filler
and before the first byte of the constant that is no space. -/
def EndsEarly (filler : List UInt8) (text : String) (rest : List Piece) : Prop :=
  ∃ k < filler.length + leadingSpaces (Text.encode text),
    occurrence? (normalize (Text.encode text))
      ((filler ++ (Text.encode text ++ messageOf rest)).drop k) ≠ none

instance (filler : List UInt8) (text : String) (rest : List Piece) :
    Decidable (EndsEarly filler text rest) :=
  inferInstanceAs (Decidable (∃ k < _, _))

/-- The captured bytes. -/
def Capture.bytes (c : Capture) (message : List UInt8) : List UInt8 :=
  (message.drop c.start).take (c.stop - c.start)

/-- The captured fields with their bytes. -/
def textsOf (captures : List Capture) (message : List UInt8) : List (String × List UInt8) :=
  captures.map fun c => (c.field, c.bytes message)

/-- The pattern has a matcher, the matcher matches the message, and it captures the fields in order
with their fillers. -/
def GivesBack (pieces : List Piece) : Prop :=
  ∃ matcher m, Matcher.ofPattern (patternOf pieces) = .ok matcher ∧
    matcher.run (messageOf pieces) = some m ∧
    textsOf m.captures (messageOf pieces) = fieldsOf pieces

/-! ### The matcher of a filled pattern -/

theorem layout_patternOf_append (pieces : List Piece) {p : Pattern} {front : Elements}
    {chunks : List Chunk} (h : layout p = .ok (front, chunks)) :
    layout (patternOf pieces ++ p) = .ok (elementsOf pieces ++ front, chunks) := by
  induction pieces with
  | nil => exact h
  | cons piece rest ih =>
      cases piece with
      | constant text =>
          show layout (.value (.constant text) :: (patternOf rest ++ p)) = _
          rw [layout, ih]
          · show Except.ok (ofConstant text ++ (elementsOf rest ++ front), chunks) = _
            rw [← List.append_assoc]
            rfl
          · exact fun _ h => nomatch h
      | field name filler =>
          show layout (.value (.field name) :: (patternOf rest ++ p)) = _
          rw [layout, ih]
          · rfl
          · exact fun _ h => nomatch h

theorem layout_patternOf (pieces : List Piece) :
    layout (patternOf pieces) = .ok (elementsOf pieces, []) := by
  have hnil : layout [] = .ok ([], []) := rfl
  have hlayout := layout_patternOf_append pieces hnil
  rwa [List.append_nil, List.append_nil] at hlayout

theorem payload?_patternOf (pieces : List Piece) : Pattern.payload? (patternOf pieces) = none := by
  induction pieces with
  | nil => rfl
  | cons piece rest ih => cases piece <;> exact ih

theorem countMarkers_patternOf (pieces : List Piece) : countMarkers (patternOf pieces) = 0 := by
  refine List.countP_eq_zero.mpr fun item hitem => ?_
  obtain ⟨piece, -, rfl⟩ := List.mem_map.mp hitem
  cases piece <;> simp [Piece.item, PatternItem.value?, Value.isPayload]

theorem ofConstant_ne_nil {text : String} (h : normalize (Text.encode text) ≠ []) :
    ofConstant text = [.constant (normalize (Text.encode text))] := by
  unfold ofConstant
  rw [if_neg]
  simpa using h

/-- A filled pattern has one chunk with one alternative, unless two captures are side by side. -/
theorem ofPattern_patternOf (pieces : List Piece) :
    Matcher.ofPattern (patternOf pieces) =
      match adjacentCaptures? (elementsOf pieces) with
      | some (a, b) => .error (.adjacentCaptures a b)
      | none => .ok ⟨[⟨[elementsOf pieces]⟩], false⟩ := by
  have hchunks : chunksOf (patternOf pieces) = .ok [⟨[elementsOf pieces]⟩] := by
    rw [chunksOf, layout_patternOf]
    cases hpieces : elementsOf pieces with
    | nil => rfl
    | cons e rest => rfl
  unfold Matcher.ofPattern
  rw [countMarkers_patternOf, hchunks, payload?_patternOf]
  cases hadjacent : adjacentCaptures? (elementsOf pieces) with
  | none => simp [hadjacent, bind, Except.bind, pure, Except.pure]
  | some pair => simp [hadjacent, bind, Except.bind, throw, throwThe, MonadExceptOf.throw]

theorem run_single (elements : Elements) (message : List UInt8) :
    (Matcher.mk [⟨[elements]⟩] false).run message =
      (place? elements 0 0 message).map fun p => ⟨p.captures, p.payload?.getD p.stop⟩ := by
  unfold Matcher.run Matcher.attempts placeChunks Chunk.choose? chooseFrom?
  cases place? elements 0 0 message with
  | none => rfl
  | some p => simp [placeChunks, Placement.append, Placement.empty]

/-! ### Captured bytes -/

/-- A capture takes the core of its text. Spaces with no core among them are all in front of it. -/
theorem Capture.exists_ofText_eq (field : String) (pos i j : Nat) {core : List UInt8} (h : Tidy core) :
    ∃ i' j', spaces i ++ core ++ spaces j = spaces i' ++ core ++ spaces j' ∧
      Capture.ofText field pos (spaces i ++ core ++ spaces j) = ⟨field, pos + i', pos + i' + core.length⟩ := by
  by_cases hcore : core = []
  · subst hcore
    have htext : spaces i ++ [] ++ spaces j = spaces (i + j) := by simp [spaces]
    have hlead : leadingSpaces (spaces (i + j)) = i + j := by
      have hrun := leadingSpaces_spaces_append (i + j) []
      rwa [List.append_nil] at hrun
    refine ⟨i + j, 0, by simp [spaces], ?_⟩
    rw [htext, ofText, hlead, List.length_replicate, Nat.max_eq_left (Nat.sub_le ..)]
    rfl
  · have hhead : (core ++ spaces j).head? ≠ some space := by
      rw [List.head?_append_of_ne_nil _ hcore]
      exact h.1
    have hlast : (spaces i ++ core).getLast? ≠ some space := by
      rw [List.getLast?_append_of_ne_nil _ hcore]
      exact h.2
    have hlead : leadingSpaces (spaces i ++ core ++ spaces j) = i := by
      rw [List.append_assoc, leadingSpaces_run i hhead]
    have htrail : trailingSpaces (spaces i ++ core ++ spaces j) = j := by
      rw [trailingSpaces_append_spaces, trailingSpaces_of_getLast?_ne hlast]
      rfl
    have hlen : (spaces i ++ core ++ spaces j).length = i + core.length + j := by
      simp [Nat.add_assoc]
    refine ⟨i, j, rfl, ?_⟩
    rw [ofText, hlead, htrail, hlen, Nat.add_sub_cancel, Nat.max_eq_right (Nat.le_add_right ..), Nat.add_assoc]

theorem Capture.bytes_ofText (field : String) (i j : Nat) {filler : List UInt8} (h : Tidy filler)
    {message : List UInt8} {pos : Nat} {rest : List UInt8}
    (hpos : message.drop pos = (spaces i ++ filler ++ spaces j) ++ rest) :
    (Capture.ofText field pos (spaces i ++ filler ++ spaces j)).bytes message = filler := by
  obtain ⟨i', j', htext, hcapture⟩ := exists_ofText_eq field pos i j h
  rw [hcapture, bytes, Nat.add_sub_cancel_left, ← List.drop_drop, hpos, htext, List.append_assoc,
    List.append_assoc, List.drop_left' (List.length_replicate ..), List.take_left]

/-! ### Placing fields -/

theorem place?_capture_constant {field : String} {constant text found tail : List UInt8}
    {rest : Elements} {pos exact : Nat}
    (h : find? constant (text ++ (found ++ tail)) = some (text.length, found.length)) :
    place? (.capture field false :: .constant constant :: rest) pos exact
        (text ++ (found ++ tail)) =
      (place? rest (pos + (text.length + found.length) + leadingSpaces tail)
        (pos + (text.length + found.length)) (tail.dropWhile (· == space))).map
          (·.consCapture (.ofText field pos text)) := by
  have htake : (text ++ (found ++ tail)).take text.length = text := List.take_left
  have hdrop : (text ++ (found ++ tail)).drop (text.length + found.length) = tail := by
    rw [← List.append_assoc, ← List.length_append, List.drop_left]
  have hrest : (text ++ (found ++ tail)).drop (text.length + found.length + leadingSpaces tail) =
      tail.dropWhile (· == space) := by
    rw [← List.drop_drop, hdrop, drop_leadingSpaces]
  rw [place?, h, Option.bind_eq_bind, Option.bind_some]
  dsimp only
  rw [htake, hdrop, hrest]
  cases place? rest (pos + (text.length + found.length) + leadingSpaces tail)
    (pos + (text.length + found.length)) (tail.dropWhile (· == space)) <;> rfl

/-- A message whose rest begins at a field: the field ends where the constant behind it begins. -/
inductive FieldsFit : List Piece → Prop
  | nil : FieldsFit []
  | last {name : String} {filler : List UInt8} (h : Tidy filler) : FieldsFit [.field name filler]
  | anchored {name text : String} {filler : List UInt8} {rest : List Piece} (h : Tidy filler)
      (htext : ¬ IsBlank text) (hends : ¬ EndsEarly filler text rest) (hrest : FieldsFit rest) :
      FieldsFit (.field name filler :: .constant text :: rest)
  | separated {name text : String} {filler : List UInt8} {rest : List Piece} (h : Tidy filler)
      (hne : filler ≠ []) (htext : IsBlank text) (hnonempty : text ≠ "")
      (hspace : space ∉ filler) (hrest : FieldsFit rest) :
      FieldsFit (.field name filler :: .constant text :: rest)

/-- The first field stands before a constant of spaces. -/
def StartsSeparated (pieces : List Piece) : Prop :=
  ∃ name filler text rest, pieces = .field name filler :: .constant text :: rest ∧ IsBlank text

theorem exists_padded_encode {text : String} (h : ¬ IsBlank text) :
    ∃ a core b, Text.encode text = spaces a ++ core ++ spaces b ∧ core ≠ [] ∧ Tidy core := by
  refine exists_padded ?_
  by_contra hnone
  exact h fun c hc => Classical.byContradiction fun hne => hnone ⟨c, hc, hne⟩

theorem encode_ne_nil {text : String} (h : text ≠ "") : Text.encode text ≠ [] := by
  intro hnil
  have hlen := congrArg List.length hnil
  rw [Text.encode, Text.length_encodeChars] at hlen
  cases hlist : text.toList with
  | nil => exact h (String.toList_eq_nil_iff.mp hlist)
  | cons c cs =>
      have := c.utf8Size_pos
      rw [hlist, Text.byteLength_cons, List.length_nil] at hlen
      omega

theorem encode_eq_spaces {text : String} (h : IsBlank text) (hne : text ≠ "") :
    ∃ n, Text.encode text = spaces (n + 1) := by
  have heq : Text.encode text = spaces (Text.encode text).length := List.eq_replicate_of_mem h
  cases hlen : (Text.encode text).length with
  | zero => exact absurd (List.eq_nil_of_length_eq_zero hlen) (encode_ne_nil hne)
  | succ n => exact ⟨n, hlen ▸ heq⟩

theorem normalize_encode_ne_nil {text : String} (h : text ≠ "") :
    normalize (Text.encode text) ≠ [] := by
  by_cases htext : IsBlank text
  · obtain ⟨n, henc⟩ := encode_eq_spaces htext h
    rw [henc, normalize_spaces]
    exact List.cons_ne_nil _ _
  · obtain ⟨a, core, b, henc, hcore, htidy⟩ := exists_padded_encode htext
    rw [henc, normalize_padded a b hcore htidy]
    exact squeeze_ne_nil hcore

theorem elementsOf_constant {text : String} {constant : List UInt8} {rest : List Piece}
    (hnorm : normalize (Text.encode text) = constant) (hne : constant ≠ []) :
    elementsOf (.constant text :: rest) = .constant constant :: elementsOf rest := by
  subst hnorm
  rw [elementsOf, List.flatMap_cons, Piece.elements, ofConstant_ne_nil hne]
  rfl

theorem elementsOf_anchored {name text : String} {filler constant : List UInt8}
    {rest : List Piece} (hnorm : normalize (Text.encode text) = constant) (hne : constant ≠ []) :
    elementsOf (.field name filler :: .constant text :: rest) =
      .capture name false :: .constant constant :: elementsOf rest := by
  subst hnorm
  rw [elementsOf, List.flatMap_cons, List.flatMap_cons, Piece.elements, Piece.elements,
    ofConstant_ne_nil hne]
  rfl

/-- Every field is directly followed by a constant that is not empty, or it is the last piece. -/
def FieldsClosed (pieces : List Piece) : Prop :=
  pieces.IsChain fun a b => a.isField = true → ∃ text, b = .constant text ∧ text ≠ ""

theorem Alternates.fieldsClosed {pieces : List Piece} (h : Alternates pieces)
    (hconst : ∀ text, .constant text ∈ pieces → text ≠ "") : FieldsClosed pieces := by
  refine List.isChain_iff_forall_rel_of_append_cons_cons.mpr fun a b before rest heq ha => ?_
  subst heq
  have hab := (List.isChain_append_cons_cons.mp h).2.1
  cases b with
  | constant text => exact ⟨text, rfl, hconst text (by simp)⟩
  | field name filler => exact absurd ha hab

theorem adjacentCaptures?_of_fieldsClosed {pieces : List Piece} (h : FieldsClosed pieces) :
    adjacentCaptures? (elementsOf pieces) = none := by
  induction pieces with
  | nil => rfl
  | cons piece rest ih =>
      have hrest := ih h.tail
      cases piece with
      | constant text =>
          by_cases htext : text = ""
          · subst htext
            exact hrest
          · rw [elementsOf_constant rfl (normalize_encode_ne_nil htext)]
            exact hrest
      | field name filler =>
          cases rest with
          | nil => rfl
          | cons next rest =>
              obtain ⟨text, rfl, htext⟩ := (List.isChain_cons_cons.mp h).1 rfl
              rw [elementsOf_constant rfl (normalize_encode_ne_nil htext)] at hrest
              rw [elementsOf_anchored rfl (normalize_encode_ne_nil htext)]
              exact hrest

/-- A field whose constant is found right behind it, and what is placed after the constant. -/
theorem exists_place?_field {field : String} {constant filler found tail message : List UInt8}
    {rest : Elements} {pieces : List Piece} {i j pos exact : Nat} (h : Tidy filler)
    (hpos : message.drop pos = (spaces i ++ filler ++ spaces j) ++ (found ++ tail))
    (hfind : find? constant ((spaces i ++ filler ++ spaces j) ++ (found ++ tail)) =
      some ((spaces i ++ filler ++ spaces j).length, found.length))
    (hrest : ∀ pos exact, message.drop pos = tail.dropWhile (· == space) →
      ∃ p, place? rest pos exact (tail.dropWhile (· == space)) = some p ∧
        textsOf p.captures message = fieldsOf pieces) :
    ∃ p, place? (.capture field false :: .constant constant :: rest) pos exact
        ((spaces i ++ filler ++ spaces j) ++ (found ++ tail)) = some p ∧
      textsOf p.captures message = (field, filler) :: fieldsOf pieces := by
  have hdrop : message.drop (pos + ((spaces i ++ filler ++ spaces j).length + found.length) +
      leadingSpaces tail) = tail.dropWhile (· == space) := by
    rw [← List.drop_drop, ← List.drop_drop, hpos, ← List.append_assoc, ← List.length_append,
      List.drop_left, drop_leadingSpaces]
  obtain ⟨p, hp, htexts⟩ := hrest _ _ hdrop
  refine ⟨p.consCapture (.ofText field pos (spaces i ++ filler ++ spaces j)), ?_, ?_⟩
  · rw [place?_capture_constant hfind, hp]
    rfl
  · rw [← htexts]
    exact congrArg (fun bytes => (field, bytes) :: textsOf p.captures message)
      (Capture.bytes_ofText field i j h hpos)

/-- The spaces between a filler and the text of the constant behind it. Without a filler the spaces in
front of the constant are gone, too. -/
theorem exists_gap (i a : Nat) {filler core : List UInt8} (h : Tidy filler) (hcore : core ≠ [])
    (hcoretidy : Tidy core) (tail : List UInt8) :
    ∃ j, spaces i ++ (filler ++ (spaces a ++ (core ++ tail))).dropWhile (· == space) =
        (spaces i ++ filler ++ spaces j) ++ (core ++ tail) ∧ (filler ≠ [] → j = a) := by
  by_cases hfiller : filler = []
  · subst hfiller
    have hhead : (core ++ tail).head? ≠ some space := by
      rw [List.head?_append_of_ne_nil _ hcore]
      exact hcoretidy.1
    refine ⟨0, ?_, fun hne => absurd rfl hne⟩
    rw [List.nil_append, dropWhile_run _ hhead]
    simp
  · have hhead : (filler ++ (spaces a ++ (core ++ tail))).head? ≠ some space := by
      rw [List.head?_append_of_ne_nil _ hfiller]
      exact h.1
    refine ⟨a, ?_, fun _ => rfl⟩
    rw [dropWhile_of_head?_ne hhead]
    simp

/-- What is left of the message agrees with the pieces that are left up to the spaces in front.
There are none when the first field ends at a space. -/
theorem place?_of_fieldsFit {message : List UInt8} {pieces : List Piece} (h : FieldsFit pieces)
    (i pos exact : Nat) (hi : StartsSeparated pieces → i = 0)
    (hpos : message.drop pos = spaces i ++ (messageOf pieces).dropWhile (· == space)) :
    ∃ p, place? (elementsOf pieces) pos exact
        (spaces i ++ (messageOf pieces).dropWhile (· == space)) = some p ∧
      textsOf p.captures message = fieldsOf pieces := by
  induction h generalizing i pos exact with
  | nil => exact ⟨.empty pos, rfl, rfl⟩
  | @last name filler htidy =>
      have hm : messageOf [.field name filler] = filler := List.append_nil _
      rw [hm, dropWhile_of_head?_ne htidy.1] at hpos ⊢
      refine ⟨_, rfl, ?_⟩
      have hpos' : message.drop pos = (spaces i ++ filler ++ spaces 0) ++ [] := by
        simpa using hpos
      have hbytes := Capture.bytes_ofText name i 0 htidy hpos'
      exact congrArg (fun bytes => [(name, bytes)]) (by simpa using hbytes)
  | @anchored name text filler rest htidy htext hends hrest ih =>
      obtain ⟨a, core, b, henc, hcore, hcoretidy⟩ := exists_padded_encode htext
      have hnorm : normalize (Text.encode text) = squeeze core :=
        henc ▸ normalize_padded a b hcore hcoretidy
      have hm : messageOf (.field name filler :: .constant text :: rest) =
          filler ++ (spaces a ++ (core ++ (spaces b ++ messageOf rest))) := by
        simp [messageOf, Piece.bytes, henc]
      obtain ⟨j, hshape, hj⟩ := exists_gap i a htidy hcore hcoretidy (spaces b ++ messageOf rest)
      have hearly : ∀ k < filler.length, occurrence? (squeeze core)
          ((filler ++ (spaces j ++ (core ++ (spaces b ++ messageOf rest)))).drop k) = none := by
        intro k hk
        have hja : j = a := hj fun hnil => by simp [hnil] at hk
        by_contra hocc
        refine hends ⟨k, Nat.lt_add_right _ hk, ?_⟩
        rw [hnorm, henc]
        simpa [hja] using hocc
      have hfind := find?_squeeze i j hcore hcoretidy (spaces b ++ messageOf rest) hearly
      rw [elementsOf_anchored hnorm (squeeze_ne_nil hcore)]
      rw [hm, hshape] at hpos ⊢
      refine exists_place?_field htidy hpos hfind fun pos exact hpos' => ?_
      rw [dropWhile_spaces_append] at hpos' ⊢
      exact ih 0 pos exact (fun _ => rfl) hpos'
  | @separated name text filler rest htidy hne htext hnonempty hspace hrest ih =>
      obtain ⟨n, henc⟩ := encode_eq_spaces htext hnonempty
      have hnorm : normalize (Text.encode text) = [space] := henc ▸ normalize_spaces n
      have hm : messageOf (.field name filler :: .constant text :: rest) =
          filler ++ ([space] ++ (spaces n ++ messageOf rest)) := by
        simp [messageOf, Piece.bytes, henc, spaces, List.replicate_succ]
      have hhead : (filler ++ ([space] ++ (spaces n ++ messageOf rest))).head? ≠ some space := by
        rw [List.head?_append_of_ne_nil _ hne]
        exact htidy.1
      have hshape : spaces i ++ (messageOf
          (.field name filler :: .constant text :: rest)).dropWhile (· == space) =
            (spaces 0 ++ filler ++ spaces 0) ++ ([space] ++ (spaces n ++ messageOf rest)) := by
        rw [hi ⟨name, filler, text, rest, rfl, htext⟩, hm, dropWhile_of_head?_ne hhead]
        simp
      have hfind := find?_space hspace (spaces n ++ messageOf rest)
      rw [elementsOf_anchored hnorm (List.cons_ne_nil _ _)]
      rw [hshape] at hpos ⊢
      refine exists_place?_field htidy hpos (by simpa using hfind) fun pos exact hpos' => ?_
      rw [dropWhile_spaces_append] at hpos' ⊢
      exact ih 0 pos exact (fun _ => rfl) hpos'

end LogRules.Matching

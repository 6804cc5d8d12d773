import LogRules.Proofs.Matching.Filling

/-! # Filled patterns give their fillers back

A filling `Fits` when its constants are not empty and every field ends at the constant behind it. The
first constant is placed at the beginning of the message and leaves the spaces that it ends in to the
fields behind it. This does harm only to a field that ends at a space, and then it does
(`givesBack_of_fits`, `not_givesBack_of_leavesSpaces`). Without constants of spaces every filling in
which no field ends early is given back (`givesBack_of_constants`). -/

namespace LogRules.Matching

/-! ### Fillings -/

/-- A field in front of a constant is the first piece, or stands in the rest. -/
theorem forall_field_cons {P : List UInt8 → String → List Piece → Prop} {piece : Piece}
    {pieces : List Piece} :
    (∀ before name filler text rest,
      piece :: pieces = before ++ .field name filler :: .constant text :: rest →
        P filler text rest) ↔
      (∀ name filler text rest, piece = .field name filler → pieces = .constant text :: rest →
        P filler text rest) ∧
      ∀ before name filler text rest,
        pieces = before ++ .field name filler :: .constant text :: rest → P filler text rest := by
  constructor
  · intro h
    refine ⟨?_, ?_⟩
    · rintro name filler text rest rfl rfl
      exact h [] name filler text rest rfl
    · rintro before name filler text rest rfl
      exact h (piece :: before) name filler text rest rfl
  · rintro ⟨hhead, htail⟩ before name filler text rest heq
    cases before with
    | nil =>
        obtain ⟨rfl, rfl⟩ := List.cons.inj heq
        exact hhead name filler text rest rfl rfl
    | cons first before => exact htail before name filler text rest (List.cons.inj heq).2

/-- No filler has spaces at its ends. A field before a constant of spaces has a filler without spaces,
and any other field before a constant does not end early. -/
structure Fits (pieces : List Piece) : Prop where
  alternates : Alternates pieces
  nonempty : ∀ text, .constant text ∈ pieces → text ≠ ""
  tidy : ∀ name filler, .field name filler ∈ pieces → Tidy filler
  separated : ∀ before name filler text rest,
    pieces = before ++ .field name filler :: .constant text :: rest → IsBlank text →
      filler ≠ [] ∧ space ∉ filler
  anchored : ∀ before name filler text rest,
    pieces = before ++ .field name filler :: .constant text :: rest → ¬ IsBlank text →
      ¬ EndsEarly filler text rest

namespace Fits

variable {piece : Piece} {pieces : List Piece}

theorem tail (h : Fits (piece :: pieces)) : Fits pieces where
  alternates := List.IsChain.tail h.alternates
  nonempty := fun text hmem => h.nonempty text (List.mem_cons_of_mem _ hmem)
  tidy := fun name filler hmem => h.tidy name filler (List.mem_cons_of_mem _ hmem)
  separated := fun before name filler text rest heq =>
    h.separated (piece :: before) name filler text rest (congrArg (piece :: ·) heq)
  anchored := fun before name filler text rest heq =>
    h.anchored (piece :: before) name filler text rest (congrArg (piece :: ·) heq)

/-- From the first field on, a filling is made of fields and the constants behind them. -/
theorem fieldsFit : ∀ {pieces : List Piece}, Fits pieces → pieces.head?.all Piece.isField →
    FieldsFit pieces
  | [], _, _ => .nil
  | .constant _ :: _, _, h => nomatch h
  | [.field name filler], h, _ => .last (h.tidy name filler List.mem_cons_self)
  | .field _ _ :: .field _ _ :: _, h, _ => absurd rfl (List.isChain_cons_cons.mp h.alternates).1
  | .field name filler :: .constant text :: rest, h, _ => by
      have htidy := h.tidy name filler List.mem_cons_self
      have hhead : rest.head?.all Piece.isField := by
        cases rest with
        | nil => rfl
        | cons next rest =>
            cases next with
            | constant other => exact absurd rfl (List.isChain_cons_cons.mp h.tail.alternates).1
            | field other filler' => rfl
      have hrest := fieldsFit h.tail.tail hhead
      by_cases htext : IsBlank text
      · obtain ⟨hne, hspace⟩ := h.separated [] name filler text rest rfl htext
        have hnonempty := h.nonempty text (List.mem_cons_of_mem _ List.mem_cons_self)
        exact .separated htidy hne htext hnonempty hspace hrest
      · exact .anchored htidy htext (h.anchored [] name filler text rest rfl htext) hrest

theorem head?_isField {text : String} (h : Fits (.constant text :: pieces)) :
    pieces.head?.all Piece.isField := by
  cases pieces with
  | nil => rfl
  | cons next rest =>
      cases next with
      | constant other => exact absurd rfl (List.isChain_cons_cons.mp h.alternates).1
      | field name filler => rfl

end Fits

/-! ### Placing a filling -/

/-- Spaces in front of the first field do no harm unless it ends at a space. -/
theorem place?_behind_spaces {message : List UInt8} {pieces : List Piece} (h : FieldsFit pieces)
    (k pos exact : Nat) (hk : StartsSeparated pieces → k = 0)
    (hpos : message.drop pos = spaces k ++ messageOf pieces) :
    ∃ p, place? (elementsOf pieces) pos exact (spaces k ++ messageOf pieces) = some p ∧
      textsOf p.captures message = fieldsOf pieces := by
  obtain ⟨n, rest, hmessage, hrest⟩ := exists_leading (messageOf pieces)
  have hshape : spaces k ++ messageOf pieces =
      spaces (k + n) ++ (messageOf pieces).dropWhile (· == space) := by
    rw [hmessage, dropWhile_run n hrest, ← List.append_assoc,
      List.replicate_append_replicate]
  have hn : StartsSeparated pieces → k + n = 0 := by
    intro hsep
    have hk0 := hk hsep
    obtain ⟨name, filler, text, after, rfl, htext⟩ := hsep
    cases h with
    | anchored _ hnot => exact absurd htext hnot
    | separated htidy hne =>
        cases n with
        | zero => omega
        | succ n =>
            have hhead := congrArg List.head? hmessage
            rw [messageOf, List.flatMap_cons, Piece.bytes, List.head?_append_of_ne_nil _ hne] at hhead
            exact absurd hhead htidy.1
  rw [hshape] at hpos ⊢
  exact place?_of_fieldsFit h (k + n) pos exact hn hpos

/-- A constant in front that is not blank and ends in a space, and a field that ends at a space. -/
def LeavesSpaces (pieces : List Piece) : Prop :=
  ∃ text name filler separator rest,
    pieces = .constant text :: .field name filler :: .constant separator :: rest ∧
      ¬ IsBlank text ∧ (Text.encode text).getLast? = some space ∧ separator ≠ "" ∧ IsBlank separator

theorem place?_constant {c m : List UInt8} {n pos exact : Nat} {rest : Elements}
    (h : skip? c m = some n) :
    place? (.constant c :: rest) pos exact m = place? rest (pos + n) (pos + n) (m.drop n) := by
  rw [place?, h]
  rfl

/-- A constant in front that is not blank is placed at the beginning of the message and leaves the
spaces that it ends in. -/
theorem place?_first {text : String} (htext : ¬ IsBlank text) (rest : List Piece) :
    ∃ n b, place? (elementsOf (.constant text :: rest)) 0 0 (messageOf (.constant text :: rest)) =
        place? (elementsOf rest) n n (spaces b ++ messageOf rest) ∧
      (messageOf (.constant text :: rest)).drop n = spaces b ++ messageOf rest ∧
      (b ≠ 0 ↔ (Text.encode text).getLast? = some space) := by
  obtain ⟨a, core, b, henc, hcore, htidy⟩ := exists_padded_encode htext
  have hnorm : normalize (Text.encode text) = squeeze core :=
    henc ▸ normalize_padded a b hcore htidy
  have hm : messageOf (.constant text :: rest) =
      spaces a ++ core ++ (spaces b ++ messageOf rest) := by
    rw [messageOf, List.flatMap_cons, Piece.bytes, henc, List.append_assoc]
    rfl
  have hdrop : (spaces a ++ core ++ (spaces b ++ messageOf rest)).drop (a + core.length) =
      spaces b ++ messageOf rest :=
    List.drop_left' (by simp)
  refine ⟨a + core.length, b, ?_, hm ▸ hdrop, ?_⟩
  · rw [elementsOf_constant hnorm (squeeze_ne_nil hcore), hm,
      place?_constant (skip?_squeeze a hcore htidy _), Nat.zero_add, hdrop]
  · rw [henc]
    cases b with
    | zero =>
        have hlast : (spaces a ++ core ++ spaces 0).getLast? = core.getLast? := by
          change (spaces a ++ core ++ []).getLast? = core.getLast?
          rw [List.append_nil, List.getLast?_append_of_ne_nil _ hcore]
        rw [hlast]
        exact ⟨fun hne => absurd rfl hne, fun heq => absurd heq htidy.2⟩
    | succ b =>
        have hlast : (spaces a ++ core ++ spaces (b + 1)).getLast? = some space := by
          rw [List.getLast?_append_of_ne_nil _ (by simp), List.getLast?_replicate,
            if_neg (Nat.succ_ne_zero b)]
        exact ⟨fun _ => hlast, fun _ => Nat.succ_ne_zero b⟩

/-- The first constant is placed at the beginning of the message, and the fields behind it. -/
theorem place?_of_fits {pieces : List Piece} (h : Fits pieces) (hleaves : ¬ LeavesSpaces pieces) :
    ∃ p, place? (elementsOf pieces) 0 0 (messageOf pieces) = some p ∧
      textsOf p.captures (messageOf pieces) = fieldsOf pieces := by
  cases pieces with
  | nil => exact ⟨.empty 0, rfl, rfl⟩
  | cons piece rest =>
      cases piece with
      | field name filler => exact place?_behind_spaces (h.fieldsFit rfl) 0 0 0 (fun _ => rfl) rfl
      | constant text =>
          have hrest := h.tail.fieldsFit h.head?_isField
          by_cases htext : IsBlank text
          · obtain ⟨n, henc⟩ := encode_eq_spaces htext (h.nonempty text List.mem_cons_self)
            have hnorm : normalize (Text.encode text) = [space] := henc ▸ normalize_spaces n
            have hm : messageOf (.constant text :: rest) = spaces (n + 1) ++ messageOf rest :=
              congrArg (· ++ messageOf rest) henc
            have hdrop : (spaces (n + 1) ++ messageOf rest).drop
                (leadingSpaces (spaces (n + 1) ++ messageOf rest)) =
                  (messageOf rest).dropWhile (· == space) := by
              rw [drop_leadingSpaces, dropWhile_spaces_append]
            rw [elementsOf_constant hnorm (List.cons_ne_nil _ _), hm,
              place?_constant (skip?_space n _), Nat.zero_add, hdrop]
            exact place?_of_fieldsFit hrest 0 _ _ (fun _ => rfl) hdrop
          · obtain ⟨n, b, hplace, hdrop, hb⟩ := place?_first htext rest
            have hstarts : StartsSeparated rest → b = 0 := by
              rintro ⟨name, filler, separator, after, rfl, hseparator⟩
              by_contra hne
              have hnonempty := h.nonempty separator (by simp)
              exact hleaves ⟨text, name, filler, separator, after, rfl, htext, hb.mp hne, hnonempty,
                hseparator⟩
            rw [hplace]
            exact place?_behind_spaces hrest b n n hstarts hdrop

theorem givesBack_iff_place? {pieces : List Piece} (h : Fits pieces) :
    GivesBack pieces ↔ ∃ p, place? (elementsOf pieces) 0 0 (messageOf pieces) = some p ∧
      textsOf p.captures (messageOf pieces) = fieldsOf pieces := by
  have hmatcher := ofPattern_patternOf pieces
  rw [adjacentCaptures?_of_fieldsClosed (h.alternates.fieldsClosed h.nonempty)] at hmatcher
  constructor
  · rintro ⟨matcher, m, hofPattern, hrun, htexts⟩
    cases hmatcher.symm.trans hofPattern
    rw [run_single] at hrun
    obtain ⟨p, hp, rfl⟩ := Option.map_eq_some_iff.mp hrun
    exact ⟨p, hp, htexts⟩
  · rintro ⟨p, hp, htexts⟩
    refine ⟨_, ⟨p.captures, p.payload?.getD p.stop⟩, hmatcher, ?_, htexts⟩
    rw [run_single, hp]
    rfl

theorem givesBack_of_fits {pieces : List Piece} (h : Fits pieces)
    (hleaves : ¬ LeavesSpaces pieces) : GivesBack pieces :=
  (givesBack_iff_place? h).mpr (place?_of_fits h hleaves)

/-- The space that the first constant leaves ends the field behind it. -/
theorem not_givesBack_of_leavesSpaces {pieces : List Piece} (h : Fits pieces)
    (hleaves : LeavesSpaces pieces) : ¬ GivesBack pieces := by
  intro hgives
  obtain ⟨p, hp, htexts⟩ := (givesBack_iff_place? h).mp hgives
  obtain ⟨text, name, filler, separator, rest, rfl, htext, hlast, hnonempty, hseparator⟩ := hleaves
  have hfiller := (h.separated [.constant text] name filler separator rest rfl hseparator).1
  obtain ⟨n, hsep⟩ := encode_eq_spaces hseparator hnonempty
  have hnorm : normalize (Text.encode separator) = [space] := hsep ▸ normalize_spaces n
  obtain ⟨k, b, hplace, -, hb⟩ := place?_first htext
    (.field name filler :: .constant separator :: rest)
  obtain ⟨b', rfl⟩ := Nat.exists_eq_succ_of_ne_zero (hb.mpr hlast)
  generalize messageOf (.field name filler :: .constant separator :: rest) = m at hplace
  have hfind : find? [space] ([] ++ ([space] ++ (spaces b' ++ m))) = some (0, 1) :=
    find?_space List.not_mem_nil _
  have hshape : spaces (b' + 1) ++ m = [] ++ ([space] ++ (spaces b' ++ m)) := rfl
  rw [hplace, elementsOf_anchored hnorm (List.cons_ne_nil _ _), hshape,
    place?_capture_constant hfind] at hp
  obtain ⟨q, -, rfl⟩ := Option.map_eq_some_iff.mp hp
  have hhead := congrArg List.head? htexts
  have hempty : (Capture.ofText name k []).bytes
      (messageOf (.constant text :: .field name filler :: .constant separator :: rest)) = [] := by
    unfold Capture.ofText Capture.bytes
    simp [leadingSpaces]
  have hbytes : (Capture.ofText name k []).bytes
      (messageOf (.constant text :: .field name filler :: .constant separator :: rest)) = filler :=
    congrArg Prod.snd (Option.some.inj hhead)
  exact hfiller (hbytes.symm.trans hempty)

/-! ### Round trips -/

/-- **Constants that are not blank.** A filling is given back when no filler has spaces at its ends
and no field ends early. -/
theorem givesBack_of_constants (pieces : List Piece) (halternates : Alternates pieces)
    (hconstants : ∀ text, .constant text ∈ pieces → ¬ IsBlank text)
    (htidy : ∀ name filler, .field name filler ∈ pieces → Tidy filler)
    (hends : ∀ before name filler text rest,
      pieces = before ++ .field name filler :: .constant text :: rest →
        ¬ EndsEarly filler text rest) : GivesBack pieces := by
  have hmem : ∀ before name filler text rest,
      pieces = before ++ .field name filler :: .constant text :: rest →
        .constant text ∈ pieces := by
    rintro before name filler text rest rfl
    simp
  refine givesBack_of_fits ⟨halternates, ?_, htidy, ?_, ?_⟩ ?_
  · rintro text htext rfl
    exact hconstants "" htext fun c hc => nomatch hc
  · intro before name filler text rest heq htext
    exact absurd htext (hconstants text (hmem before name filler text rest heq))
  · intro before name filler text rest heq _
    exact hends before name filler text rest heq
  · rintro ⟨text, name, filler, separator, rest, rfl, -, -, -, hseparator⟩
    exact hconstants separator (by simp) hseparator

/-- The filler `a b` of `[<user>] (<port> )` holds a space and is given back. -/
theorem givesBack_of_constants_brackets :
    GivesBack [.constant "[", .field "user" [97, 32, 98], .constant "] (", .field "port" [50, 50],
      .constant " )"] := by
  refine givesBack_of_constants _ (by decide) ?_ ?_ ?_
  · simp only [List.mem_cons, Piece.constant.injEq, reduceCtorEq, List.not_mem_nil, or_false,
      false_or]
    rintro text (rfl | rfl | rfl) <;> decide
  · simp only [List.mem_cons, Piece.field.injEq, reduceCtorEq, List.not_mem_nil, or_false, false_or]
    rintro name filler (⟨rfl, rfl⟩ | ⟨rfl, rfl⟩) <;> decide
  · iterate 5 rw [forall_field_cons]
    refine ⟨?_, ?_, ?_, ?_, ?_, ?_⟩
    · rintro _ _ _ _ ⟨⟩ ⟨⟩
    · rintro _ _ _ _ ⟨⟩ ⟨⟩
      decide
    · rintro _ _ _ _ ⟨⟩ ⟨⟩
    · rintro _ _ _ _ ⟨⟩ ⟨⟩
      decide
    · rintro _ _ _ _ ⟨⟩ ⟨⟩
    · simp

end LogRules.Matching

import LogRules.Proofs.Matching.Decomposition
import LogRules.Proofs.Matching.Separators

/-! # Filled patterns step by step

The pieces of a filled pattern are placed in steps: a constant is skipped, a field ends at the constant
behind it, or the last field takes what is left. A step leaves the spaces behind its constant in the message
or takes them, and two steps clash when the second one needs the other. Fields that do not end early are
given back exactly when no step clashes with the one before (`finds_iff_isChain`). -/

namespace LogRules.Matching

/-! ### Steps -/

/-- What is placed at once: a constant, a field with the constant behind it, or a field alone. -/
inductive Step where
  | skip (text : String)
  | seek (name : String) (filler : List UInt8) (text : String)
  | last (name : String) (filler : List UInt8)

namespace Step

/-- The pieces of a step. -/
def pieces : Step → List Piece
  | skip text => [.constant text]
  | seek name filler text => [.field name filler, .constant text]
  | last name filler => [.field name filler]

/-- The step takes all spaces behind its constant. -/
def TakesSpaces : Step → Prop
  | skip text => IsBlank text
  | seek _ _ _ => True
  | last _ _ => False

/-- The step leaves spaces that its constant ends in. -/
def LeavesSpaces : Step → Prop
  | skip text => ¬ IsBlank text ∧ (Text.encode text).getLast? = some space
  | _ => False

/-- A constant of spaces has no space left at its place, or a field that ends at a space has one in front. -/
def Clashes (first : Step) : Step → Prop
  | skip text => IsBlank text ∧ first.TakesSpaces
  | seek _ _ text => IsBlank text ∧ first.LeavesSpaces
  | last _ _ => False

instance : DecidablePred TakesSpaces
  | skip text => inferInstanceAs (Decidable (IsBlank text))
  | seek _ _ _ => instDecidableTrue
  | last _ _ => instDecidableFalse

instance : DecidablePred LeavesSpaces
  | skip text =>
    inferInstanceAs (Decidable (¬ IsBlank text ∧ (Text.encode text).getLast? = some space))
  | seek _ _ _ => instDecidableFalse
  | last _ _ => instDecidableFalse

instance (first : Step) : DecidablePred first.Clashes
  | skip text => inferInstanceAs (Decidable (IsBlank text ∧ first.TakesSpaces))
  | seek _ _ text => inferInstanceAs (Decidable (IsBlank text ∧ first.LeavesSpaces))
  | last _ _ => instDecidableFalse

/-- What is left in front of `behind` after the step. -/
def leaves : Step → List UInt8 → List UInt8
  | skip text, behind =>
    if IsBlank text then behind.dropWhile (· == space)
    else spaces (trailingSpaces (Text.encode text)) ++ behind
  | seek _ _ _, behind => behind.dropWhile (· == space)
  | last _ _, behind => behind

end Step

/-- The pieces of some steps. -/
def piecesOf (steps : List Step) : List Piece := steps.flatMap Step.pieces

/-- The steps along some pieces. There is none for an empty constant. -/
def stepsOf : List Piece → List Step
  | [] => []
  | .constant text :: rest => if text = "" then stepsOf rest else .skip text :: stepsOf rest
  | .field name filler :: .constant text :: rest => .seek name filler text :: stepsOf rest
  | .field name filler :: rest => .last name filler :: stepsOf rest

/-- What is left of the message behind the step before, if there is one. -/
def leftBehind (before? : Option Step) (behind : List UInt8) : List UInt8 :=
  before?.elim behind (·.leaves behind)

/-- Where the normal form of a constant begins in the constant. -/
def ownPlace (text : String) : Nat := if IsBlank text then 0 else leadingSpaces (Text.encode text)

/-- The constant behind a filler occurs in the filler, or in front of its own place. -/
def OccursEarly (filler : List UInt8) (text : String) (behind : List UInt8) : Prop :=
  ∃ k < filler.length + ownPlace text,
    Occurs (normalize (Text.encode text)) ((filler ++ (Text.encode text ++ behind)).drop k)

/-- An empty constant occurs everywhere. -/
theorem occursEarly_empty {filler : List UInt8} (h : filler ≠ []) (behind : List UInt8) :
    OccursEarly filler "" behind :=
  ⟨0, Nat.lt_add_right _ (List.length_pos_iff.mpr h), [], _, rfl, rfl, rfl⟩

theorem occursEarly_iff {filler : List UInt8} {text : String} (h : text ≠ "") (behind : List UInt8) :
    OccursEarly filler text behind ↔ ∃ k < filler.length + ownPlace text,
      occurrence? (normalize (Text.encode text)) ((filler ++ (Text.encode text ++ behind)).drop k) ≠
        none := by
  have hnormal := normal_normalize (normalize_encode_ne_nil h)
  simp only [OccursEarly, occurrence?_ne_none_iff hnormal]

/-- The elements find the fields in the message from `pos` on. -/
def Finds (message : List UInt8) (elements : Elements) (pos exact : Nat)
    (fields : List (String × List UInt8)) : Prop :=
  ∃ p, place? elements pos exact (message.drop pos) = some p ∧ textsOf p.captures message = fields

/-! ### Single elements -/

section

variable {message : List UInt8} {pos exact : Nat} {rest : Elements}
  {fields : List (String × List UInt8)}

theorem finds_nil : Finds message [] pos exact [] := ⟨.empty pos, rfl, rfl⟩

theorem finds_constant {c : List UInt8} {n : Nat} (h : skip? c (message.drop pos) = some n) :
    Finds message (.constant c :: rest) pos exact fields ↔
      Finds message rest (pos + n) (pos + n) fields := by
  rw [Finds, place?_constant h, List.drop_drop]
  rfl

theorem not_finds_constant {c : List UInt8} (h : skip? c (message.drop pos) = none) :
    ¬ Finds message (.constant c :: rest) pos exact fields := by
  rintro ⟨p, hp, -⟩
  rw [place?, h] at hp
  cases hp

/-- A field has the bytes in front of the constant behind it, without the spaces around them. The constant
takes all spaces behind it. -/
theorem finds_capture {name : String} {c text found tail filler : List UInt8}
    (hpos : message.drop pos = text ++ (found ++ tail))
    (hfind : find? c (text ++ (found ++ tail)) = some (text.length, found.length)) :
    ∃ pos' exact', message.drop pos' = tail.dropWhile (· == space) ∧
      (Finds message (.capture name false :: .constant c :: rest) pos exact ((name, filler) :: fields) ↔
        trimSpaces text = filler ∧ Finds message rest pos' exact' fields) := by
  have hdrop : message.drop (pos + (text.length + found.length) + leadingSpaces tail) =
      tail.dropWhile (· == space) := by
    rw [← List.drop_drop, ← List.drop_drop, hpos, ← List.append_assoc, ← List.length_append,
      List.drop_left, drop_leadingSpaces]
  have hbytes := Capture.bytes_ofText_eq name hpos
  refine ⟨_, pos + (text.length + found.length), hdrop, ?_⟩
  unfold Finds
  rw [hpos, place?_capture_constant hfind, hdrop]
  constructor
  · rintro ⟨p, hp, htexts⟩
    obtain ⟨q, hq, rfl⟩ := Option.map_eq_some_iff.mp hp
    obtain ⟨hhead, hrest⟩ := List.cons.inj htexts
    exact ⟨hbytes.symm.trans (congrArg Prod.snd hhead), q, hq, hrest⟩
  · rintro ⟨rfl, q, hq, htexts⟩
    refine ⟨_, Option.map_eq_some_iff.mpr ⟨q, hq, rfl⟩, ?_⟩
    rw [← htexts, ← hbytes]
    rfl

/-- The last field has what is left, without the spaces around it. -/
theorem finds_last {name : String} {filler : List UInt8} :
    Finds message [.capture name false] pos exact [(name, filler)] ↔
      trimSpaces (message.drop pos) = filler := by
  have hbytes := Capture.bytes_ofText_eq name (List.append_nil (message.drop pos)).symm
  constructor
  · rintro ⟨p, hp, htexts⟩
    obtain rfl := Option.some.inj hp
    exact hbytes.symm.trans (congrArg Prod.snd (List.cons.inj htexts).1)
  · rintro rfl
    refine ⟨_, rfl, ?_⟩
    rw [← hbytes]
    rfl

end

/-! ### What the step before leaves -/

theorem trailingSpaces_ne_zero_iff {m : List UInt8} :
    trailingSpaces m ≠ 0 ↔ m.getLast? = some space := by
  constructor
  · intro h
    by_contra hlast
    exact h (trailingSpaces_of_getLast?_ne hlast)
  · intro h
    obtain ⟨front, rfl⟩ := List.getLast?_eq_some_iff.mp h
    have hone : trailingSpaces (front ++ [space]) = 1 + trailingSpaces front :=
      trailingSpaces_append_spaces 1 front
    omega

theorem Step.not_leavesSpaces {step : Step} (h : step.TakesSpaces) : ¬ step.LeavesSpaces := by
  cases step with
  | skip text => exact fun hleaves => hleaves.1 h
  | seek name filler text => exact id
  | last name filler => exact id

/-- The spaces in front are gone, or there are as many more as the constant before ends in. -/
theorem leftBehind_cases (before? : Option Step) (behind : List UInt8) :
    (∃ first ∈ before?, first.TakesSpaces ∧
      leftBehind before? behind = behind.dropWhile (· == space)) ∨
    ∃ k, leftBehind before? behind = spaces k ++ behind ∧
      (k ≠ 0 ↔ ∃ first ∈ before?, first.LeavesSpaces) := by
  cases before? with
  | none => exact .inr ⟨0, rfl, fun h => absurd rfl h, fun ⟨_, hnone, _⟩ => nomatch hnone⟩
  | some first =>
      have hleft : leftBehind (some first) behind = first.leaves behind := rfl
      have hsome : (∃ step ∈ some first, step.LeavesSpaces) ↔ first.LeavesSpaces := by simp
      cases first with
      | seek name filler text => exact .inl ⟨_, rfl, trivial, rfl⟩
      | last name filler => exact .inr ⟨0, rfl, by simp [Step.LeavesSpaces]⟩
      | skip text =>
          rw [hsome, hleft, Step.leaves]
          by_cases htext : IsBlank text
          · exact .inl ⟨_, rfl, htext, if_pos htext⟩
          · refine .inr ⟨_, if_neg htext, ?_⟩
            rw [trailingSpaces_ne_zero_iff]
            exact ⟨fun hlast => ⟨htext, hlast⟩, fun hleaves => hleaves.2⟩

/-- In front of a filler are the spaces of the constant before. -/
theorem exists_leftBehind_tidy (before? : Option Step) {m : List UInt8} (h : m.head? ≠ some space) :
    ∃ k, leftBehind before? m = spaces k ++ m ∧
      (k ≠ 0 ↔ ∃ first ∈ before?, first.LeavesSpaces) := by
  rcases leftBehind_cases before? m with ⟨first, hfirst, htakes, heq⟩ | hspaces
  · refine ⟨0, heq.trans (dropWhile_of_head?_ne h), fun hne => absurd rfl hne, ?_⟩
    rintro ⟨other, hother, hleaves⟩
    obtain rfl := Option.mem_unique hfirst hother
    exact absurd hleaves (Step.not_leavesSpaces htakes)
  · exact hspaces

/-- In front of a core with spaces before it are some spaces. -/
theorem exists_leftBehind_padded (before? : Option Step) (a : Nat) {m : List UInt8}
    (h : m.head? ≠ some space) : ∃ k, leftBehind before? (spaces a ++ m) = spaces k ++ m := by
  rcases leftBehind_cases before? (spaces a ++ m) with ⟨-, -, -, heq⟩ | ⟨k, heq, -⟩
  · exact ⟨0, heq.trans (dropWhile_run a h)⟩
  · refine ⟨k + a, heq.trans ?_⟩
    rw [← List.append_assoc, List.replicate_append_replicate]

/-! ### Single steps -/

/-- The step has a constant that is not empty, and a filler without spaces at its ends in front of which
and in which the constant does not occur. A field alone is the last step. -/
def Step.Fits : Step → List Step → Prop
  | skip text, _ => text ≠ ""
  | seek _ filler text, rest =>
    filler ≠ [] ∧ Tidy filler ∧ text ≠ "" ∧ ¬ OccursEarly filler text (messageOf (piecesOf rest))
  | last _ filler, rest => Tidy filler ∧ rest = []

/-- A field ends at its constant, whatever spaces are in front of the filler. A constant of spaces has none
in front. -/
theorem find?_of_not_occursEarly {filler behind : List UInt8} {text : String} (k : Nat) (htext : text ≠ "")
    (hearly : ¬ OccursEarly filler text behind) (hk : IsBlank text → k = 0) :
    ∃ j found tail, spaces k ++ (filler ++ (Text.encode text ++ behind)) =
        (spaces k ++ filler ++ spaces j) ++ (found ++ tail) ∧
      find? (normalize (Text.encode text)) ((spaces k ++ filler ++ spaces j) ++ (found ++ tail)) =
        some ((spaces k ++ filler ++ spaces j).length, found.length) ∧
      tail.dropWhile (· == space) = behind.dropWhile (· == space) := by
  rw [occursEarly_iff htext] at hearly
  by_cases hblank : IsBlank text
  · obtain rfl := hk hblank
    obtain ⟨n, henc⟩ := encode_eq_spaces hblank htext
    rw [henc, normalize_spaces] at hearly ⊢
    have hspace : space ∉ filler := by
      intro hmem
      obtain ⟨i, hi, hget⟩ := List.getElem_of_mem hmem
      refine hearly ⟨i, Nat.lt_add_right _ hi, ?_⟩
      rw [List.drop_append_of_le_length (Nat.le_of_lt hi), List.drop_eq_getElem_cons hi, hget]
      simp [occurrence?, reads?]
    have hfind := find?_space hspace (spaces n ++ behind)
    refine ⟨0, [space], spaces n ++ behind, ?_, ?_, dropWhile_spaces_append n behind⟩
    · simp [spaces, List.replicate_succ]
    · simpa using hfind
  · obtain ⟨a, core, b, henc, hcore, hcoretidy⟩ := exists_padded_encode hblank
    rw [henc, normalize_padded a b hcore hcoretidy] at hearly ⊢
    refine ⟨a, core, spaces b ++ behind, by simp, ?_, dropWhile_spaces_append b behind⟩
    refine find?_squeeze k a hcore hcoretidy _ fun i hi => ?_
    by_contra hocc
    refine hearly ⟨i, Nat.lt_add_right _ hi, ?_⟩
    simpa using hocc

section

variable {message : List UInt8} {before? : Option Step} {rest : List Step} {pos : Nat}

/-- A constant that is not blank is skipped up to the spaces that it ends in. -/
theorem finds_skip {text : String} (htext : ¬ IsBlank text)
    (hpos : message.drop pos = leftBehind before? (messageOf (piecesOf (.skip text :: rest))))
    (exact : Nat) :
    ∃ pos' exact', message.drop pos' = (Step.skip text).leaves (messageOf (piecesOf rest)) ∧
      (Finds message (elementsOf (piecesOf (.skip text :: rest))) pos exact
          (fieldsOf (piecesOf rest)) ↔
        Finds message (elementsOf (piecesOf rest)) pos' exact' (fieldsOf (piecesOf rest))) := by
  obtain ⟨a, core, b, henc, hcore, htidy⟩ := exists_padded_encode htext
  have hnorm : normalize (Text.encode text) = squeeze core :=
    henc ▸ normalize_padded a b hcore htidy
  have hm : messageOf (piecesOf (.skip text :: rest)) =
      spaces a ++ (core ++ (spaces b ++ messageOf (piecesOf rest))) := by
    simp [piecesOf, Step.pieces, messageOf, Piece.bytes, henc]
  have hhead : (core ++ (spaces b ++ messageOf (piecesOf rest))).head? ≠ some space := by
    rw [List.head?_append_of_ne_nil _ hcore]
    exact htidy.1
  have htrailing : trailingSpaces (Text.encode text) = b := by
    have hlast : (spaces a ++ core).getLast? ≠ some space := by
      rw [List.getLast?_append_of_ne_nil _ hcore]
      exact htidy.2
    rw [henc, trailingSpaces_append_spaces, trailingSpaces_of_getLast?_ne hlast, Nat.add_zero]
  obtain ⟨k, hleft⟩ := exists_leftBehind_padded before? a hhead
  rw [hm, hleft, ← List.append_assoc] at hpos
  have hskip := skip?_squeeze k hcore htidy (spaces b ++ messageOf (piecesOf rest))
  refine ⟨pos + (k + core.length), pos + (k + core.length), ?_, ?_⟩
  · rw [← List.drop_drop, hpos, List.drop_left' (by simp), Step.leaves, if_neg htext, htrailing]
  · have helements : elementsOf (piecesOf (.skip text :: rest)) =
        .constant (squeeze core) :: elementsOf (piecesOf rest) :=
      elementsOf_constant hnorm (squeeze_ne_nil hcore)
    rw [helements]
    exact finds_constant (hpos ▸ hskip)

/-- A constant of spaces is skipped with all spaces behind it, if there is a space left. -/
theorem finds_skip_blank {text : String} (htext : IsBlank text) (hne : text ≠ "")
    (hpos : message.drop pos = leftBehind before? (messageOf (piecesOf (.skip text :: rest))))
    (htakes : ∀ first ∈ before?, ¬ first.TakesSpaces) (exact : Nat) :
    ∃ pos' exact', message.drop pos' = (Step.skip text).leaves (messageOf (piecesOf rest)) ∧
      (Finds message (elementsOf (piecesOf (.skip text :: rest))) pos exact
          (fieldsOf (piecesOf rest)) ↔
        Finds message (elementsOf (piecesOf rest)) pos' exact' (fieldsOf (piecesOf rest))) := by
  obtain ⟨n, henc⟩ := encode_eq_spaces htext hne
  have hnorm : normalize (Text.encode text) = [space] := henc ▸ normalize_spaces n
  have hm : messageOf (piecesOf (.skip text :: rest)) =
      spaces (n + 1) ++ messageOf (piecesOf rest) :=
    congrArg (· ++ messageOf (piecesOf rest)) henc
  obtain ⟨first, hfirst, hfirsttakes, -⟩ | ⟨k, hleft, -⟩ :=
    leftBehind_cases before? (messageOf (piecesOf (.skip text :: rest)))
  · exact absurd hfirsttakes (htakes first hfirst)
  · rw [hleft, hm, ← List.append_assoc, List.replicate_append_replicate, ← Nat.add_assoc] at hpos
    have hskip := skip?_space (k + n) (messageOf (piecesOf rest))
    refine ⟨pos + leadingSpaces (spaces (k + n + 1) ++ messageOf (piecesOf rest)),
      pos + leadingSpaces (spaces (k + n + 1) ++ messageOf (piecesOf rest)), ?_, ?_⟩
    · rw [← List.drop_drop, hpos, drop_leadingSpaces, dropWhile_spaces_append, Step.leaves,
        if_pos htext]
    · have helements : elementsOf (piecesOf (.skip text :: rest)) =
          .constant [space] :: elementsOf (piecesOf rest) :=
        elementsOf_constant hnorm (List.cons_ne_nil _ _)
      rw [helements]
      exact finds_constant (hpos ▸ hskip)

/-- A field ends at the constant behind it, and the spaces behind the constant are taken. -/
theorem finds_seek {name text : String} {filler : List UInt8} (hne : filler ≠ []) (htidy : Tidy filler)
    (htext : text ≠ "") (hearly : ¬ OccursEarly filler text (messageOf (piecesOf rest)))
    (hpos : message.drop pos =
      leftBehind before? (messageOf (piecesOf (.seek name filler text :: rest))))
    (hleaves : IsBlank text → ∀ first ∈ before?, ¬ first.LeavesSpaces) (exact : Nat) :
    ∃ pos' exact', message.drop pos' =
        (Step.seek name filler text).leaves (messageOf (piecesOf rest)) ∧
      (Finds message (elementsOf (piecesOf (.seek name filler text :: rest))) pos exact
          ((name, filler) :: fieldsOf (piecesOf rest)) ↔
        Finds message (elementsOf (piecesOf rest)) pos' exact' (fieldsOf (piecesOf rest))) := by
  have hm : messageOf (piecesOf (.seek name filler text :: rest)) =
      filler ++ (Text.encode text ++ messageOf (piecesOf rest)) := rfl
  have hhead : (filler ++ (Text.encode text ++ messageOf (piecesOf rest))).head? ≠ some space := by
    rw [List.head?_append_of_ne_nil _ hne]
    exact htidy.1
  obtain ⟨k, hleft, hk⟩ := exists_leftBehind_tidy before? hhead
  have hzero : IsBlank text → k = 0 := by
    intro hblank
    by_contra hkne
    obtain ⟨first, hfirst, hfirstleaves⟩ := hk.mp hkne
    exact hleaves hblank first hfirst hfirstleaves
  obtain ⟨j, found, tail, hshape, hfind, htail⟩ := find?_of_not_occursEarly k htext hearly hzero
  rw [hm, hleft, hshape] at hpos
  have helements : elementsOf (piecesOf (.seek name filler text :: rest)) =
      .capture name false :: .constant (normalize (Text.encode text)) :: elementsOf (piecesOf rest) :=
    elementsOf_anchored rfl (normalize_encode_ne_nil htext)
  obtain ⟨pos', exact', hpos', hiff⟩ := finds_capture hpos hfind
  refine ⟨pos', exact', hpos'.trans htail, ?_⟩
  rw [helements, hiff]
  exact and_iff_right (trimSpaces_padded k j htidy)

/-- A step that does not clash finds its field, and leaves what it leaves. -/
theorem exists_finds_iff {step : Step} (hfits : step.Fits rest)
    (hpos : message.drop pos = leftBehind before? (messageOf (piecesOf (step :: rest))))
    (hclash : ∀ first ∈ before?, ¬ first.Clashes step) (exact : Nat) :
    ∃ pos' exact', message.drop pos' = step.leaves (messageOf (piecesOf rest)) ∧
      (Finds message (elementsOf (piecesOf (step :: rest))) pos exact
          (fieldsOf (piecesOf (step :: rest))) ↔
        Finds message (elementsOf (piecesOf rest)) pos' exact' (fieldsOf (piecesOf rest))) := by
  cases step with
  | skip text =>
      by_cases htext : IsBlank text
      · exact finds_skip_blank htext hfits hpos
          (fun first hfirst htakes => hclash first hfirst ⟨htext, htakes⟩) exact
      · exact finds_skip htext hpos exact
  | seek name filler text =>
      obtain ⟨hne, htidy, htext, hearly⟩ := hfits
      exact finds_seek hne htidy htext hearly hpos
        (fun hblank first hfirst hleaves => hclash first hfirst ⟨hblank, hleaves⟩) exact
  | last name filler =>
      obtain ⟨htidy, rfl⟩ := hfits
      have hm : messageOf (piecesOf [.last name filler]) = filler := List.append_nil filler
      obtain ⟨k, hleft, -⟩ := exists_leftBehind_tidy before? htidy.1
      have htrim : trimSpaces (spaces k ++ filler) = filler := by
        simpa using trimSpaces_padded k 0 htidy
      rw [hm, hleft] at hpos
      refine ⟨message.length, 0, List.drop_length, iff_of_true ?_ finds_nil⟩
      exact finds_last.mpr (hpos ▸ htrim)

/-- Without a space left the constant is not there, and with one left the field is empty. -/
theorem not_finds_of_clashes {first step : Step} (hfits : step.Fits rest)
    (hpos : message.drop pos = first.leaves (messageOf (piecesOf (step :: rest))))
    (hclash : first.Clashes step) (exact : Nat) :
    ¬ Finds message (elementsOf (piecesOf (step :: rest))) pos exact
      (fieldsOf (piecesOf (step :: rest))) := by
  cases step with
  | last name filler => exact absurd hclash id
  | skip text =>
      obtain ⟨htext, htakes⟩ := hclash
      obtain ⟨n, henc⟩ := encode_eq_spaces htext hfits
      have hnorm : normalize (Text.encode text) = [space] := henc ▸ normalize_spaces n
      have helements : elementsOf (piecesOf (.skip text :: rest)) =
          .constant [space] :: elementsOf (piecesOf rest) :=
        elementsOf_constant hnorm (List.cons_ne_nil _ _)
      -- the step before has taken the spaces that the constant is made of
      have hdrop : message.drop pos =
          (messageOf (piecesOf (.skip text :: rest))).dropWhile (· == space) := by
        rw [hpos]
        cases first with
        | skip other => exact if_pos htakes
        | seek name filler other => rfl
        | last name filler => exact absurd htakes id
      have hnone : skip? [space] (message.drop pos) = none := by
        obtain ⟨k, behind, hm, hhead⟩ := exists_leading (messageOf (piecesOf (.skip text :: rest)))
        rw [hdrop, hm, dropWhile_run k hhead]
        simp [skip?, leadingSpaces_of_head?_ne hhead]
      rw [helements]
      exact not_finds_constant hnone
  | seek name filler text =>
      obtain ⟨htext, hleaves⟩ := hclash
      obtain ⟨hne, htidy, hnonempty, -⟩ := hfits
      obtain ⟨n, henc⟩ := encode_eq_spaces htext hnonempty
      have hnorm : normalize (Text.encode text) = [space] := henc ▸ normalize_spaces n
      have hhead : (messageOf (piecesOf (.seek name filler text :: rest))).head? ≠ some space := by
        rw [show messageOf (piecesOf (.seek name filler text :: rest)) =
          filler ++ (Text.encode text ++ messageOf (piecesOf rest)) from rfl,
          List.head?_append_of_ne_nil _ hne]
        exact htidy.1
      obtain ⟨k, hleft, hk⟩ := exists_leftBehind_tidy (some first) hhead
      -- the field ends at the first of the spaces in front of its filler
      obtain ⟨k, rfl⟩ := Nat.exists_eq_succ_of_ne_zero (hk.mpr ⟨first, rfl, hleaves⟩)
      have hshape : message.drop pos = [] ++ ([space] ++
          (spaces k ++ messageOf (piecesOf (.seek name filler text :: rest)))) := hpos.trans hleft
      have helements : elementsOf (piecesOf (.seek name filler text :: rest)) =
          .capture name false :: .constant [space] :: elementsOf (piecesOf rest) :=
        elementsOf_anchored hnorm (List.cons_ne_nil _ _)
      have hfields : fieldsOf (piecesOf (.seek name filler text :: rest)) =
          (name, filler) :: fieldsOf (piecesOf rest) := rfl
      obtain ⟨pos', exact', -, hiff⟩ := finds_capture hshape (find?_space List.not_mem_nil _)
      rw [helements, hfields, hiff]
      exact fun hfinds => hne hfinds.1.symm

end

/-! ### Steps one after the other -/

/-- Every step fits in front of those behind it. -/
def StepsFit : List Step → Prop
  | [] => True
  | step :: rest => step.Fits rest ∧ StepsFit rest

/-- **Steps find their fields** exactly when no step clashes with the one before. -/
theorem finds_iff_isChain {message : List UInt8} {steps : List Step} (h : StepsFit steps)
    (before? : Option Step) (pos exact : Nat)
    (hpos : message.drop pos = leftBehind before? (messageOf (piecesOf steps))) :
    Finds message (elementsOf (piecesOf steps)) pos exact (fieldsOf (piecesOf steps)) ↔
      (before?.toList ++ steps).IsChain fun a b => ¬ a.Clashes b := by
  induction steps generalizing before? pos exact with
  | nil =>
      refine iff_of_true finds_nil ?_
      cases before? with
      | none => exact .nil
      | some first => exact .singleton first
  | cons step rest ih =>
      obtain ⟨hfits, hrest⟩ := h
      by_cases hclash : ∀ first ∈ before?, ¬ first.Clashes step
      · obtain ⟨pos', exact', hpos', hiff⟩ := exists_finds_iff hfits hpos hclash exact
        rw [hiff, ih hrest (some step) pos' exact' hpos']
        cases before? with
        | none => rfl
        | some first =>
            refine (List.isChain_cons_cons.trans ?_).symm
            exact and_iff_right (hclash first rfl)
      · push Not at hclash
        obtain ⟨first, hfirst, hclashes⟩ := hclash
        obtain rfl := Option.mem_def.mp hfirst
        refine iff_of_false (not_finds_of_clashes hfits hpos hclashes exact) fun hchain => ?_
        exact (List.isChain_cons_cons.mp hchain).1 hclashes

/-! ### The steps along pieces -/

/-- An empty constant adds nothing, so there is no step for it. -/
theorem stepsOf_frame (pieces : List Piece) :
    elementsOf (piecesOf (stepsOf pieces)) = elementsOf pieces ∧
      messageOf (piecesOf (stepsOf pieces)) = messageOf pieces ∧
      fieldsOf (piecesOf (stepsOf pieces)) = fieldsOf pieces := by
  fun_induction stepsOf pieces with
  | case1 => exact ⟨rfl, rfl, rfl⟩
  | case2 rest ih => exact ih
  | case3 text rest htext ih =>
      obtain ⟨helements, hmessage, hfields⟩ := ih
      exact ⟨congrArg (ofConstant text ++ ·) helements, congrArg (Text.encode text ++ ·) hmessage,
        hfields⟩
  | case4 name filler text rest ih =>
      obtain ⟨helements, hmessage, hfields⟩ := ih
      exact ⟨congrArg (Element.capture name false :: ofConstant text ++ ·) helements,
        congrArg (fun m => filler ++ (Text.encode text ++ m)) hmessage,
        congrArg ((name, filler) :: ·) hfields⟩
  | case5 name filler rest hrest ih =>
      obtain ⟨helements, hmessage, hfields⟩ := ih
      exact ⟨congrArg (Element.capture name false :: ·) helements, congrArg (filler ++ ·) hmessage,
        congrArg ((name, filler) :: ·) hfields⟩

/-- No filler is empty or has spaces at its ends. -/
def FillersTidy (pieces : List Piece) : Prop :=
  ∀ name filler, .field name filler ∈ pieces → filler ≠ [] ∧ Tidy filler

/-- No constant behind a field occurs early. -/
def EndsInTime (pieces : List Piece) : Prop :=
  ∀ before name filler text rest, pieces = before ++ .field name filler :: .constant text :: rest →
    ¬ OccursEarly filler text (messageOf rest)

theorem EndsInTime.tail {piece : Piece} {pieces : List Piece} (h : EndsInTime (piece :: pieces)) :
    EndsInTime pieces :=
  fun before name filler text rest heq =>
    h (piece :: before) name filler text rest (congrArg (piece :: ·) heq)

theorem FillersTidy.tail {piece : Piece} {pieces : List Piece} (h : FillersTidy (piece :: pieces)) :
    FillersTidy pieces :=
  fun name filler hmem => h name filler (List.mem_cons_of_mem _ hmem)

theorem stepsFit_stepsOf {pieces : List Piece} (hclosed : FieldsClosed pieces)
    (hfillers : FillersTidy pieces) (hends : EndsInTime pieces) : StepsFit (stepsOf pieces) := by
  fun_induction stepsOf pieces with
  | case1 => trivial
  | case2 rest ih => exact ih hclosed.tail hfillers.tail hends.tail
  | case3 text rest htext ih => exact ⟨htext, ih hclosed.tail hfillers.tail hends.tail⟩
  | case4 name filler text rest ih =>
      obtain ⟨hne, htidy⟩ := hfillers name filler List.mem_cons_self
      obtain ⟨other, heq, htext⟩ := (List.isChain_cons_cons.mp hclosed).1 rfl
      obtain rfl := Piece.constant.inj heq
      refine ⟨⟨hne, htidy, htext, ?_⟩, ih hclosed.tail.tail hfillers.tail.tail hends.tail.tail⟩
      rw [(stepsOf_frame rest).2.1]
      exact hends [] name filler text rest rfl
  | case5 name filler rest hrest ih =>
      obtain ⟨-, htidy⟩ := hfillers name filler List.mem_cons_self
      cases rest with
      | nil => exact ⟨⟨htidy, rfl⟩, trivial⟩
      | cons next rest =>
          obtain ⟨text, rfl, -⟩ := (List.isChain_cons_cons.mp hclosed).1 rfl
          exact absurd rfl (hrest text rest)

/-- The elements of pieces find the fillers in their message exactly when no steps clash. -/
theorem finds_iff_of_pieces {pieces : List Piece} (hclosed : FieldsClosed pieces)
    (hfillers : FillersTidy pieces) (hends : EndsInTime pieces) :
    Finds (messageOf pieces) (elementsOf pieces) 0 0 (fieldsOf pieces) ↔
      (stepsOf pieces).IsChain fun a b => ¬ a.Clashes b := by
  obtain ⟨helements, hmessage, hfields⟩ := stepsOf_frame pieces
  have hiff := finds_iff_isChain (stepsFit_stepsOf hclosed hfillers hends) none 0 0 hmessage.symm
  rwa [helements, hfields] at hiff

end LogRules.Matching

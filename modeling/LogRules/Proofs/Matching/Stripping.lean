import LogRules.Proofs.Matching.LeadingSpaces
import LogRules.Proofs.Matching.Residue
import LogRules.Proofs.Pattern.RoundTrip
import LogRules.Transform.Spacing

/-! # Patterns without leading spaces

Taking away the spaces in front of a pattern leaves a matcher that finds at least what was found before, as long as
the first chunk then takes the same alternative as before (`run_stripped`). A constant that has more than spaces has
the same normal form without those in front. A constant of spaces is dropped, so that the items behind it start at
the spaces of the message and not behind them: the first part that has bytes takes them, unless a space is looked
for there. -/

namespace LogRules.Matching

open Pattern

/-! ### Spaces in front of a constant -/

theorem normalize_spaces_append (k : Nat) {text : List UInt8} (h : ∃ c ∈ text, c ≠ space) :
    normalize (spaces k ++ text) = normalize text := by
  obtain ⟨a, core, b, rfl, hcore, htidy⟩ := exists_padded h
  rw [normalize_padded a b hcore htidy, ← List.append_assoc, ← List.append_assoc, ← spaces_add,
    normalize_padded (k + a) b hcore htidy]

/-- No other character begins with the byte of a space. -/
theorem eq_of_head?_utf8EncodeChar {c : Char} (h : (String.utf8EncodeChar c).head? = some space) : c = ' ' := by
  have hbyte {n : Nat} (hn : some (UInt8.ofNat n) = some space) : n % 256 = 32 :=
    congrArg UInt8.toNat (Option.some.inj hn)
  unfold String.utf8EncodeChar at h
  dsimp only at h
  split at h
  · have hval := hbyte h
    have hspace : (' ').val.toNat = 32 := rfl
    exact Char.ext (UInt32.toNat_inj.mp (by omega))
  · -- the first of several bytes is not below 192
    exfalso
    split at h
    · have hval := hbyte h
      omega
    · split at h
      · have hval := hbyte h
        omega
      · have hval := hbyte h
        omega

theorem encodeChars_spaces (n : Nat) : Text.encodeChars (List.replicate n ' ') = spaces n := by
  induction n with
  | zero => rfl
  | succ n ih => exact congrArg (space :: ·) ih

/-- Characters that do not begin with a space have a byte that is no space. -/
theorem exists_ne_space_encodeChars {cs : List Char} (hne : cs ≠ []) (hhead : cs.head? ≠ some ' ') :
    ∃ b ∈ Text.encodeChars cs, b ≠ space := by
  obtain ⟨c, cs, rfl⟩ := List.exists_cons_of_ne_nil hne
  obtain ⟨b, bytes, hbytes⟩ := List.exists_cons_of_ne_nil (String.utf8EncodeChar_ne_nil (c := c))
  refine ⟨b, ?_, ?_⟩
  · rw [Text.encodeChars, List.flatMap_cons, hbytes]
    exact List.mem_append_left _ List.mem_cons_self
  · rintro rfl
    exact hhead (congrArg some (eq_of_head?_utf8EncodeChar (congrArg List.head? hbytes)))

/-- A text is spaces with what does not begin with one. -/
theorem exists_spaces_dropWhile (cs : List Char) :
    ∃ n, cs = List.replicate n ' ' ++ cs.dropWhile (· == ' ') ∧ (cs.dropWhile (· == ' ')).head? ≠ some ' ' := by
  refine ⟨(cs.takeWhile (· == ' ')).length, ?_, fun hhead => ?_⟩
  · have hspaces : cs.takeWhile (· == ' ') = List.replicate (cs.takeWhile (· == ' ')).length ' ' := by
      refine List.eq_replicate_of_mem fun c hc => ?_
      have hspace := List.mem_takeWhile_imp hc
      exact eq_of_beq hspace
    rw [← hspaces, List.takeWhile_append_dropWhile]
  · have hnot := List.head?_dropWhile_not (· == ' ') cs
    rw [hhead] at hnot
    cases hnot

theorem ofPattern_congr_constant {text text' : String}
    (h : normalize (Text.encode text) = normalize (Text.encode text')) (rest : Pattern) :
    Matcher.ofPattern (.value (.constant text) :: rest) = Matcher.ofPattern (.value (.constant text') :: rest) := by
  have hlayout : layout (.value (.constant text) :: rest) = layout (.value (.constant text') :: rest) := by
    simp only [layout, ofValue, ofConstant, h]
  simp only [Matcher.ofPattern, chunksOf, hlayout]
  rfl

/-- Stripping spaces leaves the matcher of a pattern, unless it drops a constant of spaces. -/
theorem ofPattern_stripLeadingSpace (p : Pattern) :
    Matcher.ofPattern (stripLeadingSpace p) = Matcher.ofPattern p ∨
      ∃ text rest, p = .value (.constant text) :: rest ∧ text ≠ "" ∧ IsBlank text ∧ stripLeadingSpace p = rest := by
  unfold stripLeadingSpace
  split
  · next text rest =>
    split
    · exact .inl rfl
    · next hhead =>
      obtain ⟨n, htext, hdrop⟩ := exists_spaces_dropWhile text.toList
      split
      · next hnil =>
        rw [hnil, List.append_nil] at htext
        refine .inr ⟨text, rest, rfl, ?_, ?_, rfl⟩
        · rintro rfl
          exact hhead rfl
        · rw [IsBlank, Text.encode, htext, encodeChars_spaces]
          exact fun c => List.eq_of_mem_replicate
      · next cs hne =>
        refine .inl (ofPattern_congr_constant ?_ rest)
        rw [Text.encode, Text.encode, String.toList_ofList]
        conv_rhs => rw [htext, Text.encodeChars_append, encodeChars_spaces]
        exact (normalize_spaces_append n (exists_ne_space_encodeChars hne hdrop)).symm
  · exact .inl rfl

/-! ### Matchers of patterns without a payload marker -/

/-- Some chunks, or one without elements. -/
def atLeastOne (chunks : List Chunk) : List Chunk := if chunks.isEmpty then [⟨[[]]⟩] else chunks

/-- No two captures are side by side in the chunks. -/
def ApartIn (chunks : List Chunk) : Prop :=
  ∀ chunk ∈ chunks, ∀ elements ∈ chunk.alternatives, adjacentCaptures? elements = none

theorem apartIn_cons {elements : Elements} {chunks : List Chunk} :
    ApartIn (⟨[elements]⟩ :: chunks) ↔ adjacentCaptures? elements = none ∧ ApartIn chunks := by
  simp [ApartIn]

theorem atLeastOne_plainChunk (front : Elements) (chunks : List Chunk) :
    atLeastOne (plainChunk front ++ chunks) =
      if front = [] ∧ chunks ≠ [] then chunks else ⟨[front]⟩ :: chunks := by
  cases front <;> cases chunks <;> rfl

theorem apartIn_atLeastOne {front : Elements} {chunks : List Chunk} :
    ApartIn (atLeastOne (plainChunk front ++ chunks)) ↔ adjacentCaptures? front = none ∧ ApartIn chunks := by
  rw [atLeastOne_plainChunk]
  split
  · next h =>
    rw [h.1]
    exact (and_iff_right rfl).symm
  · exact apartIn_cons

theorem no_marker_of_payload?_eq_none {p : Pattern} (h : p.payload? = none) : ∀ item ∈ p, ¬ IsMarker item := by
  fun_induction Pattern.payload? p with
  | case1 => exact List.forall_mem_nil _
  | case2 alias? rest => cases h
  | case3 item rest hnot ih =>
      refine List.forall_mem_cons.mpr ⟨fun hmarker => ?_, ih h⟩
      cases item with
      | alternatives branches => cases hmarker
      | value v =>
          obtain ⟨alias?, rfl⟩ | hv := payload_or v
          · exact hnot alias? rfl
          · exact hv hmarker

theorem countMarkers_eq_zero {p : Pattern} (h : p.payload? = none) : countMarkers p = 0 :=
  List.countP_eq_zero.mpr (no_marker_of_payload?_eq_none h)

/-- A pattern without a payload marker has a matcher when it has a layout in which no captures are side by side. -/
theorem ofPattern_eq_ok_iff_layout {p : Pattern} (hpayload : p.payload? = none) {matcher : Matcher} :
    Matcher.ofPattern p = .ok matcher ↔ ∃ front chunks, layout p = .ok (front, chunks) ∧
      adjacentCaptures? front = none ∧ ApartIn chunks ∧
      matcher = ⟨atLeastOne (plainChunk front ++ chunks), false⟩ := by
  have hchunks (front : Elements) (chunks : List Chunk) :
      ofChunks none (atLeastOne (plainChunk front ++ chunks)) = .ok matcher ↔
        adjacentCaptures? front = none ∧ ApartIn chunks ∧
          matcher = ⟨atLeastOne (plainChunk front ++ chunks), false⟩ := by
    rw [← and_assoc, ← apartIn_atLeastOne, ApartIn, ← findSome?_adjacentCaptures?_iff]
    unfold ofChunks
    cases ((atLeastOne (plainChunk front ++ chunks)).flatMap Chunk.alternatives).findSome? adjacentCaptures? with
    | some pair => exact iff_of_false (fun h => nomatch h) (fun h => nomatch h.1)
    | none => simp [eq_comm]
  rw [ofPattern_eq, if_neg (by rw [countMarkers_eq_zero hpayload]; omega), hpayload]
  have hlayout : chunksOf p = (fun r => atLeastOne (plainChunk r.1 ++ r.2)) <$> layout p := rfl
  rw [hlayout, bind_eq_ok]
  simp only [map_eq_ok]
  constructor
  · rintro ⟨_, ⟨⟨front, chunks⟩, h, rfl⟩, hmatcher⟩
    exact ⟨front, chunks, h, (hchunks front chunks).mp hmatcher⟩
  · rintro ⟨front, chunks, h, hmatcher⟩
    exact ⟨_, ⟨(front, chunks), h, rfl⟩, (hchunks front chunks).mpr hmatcher⟩

/-! ### Branches on their own -/

/-- The branch, taken as a pattern of its own, matches the message. -/
def MatchesAlone (branch : Pattern) (m : List UInt8) : Prop :=
  ∃ matcher found, Matcher.ofPattern branch = .ok matcher ∧ matcher.run m = some found

theorem layout_of_isPlain {branch : Pattern} (h : IsPlain branch) :
    layout branch = .ok (branch.flatMap outerElements, []) := by
  induction branch with
  | nil => rfl
  | cons item rest ih =>
      obtain ⟨⟨v, rfl, hv⟩, hrest⟩ := List.forall_mem_cons.mp h
      rw [layout_value hv, ih hrest]
      rfl

theorem payload?_of_isPlain {branch : Pattern} (h : IsPlain branch) : branch.payload? = none := by
  refine payload?_eq_none_of_no_marker fun item hitem => ?_
  obtain ⟨v, rfl, hv⟩ := h item hitem
  exact hv

/-- A branch matches the messages that its elements can lie in front of. -/
theorem matchesAlone_iff {branch : Pattern} (hplain : IsPlain branch)
    (hapart : adjacentCaptures? (branch.flatMap outerElements) = none) {m : List UInt8} :
    MatchesAlone branch m ↔ CanLie (branch.flatMap outerElements) m := by
  have hmatcher := (ofPattern_eq_ok_iff_layout (payload?_of_isPlain hplain)).mpr
    ⟨_, _, layout_of_isPlain hplain, hapart, List.forall_mem_nil _, rfl⟩
  rw [atLeastOne_plainChunk, if_neg fun h => h.2 rfl] at hmatcher
  constructor
  · rintro ⟨matcher, found, hmatcher', hrun⟩
    obtain rfl := Except.ok.inj (hmatcher.symm.trans hmatcher')
    obtain ⟨commitments, behind, hdecomposes⟩ := exists_decomposes hmatcher hrun
    cases hdecomposes.cut with
    | @cons _ _ i parts _ behind _ hchunk hlaid _ _ =>
        rw [List.getElem?_singleton, Option.ite_none_right_eq_some, Option.some.injEq] at hchunk
        exact ⟨parts, behind, hchunk.2.symm, rfl, hlaid⟩
  · rintro ⟨parts, behind, helements, rfl, hlaid⟩
    have hcut : Cut [⟨[branch.flatMap outerElements]⟩] [⟨0, parts⟩] (bytesOf parts ++ behind) behind :=
      .cons (helements ▸ rfl) hlaid (fun _ h => nomatch h) .nil
    obtain ⟨found, hrun, -⟩ := run_of_cut (normal_of_ofPattern hmatcher) hcut
    exact ⟨_, found, hmatcher, hrun⟩

/-! ### Spaces in front of the first chunk -/

/-- The parts of elements that begin with a space. -/
theorem Laid.exists_space {parts : List Part} {elements : Elements} {behind : List UInt8} (h : Laid parts behind)
    (helements : elementsIn parts = .constant [space] :: elements) : ∃ n others,
      parts = ⟨.constant [space], spaces (n + 1)⟩ :: others ∧ elementsIn others = elements ∧ Laid others behind ∧
        (bytesOf others ++ behind).head? ≠ some space := by
  cases h with
  | nil => cases helements
  | @constant c text behind others a htext hends hrest =>
      obtain ⟨hc, hothers⟩ := List.cons.inj helements
      cases hc
      obtain ⟨n, rfl⟩ := standsFor_space_iff.mp htext
      rw [EndsAt, if_pos rfl] at hends
      refine ⟨a + n, others, ?_, hothers, hrest, hends⟩
      rw [← spaces_add, Nat.add_assoc]
  | payload hrest => cases helements
  | field htext hends hfirst hrest => cases helements
  | last hnext hnone hrest => cases helements

theorem head?_of_canLie_space {elements : Elements} {m : List UInt8}
    (h : CanLie (.constant [space] :: elements) m) : m.head? = some space := by
  obtain ⟨parts, behind, helements, rfl, hlaid⟩ := h
  obtain ⟨n, others, rfl, -⟩ := hlaid.exists_space helements
  rfl

/-- A space at the front of the first chunk takes all spaces at the front of the message. -/
theorem Cut.exists_behind_space {front : Elements} {chunks : List Chunk} {commitments : List Commitment}
    {m rest : List UInt8} (h : Cut (⟨[.constant [space] :: front]⟩ :: chunks) commitments m rest) :
    ∃ n m' commitments', m = spaces (n + 1) ++ m' ∧ m'.head? ≠ some space ∧
      Cut (⟨[front]⟩ :: chunks) commitments' m' rest ∧
      trimmedIn (partsOf commitments') = trimmedIn (partsOf commitments) := by
  cases h with
  | @cons _ _ i parts commitments behind _ hchunk hlaid _ hrest =>
      rw [List.getElem?_singleton, Option.ite_none_right_eq_some, Option.some.injEq] at hchunk
      obtain ⟨n, others, rfl, rfl, hothers, hhead⟩ := hlaid.exists_space hchunk.2.symm
      refine ⟨n, bytesOf others ++ behind, ⟨0, others⟩ :: commitments, ?_, hhead, ?_, rfl⟩
      · rw [bytesOf_cons, List.append_assoc]
      · exact .cons rfl hothers (fun _ h => nomatch h) hrest

/-- The alternative of the chunk that is taken in a message takes `k` more spaces in front, and none before it does. -/
def TakesAlike (chunk : Chunk) (k : Nat) (m : List UInt8) : Prop :=
  ∀ i elements, chunk.alternatives[i]? = some elements → CanLie elements m →
    (∀ earlier ∈ chunk.alternatives.take i, ¬ CanLie earlier m) →
      Quiet elements ∧ ¬ PlacesNothing elements ∧
        ∀ earlier ∈ chunk.alternatives.take i, ¬ CanLie earlier (spaces k ++ m)

/-- More spaces in front of a message go to the first chunk. -/
theorem Cut.widen {chunk : Chunk} {chunks : List Chunk} {commitments : List Commitment} {m rest : List UInt8}
    (h : Cut (chunk :: chunks) commitments m rest)
    (hnormal : ∀ elements ∈ chunk.alternatives, NormalConstants elements) {k : Nat} (halike : TakesAlike chunk k m) :
    ∃ commitments', Cut (chunk :: chunks) commitments' (spaces k ++ m) rest ∧
      trimmedIn (partsOf commitments') = trimmedIn (partsOf commitments) := by
  cases h with
  | @cons _ _ i parts commitments behind _ hchunk hlaid hfirst hrest =>
      obtain ⟨hquiet, hplaces, hearlier⟩ := halike i _ hchunk ⟨parts, behind, rfl, rfl, hlaid⟩ hfirst
      obtain ⟨parts', hwidened, hlaid'⟩ :=
        hlaid.widen (hnormal _ (List.mem_of_getElem? hchunk)) (.inl hquiet) hplaces k
      have hbytes : spaces k ++ (bytesOf parts ++ behind) = bytesOf parts' ++ behind := by
        rw [hwidened.bytes_eq, List.append_assoc]
      rw [hbytes] at hearlier ⊢
      refine ⟨⟨i, parts'⟩ :: commitments, .cons ?_ hlaid' hearlier hrest, ?_⟩
      · rw [hwidened.elements_eq]
        exact hchunk
      · show trimmedIn (parts' ++ partsOf commitments) = trimmedIn (parts ++ partsOf commitments)
        rw [trimmedIn_append, trimmedIn_append, hwidened.trimmedIn_eq]

/-! ### What stands behind a dropped constant -/

/-- The items begin with a field and a constant of spaces. -/
def EndsAtSpace (items : Pattern) : Prop := ∃ name rest, items = .value (.field name) :: rest ∧ BeginsBlank rest

theorem endsAtSpace_cons_value (v : Value) (items : Pattern) :
    EndsAtSpace (.value v :: items) ↔ (∃ name, v = .field name) ∧ BeginsBlank items := by
  simp [EndsAtSpace]

/-- Of some branches, the first that matches the message, with those before it. -/
structure IsFirst (branches before : List Pattern) (taken : Pattern) (m : List UInt8) : Prop where
  listed : before ++ [taken] <+: branches
  matches_message : MatchesAlone taken m
  none_before : ∀ earlier ∈ before, ¬ MatchesAlone earlier m

/-- What stands behind the spaces of the message begins alike at these spaces: the branch that is taken behind them
does not begin with a field and a constant of spaces, and none before it that looks for a space matches at them. -/
structure OpensAlike (rest : Pattern) (m : List UInt8) : Prop where
  of_taken : ∀ before taken, IsFirst (openings rest) before taken (m.dropWhile (· == space)) →
    ¬ EndsAtSpace taken
  of_before : ∀ before taken, IsFirst (openings rest) before taken (m.dropWhile (· == space)) →
    ∀ earlier ∈ before, SeeksSpace earlier → ¬ MatchesAlone earlier m

/-- What lies where there is no space does not begin with one. -/
theorem not_beginsBlank_of_canLie {items : Pattern} (hrun : IsRun items) (hsolid : .value (.constant "") ∉ items)
    {m : List UInt8} (hhead : m.head? ≠ some space) (h : CanLie (items.flatMap outerElements) m) :
    ¬ BeginsBlank items := by
  intro hblank
  obtain ⟨others, hothers⟩ := (beginsBlank_iff hrun hsolid).mp hblank
  rw [hothers] at h
  exact hhead (head?_of_canLie_space h)

/-- The branch of a group that is taken behind spaces is taken at the spaces. -/
theorem takesAlike_group {branches : List Pattern} {rest : Pattern} (hplain : ∀ branch ∈ branches, IsPlain branch)
    (hsolid : ∀ branch ∈ branches, branch ≠ [] ∧ .value (.constant "") ∉ branch)
    (hapart : ∀ elements ∈ (stretchChunk branches).alternatives, adjacentCaptures? elements = none)
    (hnormal : ∀ elements ∈ (stretchChunk branches).alternatives, NormalConstants elements)
    {k : Nat} {m : List UInt8} (hhead : m.head? ≠ some space)
    (hopens : OpensAlike (.alternatives branches :: rest) (spaces k ++ m)) :
    TakesAlike (stretchChunk branches) k m := by
  have halone : ∀ branch ∈ branches, ∀ {message}, MatchesAlone branch message ↔
      CanLie (branch.flatMap outerElements) message := fun branch hbranch _ =>
    matchesAlone_iff (hplain branch hbranch) (hapart _ (List.mem_map_of_mem hbranch))
  have hquiet : ∀ branch ∈ branches, ¬ SeeksSpace branch → Quiet (branch.flatMap outerElements) := fun branch hbranch =>
    (quiet_iff (hplain branch hbranch).isRun (hsolid branch hbranch).2).mpr
  intro i elements hi hlies hfirst
  rw [stretchChunk, List.getElem?_map, Option.map_eq_some_iff] at hi
  obtain ⟨branch, hi, rfl⟩ := hi
  rw [stretchChunk, ← List.map_take, List.forall_mem_map] at hfirst ⊢
  have hmem := List.mem_of_getElem? hi
  have htaken : IsFirst branches (branches.take i) branch ((spaces k ++ m).dropWhile (· == space)) := by
    rw [dropWhile_run k hhead]
    refine ⟨?_, (halone branch hmem).mpr hlies, fun earlier hearlier halone' => hfirst earlier hearlier ?_⟩
    · obtain ⟨hlt, rfl⟩ := List.getElem?_eq_some_iff.mp hi
      rw [List.take_append_getElem hlt]
      exact List.take_prefix _ _
    · exact (halone earlier (List.mem_of_mem_take hearlier)).mp halone'
  have hseeks : ¬ SeeksSpace branch := not_or.mpr
    ⟨not_beginsBlank_of_canLie (hplain branch hmem).isRun (hsolid branch hmem).2 hhead hlies,
      hopens.of_taken _ _ htaken⟩
  refine ⟨hquiet branch hmem hseeks, not_placesNothing_branch (hplain branch hmem) (hsolid branch hmem),
    fun earlier hearlier hlies' => ?_⟩
  have hearlier' := List.mem_of_mem_take hearlier
  by_cases hearlierSeeks : SeeksSpace earlier
  · exact hopens.of_before _ _ htaken earlier hearlier hearlierSeeks ((halone earlier hearlier').mpr hlies')
  · have hearlierQuiet := hquiet earlier hearlier' hearlierSeeks
    exact hfirst earlier hearlier (hlies'.of_padded (hnormal _ (List.mem_map_of_mem hearlier')) ⟨k, .inr rfl⟩
      (.inl hearlierQuiet) (.inl hearlierQuiet))

/-- Items that do not end a field at a space are taken at the spaces too. -/
theorem takesAlike_run (k : Nat) {run : Pattern} (hrun : IsRun run) (hsolid : .value (.constant "") ∉ run)
    (hends : ¬ EndsAtSpace run) (hplaces : ¬ PlacesNothing (run.flatMap outerElements)) {m : List UInt8}
    (hhead : m.head? ≠ some space) : TakesAlike ⟨[run.flatMap outerElements]⟩ k m := by
  intro i elements hi hlies _
  rw [List.getElem?_singleton, Option.ite_none_right_eq_some, Option.some.injEq] at hi
  obtain ⟨rfl, rfl⟩ := hi
  have hblank := not_beginsBlank_of_canLie hrun hsolid hhead hlies
  exact ⟨(quiet_iff hrun hsolid).mpr (not_or.mpr ⟨hblank, hends⟩), hplaces, fun _ h => nomatch h⟩

/-- A chunk without elements takes nothing. -/
theorem Cut.tail_of_empty {chunks : List Chunk} {commitments : List Commitment} {m rest : List UInt8}
    (h : Cut (⟨[[]]⟩ :: chunks) commitments m rest) :
    ∃ others, Cut chunks others m rest ∧ partsOf others = partsOf commitments := by
  cases h with
  | @cons _ _ i parts commitments behind _ hchunk hlaid _ hrest =>
      rw [List.getElem?_singleton, Option.ite_none_right_eq_some, Option.some.injEq] at hchunk
      obtain rfl := List.map_eq_nil_iff.mp hchunk.2.symm
      exact ⟨commitments, hrest, rfl⟩

/-- Without the constant of spaces in front of them, chunks cut the message with the same texts. -/
theorem exists_cut_of_dropped {rest : Pattern} {front : Elements} {chunks : List Chunk}
    (hlayout : layout rest = .ok (front, chunks)) (hpayload : rest.payload? = none) (hsolid : Solid rest)
    (hapart : ApartIn chunks)
    (hmatcher : Matcher.ofPattern rest = .ok ⟨atLeastOne (plainChunk front ++ chunks), false⟩)
    {commitments : List Commitment} {m behind : List UInt8}
    (hcut : Cut (⟨[.constant [space] :: front]⟩ :: chunks) commitments m behind) (hopens : OpensAlike rest m) :
    ∃ commitments' behind', Cut (atLeastOne (plainChunk front ++ chunks)) commitments' m behind' ∧
      trimmedIn (partsOf commitments') = trimmedIn (partsOf commitments) := by
  obtain ⟨n, m', commitments₁, rfl, hhead, hcut, htexts⟩ := hcut.exists_behind_space
  have hnormal := normal_of_ofPattern hmatcher
  rw [← htexts]
  rw [atLeastOne_plainChunk] at hmatcher hnormal ⊢
  obtain ⟨hplaced, hfront, hlays, hruns⟩ := isLayoutOf_of_layout hlayout
  cases rest with
  | nil =>
      subst hfront
      cases hlays
      obtain ⟨others, hothers, hparts⟩ := hcut.tail_of_empty
      cases hothers
      exact ⟨[⟨0, []⟩], _, .cons rfl .nil (fun _ h => nomatch h) .nil, congrArg trimmedIn hparts⟩
  | cons item rest =>
      cases item with
      | alternatives branches =>
          subst hfront
          have hplain := hplaced.branches_plain branches List.mem_cons_self
          have hsolids := hsolid.branches branches List.mem_cons_self
          have hgroup : Lays (branches :: stretches rest) chunks := hlays
          obtain ⟨others, rfl, -⟩ := hgroup.cons_inv fun branch hbranch hnil =>
            not_placesNothing_branch (hplain branch hbranch) (hsolids branch hbranch) (hnil ▸ PlacesNothing.nil)
          rw [if_pos ⟨rfl, List.cons_ne_nil _ _⟩] at hnormal ⊢
          obtain ⟨commitments₂, hcut, hparts⟩ := hcut.tail_of_empty
          rw [← hparts]
          have halike := takesAlike_group hplain hsolids (hapart _ List.mem_cons_self)
            (hnormal _ List.mem_cons_self) hhead hopens
          obtain ⟨commitments', hcut', htexts'⟩ := hcut.widen (hnormal _ List.mem_cons_self) halike
          exact ⟨commitments', behind, hcut', htexts'⟩
      | value v =>
          obtain ⟨alias?, rfl⟩ | hv := payload_or v
          · cases hpayload
          have hrun : IsRun (.value v :: (runAndStretches rest).1) := hruns _ List.mem_cons_self _ List.mem_cons_self
          have hconstants : .value (.constant "") ∉ PatternItem.value v :: (runAndStretches rest).1 := fun hmem =>
            hsolid.constants (mem_of_mem_run hmem)
          have hplaces : ¬ PlacesNothing front := by
            rw [hfront]
            exact not_placesNothing_cons hv (fun heq => hconstants (heq ▸ List.mem_cons_self)) _
          have hne : front ≠ [] := by
            rintro rfl
            exact hplaces .nil
          rw [if_neg fun h => hne h.1] at hmatcher hnormal ⊢
          -- behind the spaces the pattern matches, and it is the only one
          have hends : ¬ EndsAtSpace (.value v :: rest) := by
            obtain ⟨found, hfound, -⟩ := run_of_cut hnormal hcut
            refine hopens.of_taken [] _ ⟨List.prefix_rfl, ?_, List.forall_mem_nil _⟩
            rw [dropWhile_run (n + 1) hhead]
            exact ⟨_, found, hmatcher, hfound⟩
          rw [endsAtSpace_cons_value, ← beginsBlank_run, ← endsAtSpace_cons_value] at hends
          have halike := takesAlike_run (n + 1) hrun hconstants hends (hfront ▸ hplaces) hhead
          obtain ⟨commitments', hcut', htexts'⟩ := hcut.widen (hnormal _ List.mem_cons_self) (hfront ▸ halike)
          exact ⟨commitments', behind, hcut', htexts'⟩

/-! ### Stripped patterns -/

theorem Solid.tail {item : PatternItem} {rest : Pattern} (h : Solid (item :: rest)) : Solid rest where
  constants hmem := h.constants (List.mem_cons_of_mem _ hmem)
  branches branches hmem := h.branches branches (List.mem_cons_of_mem _ hmem)

/-- The pattern behind a constant of spaces has a matcher, which finds the same where it begins alike. -/
theorem run_dropped {text : String} (htext : text ≠ "") (hblank : IsBlank text) {rest : Pattern}
    (hpayload : rest.payload? = none) (hsolid : Solid rest) {matcher : Matcher}
    (h : Matcher.ofPattern (.value (.constant text) :: rest) = .ok matcher) :
    ∃ matcher', Matcher.ofPattern rest = .ok matcher' ∧ ∀ m found, matcher.run m = some found →
      OpensAlike rest m → ∃ found', matcher'.run m = some found' ∧ SameTexts m m found found' := by
  have hsame : Pattern.payload? (.value (.constant text) :: rest) = none := hpayload
  obtain ⟨_, chunks, hall, hfront, hapart, hmatcher⟩ := (ofPattern_eq_ok_iff_layout hsame).mp h
  have hconstant : ¬ (Value.constant text).isPayload = true := Bool.false_ne_true
  rw [layout_value hconstant, outerElements_constant htext, (normalize_eq_space_iff htext).mpr hblank] at hall
  obtain ⟨⟨front, others⟩, hlayout, heq⟩ := map_eq_ok.mp hall
  obtain ⟨rfl, rfl⟩ := Prod.mk.inj heq
  have h' := (ofPattern_eq_ok_iff_layout hpayload).mpr ⟨front, others, hlayout, hfront, hapart, rfl⟩
  refine ⟨_, h', fun m found hrun hopens => ?_⟩
  obtain ⟨commitments, behind, hdecomposes⟩ := exists_decomposes h hrun
  have hcut := hdecomposes.cut
  rw [hmatcher] at hcut
  obtain ⟨commitments', behind', hcut', htexts⟩ :=
    exists_cut_of_dropped hlayout hpayload hsolid hapart h' hcut hopens
  obtain ⟨found', hrun', htexts'⟩ := run_of_cut (normal_of_ofPattern h') hcut'
  exact ⟨found', hrun', (hdecomposes.texts.trans htexts.symm).trans htexts'.symm⟩

/-- **Stripped patterns.** A message pattern without a payload marker that is read and has a matcher has one without
its leading spaces too. What the first finds in a message the second finds as well, with the same texts, unless a
constant of spaces is dropped and what stands behind it does not begin alike. -/
theorem run_stripped {source : String} {rule : MatchRule} (hread : Pattern.read source = .ok rule.pattern)
    (hinput : rule.input = payloadInput) (hpayload : rule.pattern.payload? = none) {matcher : Matcher}
    (h : Matcher.ofPattern rule.pattern = .ok matcher) :
    ∃ matcher', Matcher.ofPattern (Spacing.stripMessageRule rule).pattern = .ok matcher' ∧
      ∀ m found, matcher.run m = some found →
        (∀ text rest, rule.pattern = .value (.constant text) :: rest → IsBlank text → OpensAlike rest m) →
          ∃ found', matcher'.run m = some found' ∧ SameTexts m m found found' := by
  have hstrip : (Spacing.stripMessageRule rule).pattern = stripLeadingSpace rule.pattern := by
    rw [Spacing.stripMessageRule, if_pos (beq_iff_eq.mpr hinput)]
    rfl
  rw [hstrip]
  rcases ofPattern_stripLeadingSpace rule.pattern with hsame | ⟨text, rest, hp, htext, hblank, hdrop⟩
  · exact ⟨matcher, hsame.trans h, fun m found hrun _ => ⟨found, hrun, rfl⟩⟩
  · have hsolid := solid_of_wellFormed (wellFormed_of_read hread)
    rw [hdrop]
    rw [hp] at h hpayload hsolid
    have hrest : Pattern.payload? rest = none := hpayload
    obtain ⟨matcher', h', hfinds⟩ := run_dropped htext hblank hrest hsolid.tail h
    exact ⟨matcher', h', fun m found hrun hopens => hfinds m found hrun (hopens text rest hp hblank)⟩

/-- A message rule with this pattern. -/
def messageRule (p : Pattern) : MatchRule := ⟨"m", payloadInput, p, none, ⟨.message, 0, none⟩⟩

/-- ` <b>;` -/
def spaceAndSemicolon : Pattern := [.value (.constant " "), .value (.field "b"), .value (.constant ";")]

/-- ` { <b>;|<b>,}<c>` -/
def semicolonOrComma : Pattern :=
  [.value (.constant " "), .alternatives [spaceAndSemicolon, [.value (.field "b"), .value (.constant ",")]],
    .value (.field "c")]

/-- ` { |x}<a>` -/
def spaceOrX : Pattern :=
  [.value (.constant " "), .alternatives [[.value (.constant " ")], [.value (.constant "x")]], .value (.field "a")]

/-- At the spaces of `  foo, bar` the branch with `;` does not match. -/
theorem opensAlike_semicolonOrComma : OpensAlike (semicolonOrComma.drop 1) (Text.encode "  foo, bar") := by
  have hmatcher : Matcher.ofPattern spaceAndSemicolon =
      .ok ⟨[⟨[[.constant [32], .capture "b" false, .constant [59]]]⟩], false⟩ := eq_ok_of_toOption (by decide +kernel)
  have hnone : Matcher.run ⟨[⟨[[.constant [32], .capture "b" false, .constant [59]]]⟩], false⟩
      (Text.encode "  foo, bar") = none := by decide +kernel
  have hsemicolon : ¬ MatchesAlone spaceAndSemicolon (Text.encode "  foo, bar") := by
    rintro ⟨matcher, found, hmatcher', hrun⟩
    obtain rfl := Except.ok.inj (hmatcher.symm.trans hmatcher')
    cases hnone.symm.trans hrun
  have hends : ∀ branch ∈ openings (semicolonOrComma.drop 1), ¬ EndsAtSpace branch := by
    refine List.forall_mem_cons.mpr ⟨fun hends => ?_, List.forall_mem_singleton.mpr fun hends => ?_⟩
    · obtain ⟨name, rest, heq, -⟩ := hends
      cases heq
    · obtain ⟨name, rest, heq, text, others, hrest, hblank⟩ := hends
      cases heq
      cases hrest
      exact absurd hblank (by decide)
  refine ⟨fun before taken h => ?_, fun before taken h earlier hearlier hseeks => ?_⟩
  · exact hends taken (h.listed.subset (List.mem_append_right _ List.mem_cons_self))
  · have hmem := h.listed.subset (List.mem_append_left _ hearlier)
    obtain ⟨text, rest, heq, -⟩ := hseeks.resolve_right (hends earlier hmem)
    subst heq
    rcases List.mem_cons.mp hmem with heq | hmem
    · rwa [heq]
    · cases List.mem_singleton.mp hmem

theorem run_stripped_semicolonOrComma :
    ∃ matcher' found', Matcher.ofPattern (semicolonOrComma.drop 1) = .ok matcher' ∧
      matcher'.run (Text.encode "  foo, bar") = some found' ∧
      textsOf found'.captures (Text.encode "  foo, bar") = [("b", Text.encode "foo"), ("c", Text.encode "bar")] := by
  have hmatcher : Matcher.ofPattern semicolonOrComma = .ok
      ⟨[⟨[[.constant [32]]]⟩, ⟨[[.constant [32], .capture "b" false, .constant [59]],
        [.capture "b" false, .constant [44]]]⟩, ⟨[[.capture "c" false]]⟩], false⟩ :=
    eq_ok_of_toOption (by decide +kernel)
  have hread : Pattern.read semicolonOrComma.render = .ok (messageRule semicolonOrComma).pattern :=
    read_render (by decide)
  obtain ⟨matcher', hmatcher', hfinds⟩ := run_stripped hread rfl rfl hmatcher
  obtain ⟨found', hrun', hsame⟩ := hfinds (Text.encode "  foo, bar") ⟨[⟨"b", 2, 5⟩, ⟨"c", 7, 10⟩], 10⟩
    (by decide +kernel) (fun text rest heq _ => by cases heq; exact opensAlike_semicolonOrComma)
  exact ⟨matcher', found', hmatcher', hrun', hsame.symm.trans (by decide +kernel)⟩

/-- ` { |x}<a>` finds `foo` in ` xfoo`, but `xfoo` without its leading space. -/
theorem not_forall_run_stripped : ¬ ∀ (source : String) (rule : MatchRule) (matcher matcher' : Matcher),
    Pattern.read source = .ok rule.pattern → rule.input = payloadInput → rule.pattern.payload? = none →
      Matcher.ofPattern rule.pattern = .ok matcher →
        Matcher.ofPattern (Spacing.stripMessageRule rule).pattern = .ok matcher' →
          ∀ m found, matcher.run m = some found →
            ∃ found', matcher'.run m = some found' ∧ SameTexts m m found found' := by
  intro h
  have hmatcher : Matcher.ofPattern spaceOrX = .ok
      ⟨[⟨[[.constant [32]]]⟩, ⟨[[.constant [32]], [.constant [120]]]⟩, ⟨[[.capture "a" false]]⟩], false⟩ :=
    eq_ok_of_toOption (by decide +kernel)
  have hmatcher' : Matcher.ofPattern (Spacing.stripMessageRule (messageRule spaceOrX)).pattern = .ok
      ⟨[⟨[[.constant [32]], [.constant [120]]]⟩, ⟨[[.capture "a" false]]⟩], false⟩ :=
    eq_ok_of_toOption (by decide +kernel)
  have hread : Pattern.read spaceOrX.render = .ok spaceOrX := read_render (by decide)
  obtain ⟨found', hrun', hsame⟩ := h spaceOrX.render (messageRule spaceOrX) _ _ hread rfl rfl hmatcher hmatcher'
    (Text.encode " xfoo") ⟨[⟨"a", 2, 5⟩], 5⟩ (by decide +kernel)
  have hfound : Matcher.run ⟨[⟨[[.constant [32]], [.constant [120]]]⟩, ⟨[[.capture "a" false]]⟩], false⟩
      (Text.encode " xfoo") = some ⟨[⟨"a", 1, 5⟩], 5⟩ := by decide +kernel
  obtain rfl := Option.some.inj (hfound.symm.trans hrun')
  exact absurd hsame (by unfold SameTexts; decide)

end LogRules.Matching

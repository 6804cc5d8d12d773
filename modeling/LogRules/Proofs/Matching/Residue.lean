import LogRules.Proofs.Matching.Payload

/-! # Where a payload without an alias starts

A payload marker without an alias stands behind a constant or behind a group. In the alternative of a constant
it starts the payload right behind the last byte of the constant, so that the spaces there are left to the next
matcher. Behind a group it has a chunk of its own, which starts where the group ended: a constant that was
searched for, the last one of a branch, has taken the spaces behind it (`run_starts_behind_constant`). -/

namespace LogRules.Matching

open Pattern

/-! ### The end of a constant -/

/-- Where the last byte that is no space ends, in bytes that stand behind some parts. -/
def exactStop (before : List Part) (bytes : List UInt8) : Nat :=
  (bytesOf before).length + (bytes.length - trailingSpaces bytes)

theorem trailingSpaces_le (bytes : List UInt8) : trailingSpaces bytes ≤ bytes.length := by
  rw [trailingSpaces, ← List.length_reverse]
  exact leadingSpaces_le bytes.reverse

theorem trailingSpaces_core {core : List UInt8} (b : Nat) (h : core.getLast? ≠ some space) :
    trailingSpaces (core ++ spaces b) = b := by
  rw [trailingSpaces_append_spaces, trailingSpaces_of_getLast?_ne h, Nat.add_zero]

/-- A constant that is not a space is found without the spaces that its text takes behind it. -/
theorem find?_of_first {c before text rest : List UInt8} (hc : Normal c) (hspace : c ≠ [space])
    (htext : StandsFor c text) (hfirst : ∀ k < before.length, ¬ Occurs c ((before ++ (text ++ rest)).drop k)) :
    find? c (before ++ (text ++ rest)) = some (before.length, text.length - trailingSpaces text) := by
  obtain ⟨hne, htidy, -⟩ := hc.resolve_left hspace
  obtain ⟨core, b, rfl, hcore⟩ := (standsFor_iff_of_tidy hne htidy).mp htext
  have hlast := (tidy_of_squeeze hcore htidy).2
  refine find?_eq_some_iff.mpr ⟨fun k hk => ?_, ?_⟩
  · exact by_contra fun hocc => hfirst k hk ((occurrence?_ne_none_iff hc).mp hocc)
  · rw [List.drop_left, trailingSpaces_core b hlast, List.length_append, List.length_replicate,
      Nat.add_sub_cancel, occurrence?_eq_some_iff hc]
    exact ⟨core, spaces b ++ rest, List.append_assoc .., rfl, hcore, fun h => absurd h hspace⟩

theorem trailingSpaces_of_endsAt {c text rest : List UInt8} (hc : Normal c) (hspace : c ≠ [space]) (a : Nat)
    (htext : StandsFor c text) (hends : EndsAt c text rest) : trailingSpaces (spaces a ++ text) = 0 := by
  obtain ⟨hne, htidy, -⟩ := hc.resolve_left hspace
  obtain ⟨core, b, rfl, hcore⟩ := (standsFor_iff_of_tidy hne htidy).mp htext
  rw [EndsAt, if_neg hspace] at hends
  have htextne : core ++ spaces b ≠ [] := by
    simp [ne_nil_of_squeeze hcore hne]
  apply trailingSpaces_of_getLast?_ne
  rwa [List.getLast?_append_of_ne_nil _ htextne]

/-- A payload marker behind a constant that is not a space starts the payload at the end of the constant. -/
theorem payload?_of_laid {all : List Part} {behind : List UInt8} (h : Laid all behind)
    (hnormal : NormalConstants (elementsIn all)) {front : List Part} {c text : List UInt8}
    (hall : all = front ++ [⟨.constant c, text⟩, ⟨.payload, []⟩]) (hspace : c ≠ [space]) {pos exact : Nat}
    {p : Placement} (hp : place? (elementsIn all) pos exact (bytesOf all ++ behind) = some p) :
    p.payload? = some (pos + exactStop front text) := by
  induction h generalizing front pos exact p with
  | nil => cases front <;> cases hall
  | @constant c' text' behind parts a htext hends hrest ih =>
      have hc := hnormal c' List.mem_cons_self
      rw [elementsIn_cons, place?_laid_constant hc a htext hends] at hp
      cases front with
      | nil =>
          cases hall
          cases hp
          have hzero := trailingSpaces_of_endsAt hc hspace a htext hends
          simp [exactStop, hzero, Placement.consPayload, Placement.empty, bytesOf]
      | cons first front =>
          obtain ⟨rfl, hparts⟩ := List.cons.inj hall
          rw [ih hnormal.tail hparts hp]
          simp [exactStop]
          omega
  | @payload behind parts hrest ih =>
      cases front with
      | nil => cases hall
      | cons first front =>
          obtain ⟨rfl, hparts⟩ := List.cons.inj hall
          obtain ⟨q, hq, rfl⟩ := Option.map_eq_some_iff.mp hp
          have hq := ih hnormal.tail hparts hq
          simp [Placement.consPayload, hq, exactStop]
  | @field name marked c' before text' behind parts htext hends hfirst hrest ih =>
      have hc := hnormal c' (List.mem_cons_of_mem _ List.mem_cons_self)
      obtain ⟨length, hfind, hplace⟩ := place?_laid_field name marked hc htext hends hfirst pos exact
      rw [elementsIn_cons, elementsIn_cons, hplace] at hp
      obtain ⟨q, hq, rfl⟩ := Option.map_eq_some_iff.mp hp
      rw [markPayload_payload?]
      rcases front with _ | ⟨first, _ | ⟨next, front⟩⟩
      · cases hall
      · cases hall
        cases hq
        -- the constant is the one that is searched for, and ends where it was found
        have hlength := hfind.symm.trans (find?_of_first hc hspace htext hfirst)
        obtain rfl : length = text.length - trailingSpaces text :=
          (Prod.mk.inj (Option.some.inj hlength)).2
        simp [exactStop, Placement.consPayload, Placement.empty, Placement.consCapture, bytesOf]
      · obtain ⟨rfl, hrest⟩ := List.cons.inj hall
        obtain ⟨rfl, hparts⟩ := List.cons.inj hrest
        have hq := ih hnormal.tail.tail hparts hq
        simp [Placement.consCapture, hq, exactStop]
        omega
  | @last name marked bytes parts hnext hnone hrest ih =>
      rw [elementsIn_cons, place?_laid_last hnext hnone] at hp
      obtain ⟨q, hq, rfl⟩ := Option.map_eq_some_iff.mp hp
      rw [markPayload_payload?]
      rcases front with _ | ⟨first, _ | ⟨next, front⟩⟩
      · cases hall
      · obtain ⟨rfl, rfl⟩ := List.cons.inj hall
        exact absurd rfl (hnext c [.payload])
      · obtain ⟨rfl, hparts⟩ := List.cons.inj hall
        have hq := ih hnormal.tail hparts hq
        simp [Placement.consCapture, hq, exactStop]
        omega

/-- A constant that is skipped leaves the spaces behind it. -/
theorem Laid.trailingSpaces_eq_zero {all : List Part} {behind : List UInt8} (h : Laid all behind)
    (hnormal : NormalConstants (elementsIn all)) {front parts : List Part} {c text : List UInt8}
    (hall : all = front ++ ⟨.constant c, text⟩ :: parts) (hspace : c ≠ [space])
    (hskipped : ¬ EndsInCapture (elementsIn front)) : trailingSpaces text = 0 := by
  induction h generalizing front with
  | nil => cases front <;> cases hall
  | @constant c' text' behind parts' a htext hends hrest ih =>
      cases front with
      | nil =>
          cases hall
          exact trailingSpaces_of_endsAt (hnormal c List.mem_cons_self) hspace a htext hends
      | cons first front =>
          obtain ⟨rfl, hparts⟩ := List.cons.inj hall
          exact ih hnormal.tail hparts fun hlast => hskipped (hlast.cons _)
  | payload hrest ih =>
      cases front with
      | nil => cases hall
      | cons first front =>
          obtain ⟨rfl, hparts⟩ := List.cons.inj hall
          exact ih hnormal.tail hparts fun hlast => hskipped (hlast.cons _)
  | @field name marked c' before text' behind parts' htext hends hfirst hrest ih =>
      rcases front with _ | ⟨first, _ | ⟨next, front⟩⟩
      · cases hall
      · cases hall
        exact absurd ⟨name, marked, rfl⟩ hskipped
      · obtain ⟨rfl, hrest⟩ := List.cons.inj hall
        obtain ⟨rfl, hparts⟩ := List.cons.inj hrest
        exact ih hnormal.tail.tail hparts fun hlast => hskipped ((hlast.cons _).cons _)
  | @last name marked bytes parts' hnext hnone hrest ih =>
      rcases front with _ | ⟨first, front⟩
      · cases hall
      · obtain ⟨rfl, hparts⟩ := List.cons.inj hall
        exact ih hnormal.tail hparts fun hlast => hskipped (hlast.cons _)

/-- Behind the last byte that is no space there are the spaces. -/
theorem drop_exact (bytes : List UInt8) :
    bytes.drop (bytes.length - trailingSpaces bytes) = spaces (trailingSpaces bytes) := by
  obtain ⟨b, rest, hreverse, hrest⟩ := exists_leading bytes.reverse
  obtain rfl : bytes = rest.reverse ++ spaces b := by
    rw [← bytes.reverse_reverse, hreverse, List.reverse_append, List.reverse_replicate]
  rw [trailingSpaces_core b (by rwa [List.getLast?_reverse]), List.length_append, List.length_replicate,
    Nat.add_sub_cancel, List.drop_left]

/-! ### The chunks of a pattern that ends in a payload marker -/

@[simp] theorem stretches_cons_group (branches : List Pattern) (rest : Pattern) :
    stretches (.alternatives branches :: rest) = [[]] :: branches :: stretches rest := rfl

theorem stretches_cons_value {v : Value} {p run : Pattern} {others : List (List Pattern)} :
    stretches (.value v :: p) = [.value v :: run] :: others ↔ stretches p = [run] :: others := by
  simp [stretches, runAndStretches]

theorem stretches_append_group (front : Pattern) (branches : List Pattern) (rest : Pattern) :
    stretches (front ++ .alternatives branches :: rest) = stretches front ++ branches :: stretches rest := by
  induction front with
  | nil => rfl
  | cons item front ih =>
      cases item with
      | alternatives others => simp [ih]
      | value v => exact stretches_cons_value.mpr ih

/-- Values at the end lie in the last stretch. -/
theorem exists_stretches_append_values (front : Pattern) :
    ∃ others run, stretches front = others ++ [[run]] ∧ ∀ values : List Value,
      stretches (front ++ values.map .value) = others ++ [[run ++ values.map .value]] := by
  induction front with
  | nil =>
      refine ⟨[], [], rfl, fun values => ?_⟩
      induction values with
      | nil => rfl
      | cons v values ih => exact stretches_cons_value.mpr ih
  | cons item front ih =>
      obtain ⟨others, run, hfront, hvalues⟩ := ih
      cases item with
      | alternatives branches =>
          exact ⟨[[]] :: branches :: others, run, by simp [hfront], fun values => by simp [hvalues]⟩
      | value v =>
          cases others with
          | nil =>
              exact ⟨[], .value v :: run, stretches_cons_value.mpr hfront,
                fun values => stretches_cons_value.mpr (hvalues values)⟩
          | cons first others =>
              obtain ⟨rfl, -⟩ := List.cons.inj hfront
              exact ⟨[.value v :: (runAndStretches front).1] :: others, run, stretches_cons_value.mpr hfront,
                fun values => stretches_cons_value.mpr (hvalues values)⟩

/-- Items without a marker say nothing about the payload. -/
theorem unmarked_of_no_marker {branch : Pattern} (h : .value (.payload none) ∉ branch) :
    Unmarked (branch.flatMap outerElements) := by
  intro e he
  obtain ⟨item, hitem, hmem⟩ := List.mem_flatMap.mp he
  obtain ⟨hmarked, hmarker⟩ := mem_outerElements hmem
  refine ⟨fun hpayload => h (hmarker hpayload ▸ hitem), ?_⟩
  rintro field rfl
  cases hmarked

theorem payload?_eq_none_of_no_marker {p : Pattern} (h : ∀ item ∈ p, ¬ IsMarker item) : p.payload? = none := by
  fun_induction Pattern.payload? p with
  | case1 => rfl
  | case2 alias? rest => exact absurd rfl (h _ List.mem_cons_self)
  | case3 item rest hnot ih => exact ih fun other hother => h other (List.mem_cons_of_mem _ hother)

theorem WellPlaced.of_append {front rest : Pattern} (h : WellPlaced (front ++ rest)) (hrest : rest ≠ []) :
    WellPlaced front ∧ ∀ item ∈ front, ¬ IsMarker item := by
  have hfront : ∀ item ∈ front, ¬ IsMarker item := by
    intro item hitem
    refine h.marker_last item ?_
    rw [List.dropLast_append_of_ne_nil hrest]
    exact List.mem_append_left _ hitem
  exact ⟨⟨fun item hitem => hfront item (List.dropLast_subset front hitem),
    fun branches hmem => h.branches_plain branches (List.mem_append_left _ hmem)⟩, hfront⟩

/-- The chunks of the items in front of the last one say nothing about the payload. -/
theorem Lays.unmarked {front : Pattern} (hplaced : WellPlaced front) (hfront : ∀ item ∈ front, ¬ IsMarker item)
    {parts : List (List Pattern)} (hparts : ∀ part ∈ parts, part ∈ stretches front) {chunks : List Chunk}
    (h : Lays parts chunks) : ∀ chunk ∈ chunks, ∀ elements ∈ chunk.alternatives, Unmarked elements := by
  intro chunk hchunk elements helements
  obtain ⟨part, hpart, branch, hbranch, rfl⟩ := h.exists_branch hchunk helements
  refine unmarked_of_no_marker fun hmem => ?_
  have hpayload := payload?_of_mem_stretches hplaced (hparts part hpart) hbranch hmem
  rw [payload?_eq_none_of_no_marker hfront] at hpayload
  cases hpayload

/-! ### Placing what stands behind a cut -/

/-- Chunks that say nothing about the payload leave it to those behind them. -/
theorem Cut.exists_behind {first second : List Chunk} {commitments : List Commitment} {m rest : List UInt8}
    (h : Cut first commitments m rest) (hnormal : NormalChunks first)
    (hunmarked : ∀ chunk ∈ first, ∀ elements ∈ chunk.alternatives, Unmarked elements) {number pos : Nat}
    {p : Placement} (hp : (placeChunks number pos m (first ++ second)).2 = some p) :
    ∃ number' q, (placeChunks number' (pos + (bytesOf (partsOf commitments)).length) rest second).2 = some q ∧
      p.payload? = q.payload? := by
  induction h generalizing number pos p with
  | nil => exact ⟨number, p, hp, rfl⟩
  | @cons chunk chunks i parts commitments behind rest hchunk hlaid hfirst hrest ih =>
      obtain ⟨hnormal, hnormals⟩ := List.forall_mem_cons.mp hnormal
      obtain ⟨hunmarked, hunmarkeds⟩ := List.forall_mem_cons.mp hunmarked
      obtain ⟨q, hq, hchoose, -, hstop, -⟩ := choose?_of_laid hnormal hchunk hlaid hfirst pos
      have hdrop : (bytesOf parts ++ behind).drop (q.stop - pos) = behind := by
        rw [hstop, Nat.add_sub_cancel_left, List.drop_left]
      rw [List.cons_append, placeChunks_cons hchoose, hdrop] at hp
      obtain ⟨r, hr, rfl⟩ := Option.map_eq_some_iff.mp hp
      obtain ⟨number', s, hs, hpayload⟩ := ih hnormals hunmarkeds hr
      have hnone := payload?_eq_none (hunmarked _ (List.mem_of_getElem? hchunk)) hq
      refine ⟨number', s, ?_, ?_⟩
      · have hparts : partsOf (⟨i, parts⟩ :: commitments) = parts ++ partsOf commitments := rfl
        rw [hparts, bytesOf_append, List.length_append, ← Nat.add_assoc, ← hstop]
        exact hs
      · show q.payload?.or r.payload? = _
        rw [hnone, Option.none_or, hpayload]

/-- One chunk that takes an alternative places what is in it. -/
theorem Cut.exists_place? {chunk : Chunk} {i : Nat} {parts : List Part} {m rest : List UInt8}
    (h : Cut [chunk] [⟨i, parts⟩] m rest) (hnormal : ∀ elements ∈ chunk.alternatives, NormalConstants elements)
    {number pos : Nat} {p : Placement} (hp : (placeChunks number pos m [chunk]).2 = some p) :
    ∃ q, place? (elementsIn parts) pos pos m = some q ∧ p.payload? = q.payload? := by
  cases h with
  | cons hchunk hlaid hfirst hrest =>
      obtain ⟨q, hq, hchoose, -⟩ := choose?_of_laid hnormal hchunk hlaid hfirst pos
      rw [placeChunks_cons hchoose] at hp
      cases hp
      exact ⟨q, hq, Option.or_none⟩

theorem Laid.marker_bytes {parts : List Part} {behind : List UInt8} (h : Laid parts behind) :
    ∀ part ∈ parts, part.element = .payload → part.bytes = [] := by
  induction h with
  | nil => simp
  | constant a htext hends hrest ih => simpa using ih
  | payload hrest ih => simpa using ih
  | field htext hends hfirst hrest ih => simpa using ih
  | last hnext hnone hrest ih => simpa using ih

/-- The matcher of a pattern with a marker without an alias. -/
theorem exists_lays_of_marker {p : Pattern} {matcher : Matcher} (h : Matcher.ofPattern p = .ok matcher)
    {part : List Pattern} (hpart : part ∈ stretches p) {branch : Pattern} (hbranch : branch ∈ part)
    (hmarker : .value (.payload none) ∈ branch) :
    ∃ chunks, WellPlaced p ∧ Lays (stretches p) chunks ∧ matcher = ⟨chunks, false⟩ := by
  obtain ⟨chunks, hplaced, hlays, -, hmatcher⟩ := exists_ofChunks h
  refine ⟨chunks, hplaced, hlays, ?_⟩
  unfold ofChunks at hmatcher
  rw [payload?_of_mem_stretches hplaced hpart hbranch hmarker] at hmatcher
  split at hmatcher
  · cases hmatcher
  · next heq => cases heq
  · exact (Except.ok.inj hmatcher).symm

/-! ### Payloads behind a constant -/

/-- The item ends in the constant: in its branch `i` or, if it is no group, as a whole. -/
inductive EndsIn : PatternItem → (i : Nat) → (text : String) → Prop
  | constant {text : String} : EndsIn (.value (.constant text)) 0 text
  | branch {branches : List Pattern} {i : Nat} {front : Pattern} {text : String}
      (h : branches[i]? = some (front ++ [.value (.constant text)])) : EndsIn (.alternatives branches) i text

/-- The item is a constant with a byte that is no space, or a group all of whose branches end in one. -/
inductive ClosesWithText : PatternItem → Prop
  | constant {text : String} (htext : ¬ IsBlank text) : ClosesWithText (.value (.constant text))
  | group {branches : List Pattern} (h : ∀ branch ∈ branches, ∃ front text,
      branch = front ++ [.value (.constant text)] ∧ ¬ IsBlank text) : ClosesWithText (.alternatives branches)

/-- The commitment of the last alternative with that of the payload marker: behind a constant the marker is in the
same alternative, behind a group in a chunk of its own. -/
def withMarker (item : PatternItem) (last : Commitment) : List Commitment :=
  if item.isGroup then [last, ⟨0, [⟨.payload, []⟩]⟩] else [⟨last.alternative, last.parts ++ [⟨.payload, []⟩]⟩]

/-- The part of a constant with the bytes that it takes. -/
def constantPart (text : String) (bytes : List UInt8) : Part := ⟨.constant (normalize (Text.encode text)), bytes⟩

theorem normalize_ne_space {text : String} (h : ¬ IsBlank text) : normalize (Text.encode text) ≠ [space] :=
  fun heq => h ((normalize_eq_space_iff (ne_empty_of_not_blank h)).mp heq)

/-- The last parts of elements that end in some others. -/
theorem exists_parts_append {parts : List Part} {first second : Elements}
    (h : elementsIn parts = first ++ second) :
    ∃ before after, parts = before ++ after ∧ elementsIn before = first ∧ elementsIn after = second :=
  List.map_eq_append_iff.mp h

theorem exists_part_of_singleton {parts : List Part} {e : Element} (h : elementsIn parts = [e]) :
    ∃ bytes, parts = [⟨e, bytes⟩] := by
  obtain ⟨⟨element, bytes⟩, rfl, rfl⟩ := List.map_eq_singleton_iff.mp h
  exact ⟨bytes, rfl⟩

theorem bytesOf_withMarker (left : List Commitment) (item : PatternItem) (i : Nat) (parts : List Part) :
    bytesOf (partsOf (left ++ withMarker item ⟨i, parts⟩)) = bytesOf (partsOf left ++ parts) := by
  unfold withMarker
  split <;> simp [partsOf, bytesOf]

/-- The chunks of a matcher, the first ones of which say nothing about the payload. -/
structure EndsWith (matcher : Matcher) (first last : List Chunk) : Prop where
  eq : matcher = ⟨first ++ last, false⟩
  unmarked : ∀ chunk ∈ first, ∀ elements ∈ chunk.alternatives, Unmarked elements

/-- A constant and the marker behind it are the end of an alternative. -/
theorem endsWith_of_constant {front : Pattern} {text : String} {matcher : Matcher}
    (h : Matcher.ofPattern (front ++ [.value (.constant text), .value (.payload none)]) = .ok matcher)
    (htext : ¬ IsBlank text) : ∃ first elements, EndsWith matcher first
      [⟨[elements ++ [.constant (normalize (Text.encode text)), .payload]]⟩] := by
  obtain ⟨others, run, hfront, hvalues⟩ := exists_stretches_append_values front
  have hstretches : stretches (front ++ [.value (.constant text), .value (.payload none)]) =
      others ++ [[run ++ [.value (.constant text), .value (.payload none)]]] :=
    hvalues [.constant text, .payload none]
  have helements : List.flatMap outerElements (run ++ [.value (.constant text), .value (.payload none)]) =
      run.flatMap outerElements ++ [.constant (normalize (Text.encode text)), .payload] := by
    rw [List.flatMap_append, List.flatMap_cons, outerElements_constant (ne_empty_of_not_blank htext)]
    rfl
  obtain ⟨chunks, hplaced, hlays, rfl⟩ := exists_lays_of_marker h
    (hstretches ▸ List.mem_append_right _ List.mem_cons_self) List.mem_cons_self (by simp)
  rw [hstretches] at hlays
  obtain ⟨first, second, rfl, hfirst, hsecond⟩ := hlays.append_inv
  obtain ⟨rest, rfl, hrest⟩ := hsecond.cons_inv (by
    rw [List.forall_mem_singleton, helements]
    simp)
  cases hrest
  obtain ⟨hfrontplaced, hmarkers⟩ := hplaced.of_append (List.cons_ne_nil _ _)
  refine ⟨first, run.flatMap outerElements, ?_, hfirst.unmarked hfrontplaced hmarkers fun part hpart => ?_⟩
  · rw [stretchChunk, List.map_singleton, helements]
  · rw [hfront]
    exact List.mem_append_left _ hpart

/-- A marker behind a group has a chunk of its own. -/
theorem endsWith_of_group {front : Pattern} {branches : List Pattern} {matcher : Matcher}
    (h : Matcher.ofPattern (front ++ [.alternatives branches, .value (.payload none)]) = .ok matcher)
    (hclose : ∀ branch ∈ branches, branch.flatMap outerElements ≠ []) :
    ∃ first, EndsWith matcher (first ++ [stretchChunk branches]) [⟨[[.payload]]⟩] := by
  have hstretches : stretches (front ++ [.alternatives branches, .value (.payload none)]) =
      (stretches front ++ [branches]) ++ [[[.value (.payload none)]]] := by
    rw [stretches_append_group, List.append_cons]
    rfl
  have hmem : [[.value (.payload none)]] ∈
      stretches (front ++ [.alternatives branches, .value (.payload none)]) :=
    hstretches ▸ List.mem_append_right _ List.mem_cons_self
  obtain ⟨chunks, hplaced, hlays, rfl⟩ := exists_lays_of_marker h hmem List.mem_cons_self List.mem_cons_self
  rw [hstretches] at hlays
  obtain ⟨init, last, rfl, hinit, hlast⟩ := hlays.append_inv
  obtain ⟨rest, rfl, hrest⟩ := hlast.cons_inv (by simp [outerElements])
  cases hrest
  obtain ⟨first, second, rfl, -, hsecond⟩ := hinit.append_inv
  obtain ⟨rest, rfl, hrest⟩ := hsecond.cons_inv hclose
  cases hrest
  rw [List.append_cons] at hplaced
  obtain ⟨hfrontplaced, hmarkers⟩ := hplaced.of_append (List.cons_ne_nil _ _)
  refine ⟨first, rfl, hinit.unmarked hfrontplaced hmarkers fun part hpart => ?_⟩
  rw [stretches_append_group, List.append_cons]
  exact List.mem_append_left _ hpart

/-- Where the payload of a match starts: the last chunk says so. -/
theorem EndsWith.exists_last {matcher : Matcher} {first : List Chunk} {chunk : Chunk}
    (h : EndsWith matcher first [chunk]) (hnormal : NormalChunks matcher.chunks) {message : List UInt8}
    {found : Match} (hrun : matcher.run message = some found) {commitments : List Commitment}
    {behind : List UInt8} (hcut : Cut matcher.chunks commitments message behind) :
    ∃ left i parts p, commitments = left ++ [⟨i, parts⟩] ∧
      Cut first left message (bytesOf parts ++ behind) ∧
      chunk.alternatives[i]? = some (elementsIn parts) ∧ NormalConstants (elementsIn parts) ∧
      Laid parts behind ∧
      place? (elementsIn parts) (bytesOf (partsOf left)).length (bytesOf (partsOf left)).length
        (bytesOf parts ++ behind) = some p ∧ ∀ start, p.payload? = some start → found.rest = start := by
  obtain ⟨rfl, hunmarked⟩ := h
  obtain ⟨left, right, middle, rfl, hleft, hright⟩ := hcut.append_inv
  obtain ⟨p, hp, rfl⟩ := Option.map_eq_some_iff.mp hrun
  obtain ⟨number, q, hq, hpayload⟩ := hleft.exists_behind
    (fun chunk hchunk => hnormal chunk (List.mem_append_left _ hchunk)) hunmarked hp
  have hlast := hnormal chunk (List.mem_append_right _ List.mem_cons_self)
  rw [Nat.zero_add] at hq
  have hsingle := hright
  cases hright with
  | @cons _ _ i parts _ _ _ hchunk hlaid hfirst hnil =>
      cases hnil
      obtain ⟨r, hr, hpayload'⟩ := hsingle.exists_place? hlast hq
      refine ⟨left, i, parts, r, rfl, hleft, hchunk, hlast _ (List.mem_of_getElem? hchunk), hlaid, hr,
        fun start hstart => ?_⟩
      have hp : p.payload? = some start := hpayload.trans (hpayload'.trans hstart)
      simp [hp]

theorem exactStop_append (first second : List Part) (bytes : List UInt8) :
    exactStop (first ++ second) bytes = (bytesOf first).length + exactStop second bytes := by
  simp [exactStop, Nat.add_assoc]

/-- Behind a constant the payload starts where the last byte of the constant ends. -/
theorem rest_behind_constant {front : Pattern} {text : String} {matcher : Matcher}
    (h : Matcher.ofPattern (front ++ [.value (.constant text), .value (.payload none)]) = .ok matcher)
    (htext : ¬ IsBlank text) {message : List UInt8} {found : Match} (hrun : matcher.run message = some found)
    {commitments : List Commitment} {behind : List UInt8}
    (hcut : Cut matcher.chunks commitments message behind) :
    ∃ left before bytes parts rest,
      commitments = left ++ withMarker (.value (.constant text)) ⟨0, before ++ [constantPart text bytes]⟩ ∧
      found.rest = exactStop (partsOf left ++ before) bytes ∧
      Laid (before ++ constantPart text bytes :: parts) rest ∧
      NormalConstants (elementsIn (before ++ constantPart text bytes :: parts)) := by
  obtain ⟨first, elements, hends⟩ := endsWith_of_constant h htext
  obtain ⟨left, i, parts, p, rfl, -, hchunk, hnormal, hlaid, hplace, hstart⟩ :=
    hends.exists_last (normal_of_ofPattern h) hrun hcut
  rw [List.getElem?_singleton, Option.ite_none_right_eq_some, Option.some.injEq] at hchunk
  obtain ⟨rfl, helements⟩ := hchunk
  obtain ⟨before, after, rfl, -, hafter⟩ := exists_parts_append helements.symm
  obtain ⟨⟨element, bytes⟩, last, rfl, rfl, hlast⟩ := List.map_eq_cons_iff.mp hafter
  obtain ⟨markerBytes, rfl⟩ := exists_part_of_singleton hlast
  obtain rfl : markerBytes = [] := hlaid.marker_bytes ⟨.payload, markerBytes⟩ (by simp) rfl
  refine ⟨left, before, bytes, [⟨.payload, []⟩], behind, ?_, ?_, hlaid, hnormal⟩
  · simp [withMarker, PatternItem.isGroup, constantPart]
  · rw [exactStop_append]
    exact hstart _ (payload?_of_laid hlaid hnormal rfl (normalize_ne_space htext) hplace)

/-- Behind a group the payload starts where the group ends. -/
theorem rest_behind_group {front : Pattern} {branches : List Pattern} {matcher : Matcher}
    (h : Matcher.ofPattern (front ++ [.alternatives branches, .value (.payload none)]) = .ok matcher)
    (hclose : ClosesWithText (.alternatives branches)) {message : List UInt8} {found : Match}
    (hrun : matcher.run message = some found) {commitments : List Commitment} {behind : List UInt8}
    (hcut : Cut matcher.chunks commitments message behind) :
    ∃ left i before text bytes rest, EndsIn (.alternatives branches) i text ∧ ¬ IsBlank text ∧
      commitments = left ++ withMarker (.alternatives branches) ⟨i, before ++ [constantPart text bytes]⟩ ∧
      found.rest = (bytesOf (partsOf left ++ before)).length + bytes.length ∧
      Laid (before ++ [constantPart text bytes]) rest ∧
      NormalConstants (elementsIn (before ++ [constantPart text bytes])) := by
  have hnormals := normal_of_ofPattern h
  cases hclose with
  | group hbranches =>
      have helements : ∀ branch ∈ branches, ∃ front text, branch = front ++ [.value (.constant text)] ∧
          ¬ IsBlank text ∧ branch.flatMap outerElements =
            front.flatMap outerElements ++ [.constant (normalize (Text.encode text))] := by
        intro branch hbranch
        obtain ⟨front, text, rfl, htext⟩ := hbranches branch hbranch
        refine ⟨front, text, rfl, htext, ?_⟩
        rw [List.flatMap_append, List.flatMap_singleton, outerElements_constant (ne_empty_of_not_blank htext)]
      obtain ⟨first, hends⟩ := endsWith_of_group h fun branch hbranch => by
        obtain ⟨front, text, -, -, heq⟩ := helements branch hbranch
        simp [heq]
      obtain ⟨init, number, parts, p, rfl, hinit, hchunk, -, hlaid, hplace, hstart⟩ :=
        hends.exists_last hnormals hrun hcut
      rw [List.getElem?_singleton, Option.ite_none_right_eq_some, Option.some.injEq] at hchunk
      obtain ⟨rfl, hmarker⟩ := hchunk
      obtain ⟨markerBytes, rfl⟩ := exists_part_of_singleton hmarker.symm
      obtain rfl : markerBytes = [] := hlaid.marker_bytes ⟨.payload, markerBytes⟩ List.mem_cons_self rfl
      obtain ⟨left, right, middle, rfl, -, hright⟩ := hinit.append_inv
      cases hright with
      | @cons _ _ i parts _ _ _ hchunk hgroup hfirst hnil =>
          cases hnil
          have hnormal := hnormals (stretchChunk branches) (by simp [hends.eq]) _ (List.mem_of_getElem? hchunk)
          rw [stretchChunk, List.getElem?_map] at hchunk
          obtain ⟨branch, hbranch, heq⟩ := Option.map_eq_some_iff.mp hchunk
          obtain ⟨front, text, rfl, htext, hflat⟩ := helements branch (List.mem_of_getElem? hbranch)
          obtain ⟨before, after, rfl, -, hafter⟩ := exists_parts_append (heq.symm.trans hflat)
          obtain ⟨bytes, rfl⟩ := exists_part_of_singleton hafter
          refine ⟨left, i, before, text, bytes, _, .branch hbranch, htext, ?_, ?_, hgroup, hnormal⟩
          · simp [withMarker, PatternItem.isGroup, constantPart]
          · cases hplace
            rw [hstart _ rfl]
            simp [partsOf, bytesOf, Nat.add_assoc]

/-- The payload starts at the end of the bytes of a constant: at the last one that is no space when the marker is in
the alternative of the constant, and behind the spaces when it has a chunk of its own. -/
structure StartsBehind (item : PatternItem) (message : List UInt8) (found : Match) (before : List Part)
    (bytes behind : List UInt8) : Prop where
  rest_eq : found.rest = exactStop before bytes + if item.isGroup then trailingSpaces bytes else 0
  residue : message.drop found.rest = spaces (if item.isGroup then 0 else trailingSpaces bytes) ++ behind

theorem startsBehind_of_rest {item : PatternItem} {message : List UInt8} {found : Match} {before : List Part}
    {bytes behind : List UInt8} (hmessage : message = bytesOf before ++ (bytes ++ behind))
    (hrest : found.rest = exactStop before bytes + if item.isGroup then trailingSpaces bytes else 0) :
    StartsBehind item message found before bytes behind := by
  refine ⟨hrest, ?_⟩
  have hle := trailingSpaces_le bytes
  rw [hrest, hmessage, exactStop, Nat.add_assoc, ← List.drop_drop, List.drop_left, List.drop_append]
  cases item.isGroup with
  | false => simp [drop_exact]
  | true =>
      have hlength : bytes.length - trailingSpaces bytes + trailingSpaces bytes = bytes.length := by omega
      simp [hlength]

/-- **Payloads without an alias.** Behind a constant the payload starts where the last byte of the constant ends, so
that the spaces there are left. Behind a group whose branches end in constants it starts behind all bytes of the
constant in the branch that is taken: the spaces there are lost unless the constant was skipped, not searched
for. -/
theorem run_starts_behind_constant {front : Pattern} {item : PatternItem} {matcher : Matcher}
    (h : Matcher.ofPattern (front ++ [item, .value (.payload none)]) = .ok matcher)
    (hitem : ClosesWithText item) {message : List UInt8} {found : Match}
    (hrun : matcher.run message = some found) :
    ∃ left i before text bytes behind, EndsIn item i text ∧
      Decomposes matcher message found (left ++ withMarker item ⟨i, before ++ [constantPart text bytes]⟩) behind ∧
      StartsBehind item message found (partsOf left ++ before) bytes behind ∧
      (found.rest = exactStop (partsOf left ++ before) bytes ↔ item.isGroup = false ∨ trailingSpaces bytes = 0) ∧
      (¬ EndsInCapture (elementsIn before) → trailingSpaces bytes = 0) := by
  obtain ⟨commitments, behind, hdecomposes⟩ := exists_decomposes h hrun
  -- in both cases it is known where the payload starts, and which alternative the constant is in
  suffices hlast : ∃ left i before text bytes parts rest, EndsIn item i text ∧ ¬ IsBlank text ∧
      commitments = left ++ withMarker item ⟨i, before ++ [constantPart text bytes]⟩ ∧
      found.rest = exactStop (partsOf left ++ before) bytes + (if item.isGroup then trailingSpaces bytes else 0) ∧
      Laid (before ++ constantPart text bytes :: parts) rest ∧
      NormalConstants (elementsIn (before ++ constantPart text bytes :: parts)) by
    obtain ⟨left, i, before, text, bytes, parts, rest, hends, htext, rfl, hrest, hlaid, hnormal⟩ := hlast
    have hmessage : message = bytesOf (partsOf left ++ before) ++ (bytes ++ behind) := by
      rw [hdecomposes.cut.bytes, bytesOf_withMarker]
      simp [bytesOf, constantPart]
    refine ⟨left, i, before, text, bytes, behind, hends, hdecomposes, startsBehind_of_rest hmessage hrest, ?_,
      hlaid.trailingSpaces_eq_zero hnormal rfl (normalize_ne_space htext)⟩
    rw [hrest]
    cases item.isGroup <;> simp
  cases hitem with
  | @constant text htext =>
      obtain ⟨left, before, bytes, parts, rest, heq, hrest, hlaid, hnormal⟩ :=
        rest_behind_constant h htext hrun hdecomposes.cut
      exact ⟨left, 0, before, text, bytes, parts, rest, .constant, htext, heq, hrest, hlaid, hnormal⟩
  | group hbranches =>
      obtain ⟨left, i, before, text, bytes, rest, hends, htext, heq, hrest, hlaid, hnormal⟩ :=
        rest_behind_group h (.group hbranches) hrun hdecomposes.cut
      refine ⟨left, i, before, text, bytes, [], rest, hends, htext, heq, ?_, hlaid, hnormal⟩
      have hle := trailingSpaces_le bytes
      rw [hrest, exactStop]
      simp only [PatternItem.isGroup, if_true]
      omega

/-- `{<a>:|x}`. -/
def colonOrX : PatternItem :=
  .alternatives [[.value (.field "a"), .value (.constant ":")], [.value (.constant "x")]]

/-- The matcher of `{<a>:|x}<!payload>`. -/
def colonOrXMatcher : Matcher :=
  ⟨[⟨[[.capture "a" false, .constant [58]], [.constant [120]]]⟩, ⟨[[.payload]]⟩], false⟩

theorem ofPattern_colonOrX : Matcher.ofPattern ([] ++ [colonOrX, .value (.payload none)]) = .ok colonOrXMatcher :=
  eq_ok_of_toOption (by decide +kernel)

theorem closesWithText_colonOrX : ClosesWithText colonOrX := by
  refine .group (List.forall_mem_cons.mpr ⟨⟨[.value (.field "a")], ":", rfl, by decide⟩, ?_⟩)
  exact List.forall_mem_singleton.mpr ⟨[], "x", rfl, by decide⟩

/-- `{<a>:|x}<!payload>` in `foo: bar`: the payload is `bar`, without the space behind the colon. -/
theorem run_starts_behind_constant_colonOrX :
    ∃ left i before text bytes behind, EndsIn colonOrX i text ∧
      Decomposes colonOrXMatcher (Text.encode "foo: bar") ⟨[⟨"a", 0, 3⟩], 5⟩
        (left ++ withMarker colonOrX ⟨i, before ++ [constantPart text bytes]⟩) behind ∧
      StartsBehind colonOrX (Text.encode "foo: bar") ⟨[⟨"a", 0, 3⟩], 5⟩ (partsOf left ++ before) bytes behind ∧
      (5 = exactStop (partsOf left ++ before) bytes ↔ colonOrX.isGroup = false ∨ trailingSpaces bytes = 0) ∧
      (¬ EndsInCapture (elementsIn before) → trailingSpaces bytes = 0) :=
  run_starts_behind_constant ofPattern_colonOrX closesWithText_colonOrX (by decide +kernel)

/-- The colon of `foo: bar` has the space behind it. -/
theorem laid_colonOrX :
    Laid [⟨.capture "a" false, Text.encode "foo"⟩, constantPart ":" (Text.encode ": ")] (Text.encode "bar") := by
  have hcolon : normalize (Text.encode ":") = [58] := by decide
  rw [constantPart, hcolon]
  have hfirst : ∀ k < 3, occurrence? [58] ((Text.encode "foo: bar").drop k) = none := by decide
  refine .field ⟨by decide, rfl⟩ (by decide) (fun k hk hocc => ?_) .nil
  exact (occurrence?_ne_none_iff (by decide)).mpr hocc (hfirst k hk)

/-- `{<a>:|x}<!payload>` in `foo: bar`: the payload does not start behind the colon. -/
theorem not_forall_rest_eq_exactStop : ¬ ∀ (front : Pattern) (item : PatternItem) (matcher : Matcher),
    Matcher.ofPattern (front ++ [item, .value (.payload none)]) = .ok matcher → ClosesWithText item →
      ∀ (message : List UInt8) (found : Match), matcher.run message = some found →
        ∀ left i before text bytes behind, Decomposes matcher message found
          (left ++ withMarker item ⟨i, before ++ [constantPart text bytes]⟩) behind →
          found.rest = exactStop (partsOf left ++ before) bytes := by
  intro h
  have hdecomposes : Decomposes colonOrXMatcher (Text.encode "foo: bar") ⟨[⟨"a", 0, 3⟩], 5⟩
      ([] ++ withMarker colonOrX ⟨0, [⟨.capture "a" false, Text.encode "foo"⟩] ++
        [constantPart ":" (Text.encode ": ")]⟩) (Text.encode "bar") := by
    have hmarker : Laid [⟨.payload, []⟩] (Text.encode "bar") := .payload .nil
    have hinorder := inOrder_capturesOf
      [⟨.capture "a" false, Text.encode "foo"⟩, constantPart ":" (Text.encode ": ")] (Text.encode "bar")
    exact ⟨.cons rfl laid_colonOrX nofun (.cons rfl hmarker nofun .nil), by decide +kernel, by decide +kernel,
      by decide +kernel, hinorder, by decide⟩
  have hrest := h [] colonOrX _ ofPattern_colonOrX closesWithText_colonOrX (Text.encode "foo: bar")
    ⟨[⟨"a", 0, 3⟩], 5⟩ (by decide +kernel) [] 0 _ ":" (Text.encode ": ") _ hdecomposes
  exact absurd hrest (by decide)

end LogRules.Matching

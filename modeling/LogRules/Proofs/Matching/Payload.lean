import LogRules.Proofs.Matching.Acceptance

/-! # Where an aliased payload starts

A payload that starts with a field starts with the bytes of the field, the spaces in front of it included
(`run_starts_payload`). A constant behind another field, or one of spaces only, leaves no spaces to a field, so
that the payload starts where the field is captured. -/

namespace LogRules.Matching

open Pattern

/-! ### Marks of commitments -/

theorem marksOf_append (pos : Nat) (first second : List Part) :
    marksOf pos (first ++ second) = marksOf pos first ++ marksOf (pos + (bytesOf first).length) second := by
  induction first generalizing pos with
  | nil => rfl
  | cons part first ih =>
      rw [List.cons_append, marksOf, marksOf, ih, List.append_assoc, bytesOf_cons, List.length_append,
        Nat.add_assoc]

theorem marksOf_eq_nil {pos : Nat} {parts : List Part} (h : ∀ part ∈ parts, part.element.isMarked = false) :
    marksOf pos parts = [] := by
  induction parts generalizing pos with
  | nil => rfl
  | cons part parts ih =>
      obtain ⟨hpart, hparts⟩ := List.forall_mem_cons.mp h
      rw [marksOf, hpart, ih hparts]
      rfl

/-- Of at most one mark in two lists, the last of the first list or else the first of the second is the
first. -/
theorem getLast?_or_head? {marks others : List Nat} (h : (marks ++ others).length ≤ 1) :
    marks.getLast?.or others.head? = (marks ++ others).head? := by
  match marks with
  | [] => rfl
  | [n] => rfl
  | n :: m :: marks =>
      simp at h

/-- An alternative that can be placed is chosen when none before it can be. -/
theorem choose?_of_first {chunk : Chunk} {i pos : Nat} {elements : Elements} {m : List UInt8} {p : Placement}
    (hi : chunk.alternatives[i]? = some elements)
    (hfirst : ∀ other ∈ chunk.alternatives.take i, place? other pos pos m = none)
    (hplace : place? elements pos pos m = some p) : chunk.choose? pos m = some (i, p) := by
  obtain ⟨hlt, hget⟩ := List.getElem?_eq_some_iff.mp hi
  have hsplit : chunk.alternatives =
      chunk.alternatives.take i ++ elements :: chunk.alternatives.drop (i + 1) := by
    rw [← hget, List.getElem_cons_drop, List.take_append_drop]
  rw [Chunk.choose?, hsplit, chooseFrom?_append hfirst, chooseFrom?, hplace, List.length_take]
  simp only [Option.some.injEq, Prod.mk.injEq, and_true]
  omega

/-- A commitment of a cut is what its chunk chooses. -/
theorem choose?_of_laid {chunk : Chunk} (hnormal : ∀ elements ∈ chunk.alternatives, NormalConstants elements)
    {i : Nat} {parts : List Part} {behind : List UInt8} (hchunk : chunk.alternatives[i]? = some (elementsIn parts))
    (hlaid : Laid parts behind)
    (hfirst : ∀ elements ∈ chunk.alternatives.take i, ¬ CanLie elements (bytesOf parts ++ behind)) (pos : Nat) :
    ∃ p, place? (elementsIn parts) pos pos (bytesOf parts ++ behind) = some p ∧
      chunk.choose? pos (bytesOf parts ++ behind) = some (i, p) ∧ p.captures = capturesOf pos parts ∧
      p.stop = pos + (bytesOf parts).length ∧
      (.payload ∉ elementsIn parts → p.payload? = (marksOf pos parts).getLast?) := by
  obtain ⟨p, hp, hplacement⟩ := place?_of_laid hlaid (hnormal _ (List.mem_of_getElem? hchunk)) pos pos
  refine ⟨p, hp, choose?_of_first hchunk (fun other hother => ?_) hp, hplacement⟩
  have hiff := place?_isSome_iff (hnormal other (List.mem_of_mem_take hother)) pos pos (bytesOf parts ++ behind)
  rw [← Option.not_isSome_iff_eq_none, hiff]
  exact hfirst other hother

/-- Chunks that cut a message are placed in it with the captures of their parts, and the payload starts with the
only capture that is marked. -/
theorem placeChunks_of_cut {chunks : List Chunk} {commitments : List Commitment} {m rest : List UInt8}
    (h : Cut chunks commitments m rest) (hnormal : NormalChunks chunks) (number pos : Nat) :
    ∃ p, (placeChunks number pos m chunks).2 = some p ∧ p.captures = capturesOf pos (partsOf commitments) ∧
      ((∀ chunk ∈ chunks, ∀ elements ∈ chunk.alternatives, .payload ∉ elements) →
        (marksOf pos (partsOf commitments)).length ≤ 1 →
          p.payload? = (marksOf pos (partsOf commitments)).head?) := by
  induction h generalizing number pos with
  | nil => exact ⟨.empty pos, rfl, rfl, fun _ _ => rfl⟩
  | @cons chunk chunks i parts commitments behind rest hchunk hlaid hfirst hrest ih =>
      obtain ⟨hnormal, hnormals⟩ := List.forall_mem_cons.mp hnormal
      obtain ⟨q, -, hchoose, hcaptures, hstop, hpayload⟩ := choose?_of_laid hnormal hchunk hlaid hfirst pos
      have hparts : partsOf (⟨i, parts⟩ :: commitments) = parts ++ partsOf commitments := rfl
      have hdrop : (bytesOf parts ++ behind).drop (q.stop - pos) = behind := by
        rw [hstop, Nat.add_sub_cancel_left, List.drop_left]
      obtain ⟨r, hr, hothers, hlater⟩ := ih hnormals (number + 1) (pos + (bytesOf parts).length)
      rw [placeChunks_cons hchoose, hdrop, hstop, hparts, capturesOf_append, marksOf_append]
      refine ⟨q.append r, by rw [hr]; rfl, ?_, fun hplain hone => ?_⟩
      · rw [← hcaptures, ← hothers]
        rfl
      · obtain ⟨hplain, hplains⟩ := List.forall_mem_cons.mp hplain
        rw [List.length_append] at hone
        show q.payload?.or r.payload? = _
        rw [hpayload (hplain _ (List.mem_of_getElem? hchunk)), hlater hplains (by omega)]
        exact getLast?_or_head? (by rwa [List.length_append])

/-! ### The part of a field -/

/-- The part captures the field. -/
def Part.captures (name : String) (part : Part) : Bool := part.element.captures name

theorem Cut.append_inv {first second : List Chunk} {commitments : List Commitment} {m rest : List UInt8}
    (h : Cut (first ++ second) commitments m rest) :
    ∃ left right middle, commitments = left ++ right ∧ Cut first left m middle ∧
      Cut second right middle rest := by
  induction first generalizing commitments m with
  | nil => exact ⟨[], commitments, m, rfl, .nil, h⟩
  | cons chunk first ih =>
      cases h with
      | cons hchunk hlaid hfirst hrest =>
          obtain ⟨left, right, middle, rfl, hleft, hright⟩ := ih hrest
          exact ⟨_ :: left, right, middle, rfl, .cons hchunk hlaid hfirst hleft, hright⟩

/-- The element of a part comes from an alternative of a chunk. -/
theorem Cut.exists_of_mem {chunks : List Chunk} {commitments : List Commitment} {m rest : List UInt8}
    (h : Cut chunks commitments m rest) {part : Part} (hpart : part ∈ partsOf commitments) :
    ∃ chunk ∈ chunks, ∃ elements ∈ chunk.alternatives, part.element ∈ elements := by
  induction h with
  | nil => cases hpart
  | @cons chunk chunks i parts commitments behind rest hchunk hlaid hfirst hrest ih =>
      rcases List.mem_append.mp hpart with hpart | hpart
      · exact ⟨chunk, List.mem_cons_self, _, List.mem_of_getElem? hchunk, List.mem_map_of_mem hpart⟩
      · obtain ⟨other, hother, helements⟩ := ih hpart
        exact ⟨other, List.mem_cons_of_mem _ hother, helements⟩

/-- One chunk captures the field, once in each of its alternatives. These captures are marked, and nothing else
says where the payload starts. -/
structure MarksOnce (name : String) (chunks : List Chunk) : Prop where
  once : ∃ before chunk after, chunks = before ++ chunk :: after ∧
    (∀ elements ∈ chunk.alternatives, elements.countP (Element.captures name) = 1) ∧
    ∀ other ∈ before ++ after, ∀ elements ∈ other.alternatives, ∀ e ∈ elements, e.captures name = false
  marks : ∀ chunk ∈ chunks, ∀ elements ∈ chunk.alternatives, ∀ e ∈ elements, e.isMarked = e.captures name
  plain : ∀ chunk ∈ chunks, ∀ elements ∈ chunk.alternatives, .payload ∉ elements

/-- The commitments have one part that captures the field. -/
theorem MarksOnce.exists_part {name : String} {chunks : List Chunk} (h : MarksOnce name chunks)
    {commitments : List Commitment} {m rest : List UInt8} (hcut : Cut chunks commitments m rest) :
    ∃ left i front part back right behind, commitments = left ++ ⟨i, front ++ part :: back⟩ :: right ∧
      Laid (front ++ part :: back) behind ∧ part.captures name = true ∧
      ∀ other ∈ partsOf left ++ front ++ (back ++ partsOf right), other.captures name = false := by
  obtain ⟨before, chunk, after, rfl, honce, hothers⟩ := h.once
  obtain ⟨left, middle, m', rfl, hleft, hmiddle⟩ := hcut.append_inv
  cases hmiddle with
  | @cons _ _ i parts right behind _ hchunk hlaid hfirst hright =>
      have hcount := honce _ (List.mem_of_getElem? hchunk)
      rw [elementsIn, List.countP_map, List.countP_eq_length_filter, List.length_eq_one_iff] at hcount
      obtain ⟨part, hpart⟩ := hcount
      obtain ⟨front, back, rfl, hfront, hcaptures, hback⟩ := List.filter_eq_cons_iff.mp hpart
      refine ⟨left, i, front, part, back, right, behind, rfl, hlaid, hcaptures, fun other hother => ?_⟩
      simp only [List.mem_append] at hother
      rcases hother with (hother | hother) | hother | hother
      · obtain ⟨c, hc, elements, helements, hmem⟩ := hleft.exists_of_mem hother
        exact hothers c (List.mem_append_left _ hc) elements helements _ hmem
      · exact Bool.eq_false_iff.mpr (hfront other hother)
      · exact Bool.eq_false_iff.mpr (List.filter_eq_nil_iff.mp hback other hother)
      · obtain ⟨c, hc, elements, helements, hmem⟩ := hright.exists_of_mem hother
        exact hothers c (List.mem_append_right _ hc) elements helements _ hmem

/-- The alternatives of laid chunks come from the stretches. -/
theorem Lays.exists_branch {parts : List (List Pattern)} {chunks : List Chunk} (h : Lays parts chunks)
    {chunk : Chunk} (hchunk : chunk ∈ chunks) {elements : Elements}
    (helements : elements ∈ chunk.alternatives) :
    ∃ part ∈ parts, ∃ branch ∈ part, elements = branch.flatMap outerElements := by
  induction h with
  | nil => cases hchunk
  | skip hempty hrest ih =>
      obtain ⟨part, hpart, hbranch⟩ := ih hchunk
      exact ⟨part, List.mem_cons_of_mem _ hpart, hbranch⟩
  | keep part hrest ih =>
      rcases List.mem_cons.mp hchunk with rfl | hchunk
      · obtain ⟨branch, hbranch, rfl⟩ := List.mem_map.mp helements
        exact ⟨part, List.mem_cons_self, branch, hbranch, rfl⟩
      · obtain ⟨part, hpart, hbranch⟩ := ih hchunk
        exact ⟨part, List.mem_cons_of_mem _ hpart, hbranch⟩

theorem mem_outerElements {item : PatternItem} {e : Element} (h : e ∈ outerElements item) :
    e.isMarked = false ∧ (e = .payload → item = .value (.payload none)) := by
  cases item with
  | alternatives branches => cases h
  | value v =>
      cases v with
      | constant text =>
          change e ∈ ofConstant text at h
          unfold ofConstant at h
          dsimp only at h
          split at h
          · cases h
          · obtain rfl := List.mem_singleton.mp h
            exact ⟨rfl, nofun⟩
      | field name =>
          obtain rfl := List.mem_singleton.mp h
          exact ⟨rfl, nofun⟩
      | payload alias? =>
          cases alias? with
          | some name => cases h
          | none =>
              obtain rfl := List.mem_singleton.mp h
              exact ⟨rfl, fun _ => rfl⟩

@[simp] theorem Element.captures_mark (name : String) (e : Element) :
    (e.mark name).captures name = e.captures name := by
  cases e <;> rfl

theorem Element.isMarked_mark (name : String) {e : Element} (h : e.isMarked = false) :
    (e.mark name).isMarked = e.captures name := by
  cases e with
  | constant c => rfl
  | payload => rfl
  | capture field marked =>
      obtain rfl : marked = false := h
      exact Bool.false_or _

theorem Element.mark_eq_payload {name : String} {e : Element} (h : e.mark name = .payload) : e = .payload := by
  cases e with
  | constant c => cases h
  | payload => rfl
  | capture field marked => cases h

/-- Where the marker has an alias, the elements of the stretches say nothing about the payload before they are
marked. -/
theorem exists_unmarked_of_lays {p : Pattern} {chunks : List Chunk} {name : String} (hplaced : WellPlaced p)
    (hlays : Lays (stretches p) chunks) (hpayload : p.payload? = some (some name)) {chunk : Chunk}
    (hchunk : chunk ∈ chunks.map (Chunk.mark name)) {elements : Elements}
    (helements : elements ∈ chunk.alternatives) {e : Element} (he : e ∈ elements) :
    ∃ unmarked : Element, e = unmarked.mark name ∧ unmarked.isMarked = false ∧ unmarked ≠ .payload := by
  obtain ⟨inner, hinner, rfl⟩ := List.mem_map.mp hchunk
  obtain ⟨alternative, halternative, rfl⟩ := List.mem_map.mp helements
  obtain ⟨unmarked, hunmarked, rfl⟩ := List.mem_map.mp he
  obtain ⟨part, hpart, branch, hbranch, rfl⟩ := hlays.exists_branch hinner halternative
  obtain ⟨item, hitem, hmem⟩ := List.mem_flatMap.mp hunmarked
  obtain ⟨hmarked, hmarker⟩ := mem_outerElements hmem
  refine ⟨unmarked, rfl, hmarked, fun heq => ?_⟩
  have hnone := payload?_of_mem_stretches hplaced hpart hbranch (hmarker heq ▸ hitem)
  rw [hpayload] at hnone
  cases hnone

/-- A chunk that does not capture the field holds no capture of it, marked or not. -/
theorem captures_eq_false_of_mark {name : String} {chunk : Chunk} (h : chunk.countCaptures name = 0)
    {elements : Elements} (helements : elements ∈ (chunk.mark name).alternatives) {e : Element}
    (he : e ∈ elements) : e.captures name = false := by
  obtain ⟨alternative, halternative, rfl⟩ := List.mem_map.mp helements
  obtain ⟨unmarked, hunmarked, rfl⟩ := List.mem_map.mp he
  have hmem := List.mem_flatten.mpr ⟨alternative, halternative, hunmarked⟩
  rw [Element.captures_mark]
  exact Bool.eq_false_iff.mpr (List.countP_eq_zero.mp h unmarked hmem)

/-- A field of which one stretch captures one in each alternative is marked once. -/
theorem marksOnce_of_lays {p : Pattern} {chunks : List Chunk} {name : String} (hplaced : WellPlaced p)
    (hlays : Lays (stretches p) chunks) (hpayload : p.payload? = some (some name))
    (heach : CapturedInEach name p) : MarksOnce name (chunks.map (Chunk.mark name)) := by
  refine ⟨?_, fun chunk hchunk elements helements e he => ?_, fun chunk hchunk elements helements hmem => ?_⟩
  · obtain ⟨part, hpart, hones⟩ := heach
    have hfilter := hlays.filter_eq name
    have hcapturing : ((stretches p).filter fun part => countField name part.flatten != 0) = [part] := hpart
    rw [hcapturing, List.map_singleton] at hfilter
    obtain ⟨before, after, rfl, hbefore, -, hafter⟩ := List.filter_eq_cons_iff.mp hfilter
    refine ⟨before.map (Chunk.mark name), (stretchChunk part).mark name, after.map (Chunk.mark name), by simp,
      fun elements helements => ?_, fun other hother elements helements e he => ?_⟩
    · obtain ⟨alternative, halternative, rfl⟩ := List.mem_map.mp helements
      obtain ⟨branch, hbranch, rfl⟩ := List.mem_map.mp halternative
      have hcount := (countP_outerElements name branch).trans (hones branch hbranch)
      rw [List.countP_map]
      simpa [Function.comp_def] using hcount
    · rw [← List.map_append] at hother
      obtain ⟨inner, hinner, rfl⟩ := List.mem_map.mp hother
      have hzero : inner.countCaptures name = 0 := by
        rcases List.mem_append.mp hinner with hinner | hinner
        · simpa using hbefore inner hinner
        · simpa using List.filter_eq_nil_iff.mp hafter inner hinner
      exact captures_eq_false_of_mark hzero helements he
  · obtain ⟨unmarked, rfl, hmarked, -⟩ := exists_unmarked_of_lays hplaced hlays hpayload hchunk helements he
    rw [Element.isMarked_mark name hmarked, Element.captures_mark]
  · obtain ⟨unmarked, heq, -, hne⟩ := exists_unmarked_of_lays hplaced hlays hpayload hchunk helements hmem
    exact hne (Element.mark_eq_payload heq.symm)

/-- Where only the captures of a field are marked, the only part that captures it has the only mark. -/
theorem marksOf_eq_singleton {name : String} {before after : List Part} {part : Part}
    (hmarked : ∀ other ∈ before ++ part :: after, other.element.isMarked = other.captures name)
    (hpart : part.captures name = true) (hothers : ∀ other ∈ before ++ after, other.captures name = false)
    (pos : Nat) : marksOf pos (before ++ part :: after) = [pos + (bytesOf before).length] := by
  rw [List.forall_mem_append, List.forall_mem_cons] at hmarked
  rw [List.forall_mem_append] at hothers
  obtain ⟨hbefore, hthis, hafter⟩ := hmarked
  have hnone : marksOf pos before = [] :=
    marksOf_eq_nil fun other hother => (hbefore other hother).trans (hothers.1 other hother)
  have hrest : marksOf (pos + (bytesOf before).length + part.bytes.length) after = [] :=
    marksOf_eq_nil fun other hother => (hafter other hother).trans (hothers.2 other hother)
  rw [marksOf_append, marksOf, hthis, hpart, hnone, hrest]
  rfl

/-! ### Captures of a field -/

theorem filter_capturesOf_eq_nil {name : String} {pos : Nat} {parts : List Part}
    (h : ∀ part ∈ parts, part.captures name = false) :
    (capturesOf pos parts).filter (fun c => c.field == name) = [] := by
  rw [List.filter_eq_nil_iff]
  intro c hc
  obtain ⟨before, part, after, rfl, hcapture⟩ := exists_of_mem_capturesOf hc
  obtain ⟨field, marked, helement, rfl⟩ := Part.exists_of_capture? hcapture
  have hpart := h part (List.mem_append_right _ List.mem_cons_self)
  rw [Part.captures, helement] at hpart
  exact Bool.eq_false_iff.mp hpart

theorem Part.exists_of_captures {name : String} {part : Part} (h : part.captures name = true) :
    ∃ marked, part.element = .capture name marked := by
  unfold Part.captures Element.captures at h
  split at h
  · next field marked helement => exact ⟨marked, helement ▸ eq_of_beq h ▸ rfl⟩
  · cases h

/-- The capture of a field that only one part captures. -/
theorem filter_capturesOf_eq_singleton {name : String} {before after : List Part} {part : Part}
    (hpart : part.captures name = true) (hothers : ∀ other ∈ before ++ after, other.captures name = false)
    (pos : Nat) : (capturesOf pos (before ++ part :: after)).filter (fun c => c.field == name) =
      [.ofText name (pos + (bytesOf before).length) part.bytes] := by
  obtain ⟨marked, helement⟩ := Part.exists_of_captures hpart
  rw [List.forall_mem_append] at hothers
  have hcapture : part.capture? (pos + (bytesOf before).length) =
      some (.ofText name (pos + (bytesOf before).length) part.bytes) := by
    rw [Part.capture?, helement]
  rw [capturesOf_append, capturesOf, hcapture, List.filter_append, List.filter_append,
    filter_capturesOf_eq_nil hothers.1, filter_capturesOf_eq_nil hothers.2, Option.toList_some,
    List.nil_append, List.append_nil]
  exact List.filter_cons_of_pos (beq_self_eq_true name)

/-! ### Spaces in front of a field -/

/-- The elements end in a constant that takes all spaces behind it: one behind a capture, or one of spaces
only. -/
def TakesSpaces (elements : Elements) : Prop :=
  ∃ others c, elements = others ++ [.constant c] ∧ (c = [space] ∨ EndsInCapture others)

theorem EndsInCapture.tail {e next : Element} {elements : Elements} (h : EndsInCapture (e :: next :: elements)) :
    EndsInCapture (next :: elements) := h

theorem EndsInCapture.of_cons {e : Element} {elements : Elements} (h : EndsInCapture (e :: elements))
    (he : ∀ field marked, e ≠ .capture field marked) : EndsInCapture elements := by
  cases elements with
  | nil =>
      obtain ⟨field, marked, hlast⟩ := h
      exact absurd (Option.some.inj hlast) (he field marked)
  | cons next elements => exact h.tail

/-- Behind a constant that takes all spaces there is none. -/
theorem Laid.head?_ne_space {all : List Part} {behind : List UInt8} (h : Laid all behind)
    {front parts : List Part} {c text : List UInt8} (hall : all = front ++ ⟨.constant c, text⟩ :: parts)
    (htakes : c = [space] ∨ EndsInCapture (elementsIn front)) :
    (bytesOf parts ++ behind).head? ≠ some space := by
  induction h generalizing front with
  | nil => cases front <;> cases hall
  | @constant c' text' behind parts' a htext hends hrest ih =>
      cases front with
      | nil =>
          cases hall
          rcases htakes with rfl | ⟨_, _, hlast⟩
          · rwa [EndsAt, if_pos rfl] at hends
          · cases hlast
      | cons first front =>
          obtain ⟨rfl, hparts⟩ := List.cons.inj hall
          exact ih hparts (htakes.imp_right fun hlast => hlast.of_cons (by simp))
  | payload hrest ih =>
      cases front with
      | nil => cases hall
      | cons first front =>
          obtain ⟨rfl, hparts⟩ := List.cons.inj hall
          exact ih hparts (htakes.imp_right fun hlast => hlast.of_cons (by simp))
  | @field name marked c' before text' behind parts' htext hends hfirst hrest ih =>
      rcases front with _ | ⟨first, _ | ⟨next, front⟩⟩
      · cases hall
      · cases hall
        exact hends
      · obtain ⟨rfl, hrest⟩ := List.cons.inj hall
        obtain ⟨rfl, hparts⟩ := List.cons.inj hrest
        exact ih hparts (htakes.imp_right fun hlast => hlast.tail.of_cons (by simp))
  | @last name marked bytes parts' hnext hnone hrest ih =>
      rcases front with _ | ⟨first, _ | ⟨next, front⟩⟩
      · cases hall
      · obtain ⟨rfl, rfl⟩ := List.cons.inj hall
        exact absurd rfl (hnext c (elementsIn parts))
      · obtain ⟨rfl, hparts⟩ := List.cons.inj hall
        exact ih hparts (htakes.imp_right EndsInCapture.tail)

/-- A field behind a constant that takes all spaces does not begin with a space. -/
theorem Laid.bytes_head?_ne_space {front back : List Part} {part : Part} {behind : List UInt8}
    (h : Laid (front ++ part :: back) behind) (htakes : TakesSpaces (elementsIn front)) :
    part.bytes.head? ≠ some space := by
  obtain ⟨others, c, helements, htakes⟩ := htakes
  obtain ⟨front, last, rfl, rfl, hlast⟩ := List.map_eq_append_iff.mp helements
  obtain ⟨⟨element, text⟩, rest, rfl, helement, hnil⟩ := List.map_eq_cons_iff.mp hlast
  obtain rfl := List.map_eq_nil_iff.mp hnil
  obtain rfl : element = .constant c := helement
  have hsplit : front ++ [⟨.constant c, text⟩] ++ part :: back =
      front ++ ⟨.constant c, text⟩ :: part :: back := by simp
  have hhead := h.head?_ne_space hsplit htakes
  intro hspace
  rw [bytesOf_cons, List.append_assoc, List.head?_append, hspace] at hhead
  exact hhead rfl

/-- The payload starts with the bytes of a field, which only one part captures. -/
structure StartsPayload (name : String) (found : Match) (before : List Part) (part : Part) (c : Capture) :
    Prop where
  captures : part.captures name = true
  rest_eq : found.rest = (bytesOf before).length
  capture : found.captures.filter (fun c => c.field == name) = [c]
  start_eq : c.start = found.rest + leadingSpaces part.bytes

/-- **Aliased payloads.** A payload that starts with a field which every alternative of one stretch captures
starts with the bytes of that field. It starts where the field is captured when these do not begin with a
space; a constant that takes all spaces in front of the field sees to that. -/
theorem run_starts_payload {p : Pattern} {matcher : Matcher} {name : String}
    (h : Matcher.ofPattern p = .ok matcher) (hname : name ∈ alias? p) (heach : CapturedInEach name p)
    {message : List UInt8} {found : Match} (hrun : matcher.run message = some found) :
    ∃ left i front part back right behind c,
      Decomposes matcher message found (left ++ ⟨i, front ++ part :: back⟩ :: right) behind ∧
      StartsPayload name found (partsOf left ++ front) part c ∧
      (found.rest = c.start ↔ part.bytes.head? ≠ some space) ∧
      (TakesSpaces (elementsIn front) → found.rest = c.start) := by
  obtain ⟨commitments, behind, hdecomposes⟩ := exists_decomposes h hrun
  obtain ⟨chunks, hplaced, hlays, rfl⟩ := exists_lays_of_ofPattern h hname
  obtain ⟨hpayload, -⟩ := Option.filter_eq_some_iff.mp hname
  rw [Option.join_eq_some_iff] at hpayload
  have hmarks := marksOnce_of_lays hplaced hlays hpayload heach
  obtain ⟨left, i, front, part, back, right, behind', rfl, hlaid, hpart, hothers⟩ :=
    hmarks.exists_part hdecomposes.cut
  have hparts : partsOf (left ++ ⟨i, front ++ part :: back⟩ :: right) =
      (partsOf left ++ front) ++ part :: (back ++ partsOf right) := by
    simp [partsOf]
  have hmarked : ∀ other ∈ partsOf (left ++ ⟨i, front ++ part :: back⟩ :: right),
      other.element.isMarked = other.captures name := by
    intro other hother
    obtain ⟨chunk, hchunk, elements, helements, hmem⟩ := hdecomposes.cut.exists_of_mem hother
    exact hmarks.marks chunk hchunk elements helements _ hmem
  -- the field is the only mark, so that the payload starts with it
  have hmark : marksOf 0 (partsOf (left ++ ⟨i, front ++ part :: back⟩ :: right)) =
      [(bytesOf (partsOf left ++ front)).length] := by
    rw [hparts] at hmarked ⊢
    rw [marksOf_eq_singleton hmarked hpart hothers, Nat.zero_add]
  obtain ⟨placement, hplacement, -, hstart⟩ :=
    placeChunks_of_cut hdecomposes.cut (normal_of_ofPattern h) 0 0
  replace hstart := hstart hmarks.plain (by rw [hmark]; exact Nat.le_refl 1)
  have hrest : found.rest = (bytesOf (partsOf left ++ front)).length := by
    obtain ⟨other, hother, rfl⟩ := Option.map_eq_some_iff.mp hrun
    obtain rfl := Option.some.inj (hplacement.symm.trans hother)
    rw [hmark] at hstart
    simp [hstart]
  have hiff : found.rest = (Capture.ofText name found.rest part.bytes).start ↔
      part.bytes.head? ≠ some space := by
    rw [← leadingSpaces_eq_zero_iff]
    exact Nat.left_eq_add
  refine ⟨left, i, front, part, back, right, behind, .ofText name found.rest part.bytes, hdecomposes,
    ⟨hpart, hrest, ?_, rfl⟩, hiff, fun htakes => hiff.mpr (hlaid.bytes_head?_ne_space htakes)⟩
  rw [hdecomposes.captures, hparts, filter_capturesOf_eq_singleton hpart hothers, hrest, Nat.zero_add]

/-- `<host> <id>: <!payload:id>` in `fw1 4001: login`: the space is that of the constant. -/
theorem run_starts_payload_hostAndId :
    ∃ left i front part back right behind c,
      Decomposes ⟨[⟨[[.capture "host" false, .constant [32], .capture "id" true, .constant [58]]]⟩], false⟩
        (Text.encode "fw1 4001: login") ⟨[⟨"host", 0, 3⟩, ⟨"id", 4, 8⟩], 4⟩
        (left ++ ⟨i, front ++ part :: back⟩ :: right) behind ∧
      StartsPayload "id" ⟨[⟨"host", 0, 3⟩, ⟨"id", 4, 8⟩], 4⟩ (partsOf left ++ front) part c ∧
      (4 = c.start ↔ part.bytes.head? ≠ some space) ∧ (TakesSpaces (elementsIn front) → 4 = c.start) := by
  have hmatcher : Matcher.ofPattern [.value (.field "host"), .value (.constant " "), .value (.field "id"),
      .value (.constant ": "), .value (.payload (some "id"))] =
      .ok ⟨[⟨[[.capture "host" false, .constant [32], .capture "id" true, .constant [58]]]⟩], false⟩ :=
    eq_ok_of_toOption (by decide +kernel)
  exact run_starts_payload hmatcher (by decide) ⟨_, rfl, by decide⟩ (by decide +kernel)

/-- `host <id>: <!payload:id>` in `host 4001: login`: the payload starts with the space that the constant
leaves. -/
theorem not_forall_rest_eq_start : ¬ ∀ (p : Pattern) (matcher : Matcher) (name : String),
    Matcher.ofPattern p = .ok matcher → name ∈ alias? p → CapturedInEach name p →
      ∀ (message : List UInt8) (found : Match) (c : Capture), matcher.run message = some found →
        found.captures.filter (fun c => c.field == name) = [c] → found.rest = c.start := by
  intro h
  have hmatcher : Matcher.ofPattern [.value (.constant "host "), .value (.field "id"),
      .value (.constant ": "), .value (.payload (some "id"))] =
      .ok ⟨[⟨[[.constant [104, 111, 115, 116], .capture "id" true, .constant [58]]]⟩], false⟩ :=
    eq_ok_of_toOption (by decide +kernel)
  have hrest := h _ _ "id" hmatcher (by decide) ⟨_, rfl, by decide⟩ (Text.encode "host 4001: login")
    ⟨[⟨"id", 5, 9⟩], 4⟩ ⟨"id", 5, 9⟩ (by decide +kernel) rfl
  exact absurd hrest (by decide)

end LogRules.Matching

import LogRules.Proofs.Matching.Payload

/-! # Spaces in front of a message

Spaces in front of a message make no difference unless a space is looked for before anything is placed. The
first part that has bytes takes them: a constant behind spaces, or a field, from whose ends they are trimmed
(`Widened`). The exception is a field that ends at a constant of spaces: it is searched for from the front of the
message, where the spaces are (`run_leading_spaces`). -/

namespace LogRules.Matching

open Pattern

/-! ### Spaces at the front of parts -/

theorem trimSpaces_spaces_append (k : Nat) (m : List UInt8) : trimSpaces (spaces k ++ m) = trimSpaces m := by
  unfold trimSpaces
  rw [dropWhile_spaces_append]

/-- The elements say at most where the payload starts. -/
def PlacesNothing (elements : Elements) : Prop := ∀ e ∈ elements, e = .payload

theorem PlacesNothing.nil : PlacesNothing [] := List.forall_mem_nil _

/-- The elements do not begin with a space, nor with a field that ends at a space. -/
def Quiet : Elements → Prop
  | .constant c :: _ => c ≠ [space]
  | .capture _ _ :: .constant c :: _ => c ≠ [space]
  | .payload :: rest => Quiet rest
  | _ => True

/-- The second parts are the first ones with `k` more spaces in front. -/
inductive Widened (k : Nat) : List Part → List Part → Prop
  | first (element : Element) (bytes : List UInt8) (parts : List Part) :
      Widened k (⟨element, bytes⟩ :: parts) (⟨element, spaces k ++ bytes⟩ :: parts)
  /-- A field without bytes leaves the spaces to its constant. -/
  | second (first element : Element) (bytes : List UInt8) (parts : List Part) :
      Widened k (⟨first, []⟩ :: ⟨element, bytes⟩ :: parts) (⟨first, []⟩ :: ⟨element, spaces k ++ bytes⟩ :: parts)
  | marker {parts parts' : List Part} (h : Widened k parts parts') :
      Widened k (⟨.payload, []⟩ :: parts) (⟨.payload, []⟩ :: parts')

/-- The fields of some parts with their texts. -/
def trimmedIn (parts : List Part) : List (String × List UInt8) := parts.filterMap Part.trimmed?

@[simp] theorem trimmedIn_append (first second : List Part) :
    trimmedIn (first ++ second) = trimmedIn first ++ trimmedIn second := List.filterMap_append

theorem Part.trimmed?_widened (element : Element) (k : Nat) (bytes : List UInt8) :
    (Part.mk element (spaces k ++ bytes)).trimmed? = (Part.mk element bytes).trimmed? := by
  cases element with
  | constant c => rfl
  | payload => rfl
  | capture field marked =>
      unfold trimmed?
      dsimp only
      rw [trimSpaces_spaces_append]

namespace Widened

variable {k : Nat} {parts parts' : List Part}

theorem elements_eq (h : Widened k parts parts') : elementsIn parts' = elementsIn parts := by
  induction h with
  | first element bytes parts => rfl
  | second first element bytes parts => rfl
  | marker h ih => rw [elementsIn_cons, elementsIn_cons, ih]

theorem bytes_eq (h : Widened k parts parts') : bytesOf parts' = spaces k ++ bytesOf parts := by
  induction h with
  | first element bytes parts => exact List.append_assoc ..
  | second first element bytes parts => exact List.append_assoc ..
  | marker h ih => exact ih

theorem trimmedIn_eq (h : Widened k parts parts') : trimmedIn parts' = trimmedIn parts := by
  unfold trimmedIn
  induction h with
  | first element bytes parts => rw [List.filterMap_cons, List.filterMap_cons, Part.trimmed?_widened]
  | second first element bytes parts =>
      rw [List.filterMap_cons, List.filterMap_cons, List.filterMap_cons, List.filterMap_cons,
        Part.trimmed?_widened]
  | marker h ih => exact ih

end Widened

/-- Parts that place nothing lie in front of everything. -/
theorem Laid.of_placesNothing {parts : List Part} {behind : List UInt8} (h : Laid parts behind)
    (hnothing : PlacesNothing (elementsIn parts)) :
    bytesOf parts = [] ∧ ∀ other, Laid parts other := by
  induction h with
  | nil => exact ⟨rfl, fun _ => .nil⟩
  | payload hrest ih =>
      obtain ⟨hbytes, hlaid⟩ := ih fun e he => hnothing e (List.mem_cons_of_mem _ he)
      exact ⟨hbytes, fun other => .payload (hlaid other)⟩
  | constant a htext hends hrest ih => cases hnothing _ List.mem_cons_self
  | field htext hends hfirst hrest ih => cases hnothing _ List.mem_cons_self
  | last hnext hnone hrest ih => cases hnothing _ List.mem_cons_self

theorem Normal.head?_ne_space {c : List UInt8} (h : Normal c) (hspace : c ≠ [space]) :
    c ≠ [] ∧ c.head? ≠ some space := by
  obtain ⟨hne, htidy, -⟩ := h.resolve_left hspace
  exact ⟨hne, htidy.1⟩

/-- A constant that is no space does not occur at a space. -/
theorem not_occurs_at_space {c m : List UInt8} (hc : Normal c) (hspace : c ≠ [space])
    (hm : m.head? = some space) : ¬ Occurs c m := by
  rintro ⟨text, rest, rfl, -, hhead⟩
  obtain ⟨hne, hfirst⟩ := hc.head?_ne_space hspace
  cases text with
  | nil =>
      rw [List.head?_nil] at hhead
      exact hne (List.head?_eq_none_iff.mp hhead.symm)
  | cons d text => exact hfirst (hhead ▸ hm)

/-- A space occurs where a space is. -/
theorem occurs_space {m : List UInt8} (hm : m.head? = some space) : Occurs [space] m := by
  obtain ⟨rest, rfl⟩ := List.head?_eq_some_iff.mp hm
  exact ⟨[space], rest, rfl, standsFor_space_iff.mpr ⟨0, rfl⟩⟩

/-- Spaces in front of a field do not hold the constant behind it. -/
theorem not_occurs_widened_iff {c : List UInt8} (hc : Normal c) (hspace : c ≠ [space]) (k : Nat)
    (before tail : List UInt8) :
    (∀ i < (spaces k ++ before).length, ¬ Occurs c (((spaces k ++ before) ++ tail).drop i)) ↔
      ∀ i < before.length, ¬ Occurs c ((before ++ tail).drop i) := by
  have hlength : (spaces k ++ before).length = k + before.length := by simp
  have hdrop (i : Nat) : ((spaces k ++ before) ++ tail).drop (k + i) = (before ++ tail).drop i := by
    rw [List.append_assoc, ← List.drop_drop, List.drop_left' List.length_replicate]
  rw [hlength]
  constructor
  · intro h i hi
    rw [← hdrop i]
    exact h (k + i) (by omega)
  · intro h i hi
    by_cases hlt : i < k
    · refine not_occurs_at_space hc hspace ?_
      rw [List.append_assoc, List.drop_append, List.drop_replicate, List.head?_append,
        List.head?_replicate, if_neg (by omega), Option.some_or]
    · obtain ⟨j, rfl⟩ := Nat.exists_eq_add_of_le (Nat.not_lt.mp hlt)
      rw [hdrop j]
      exact h j (by omega)

/-- A field that ends at a space has no bytes where the message begins with one. -/
theorem eq_nil_of_opens {before tail : List UInt8}
    (hfirst : ∀ i < before.length, ¬ Occurs [space] ((before ++ tail).drop i))
    (hhead : (before ++ tail).head? = some space) : before = [] := by
  cases before with
  | nil => rfl
  | cons d before => exact absurd (occurs_space hhead) (hfirst 0 (Nat.zero_lt_succ _))

/-- Where a space is looked for, the message begins with one. -/
def Opens (elements : Elements) (m : List UInt8) : Prop := Quiet elements ∨ m.head? = some space

/-- Parts take more spaces in front. -/
theorem Laid.widen {parts : List Part} {behind : List UInt8} (h : Laid parts behind)
    (hnormal : NormalConstants (elementsIn parts)) (hopens : Opens (elementsIn parts) (bytesOf parts ++ behind))
    (hplaces : ¬ PlacesNothing (elementsIn parts)) (k : Nat) :
    ∃ parts', Widened k parts parts' ∧ Laid parts' behind := by
  induction h with
  | nil => exact absurd .nil hplaces
  | @constant c text behind parts a htext hends hrest ih =>
      refine ⟨_, .first _ _ _, ?_⟩
      rw [← List.append_assoc, List.replicate_append_replicate]
      exact .constant (k + a) htext hends hrest
  | @payload behind parts hrest ih =>
      have hplaces' : ¬ PlacesNothing (elementsIn parts) := fun h =>
        hplaces (List.forall_mem_cons.mpr ⟨rfl, h⟩)
      obtain ⟨parts', hwidened, hlaid⟩ := ih hnormal.tail hopens hplaces'
      exact ⟨_, .marker hwidened, .payload hlaid⟩
  | @field name marked c before text behind parts htext hends hfirst hrest ih =>
      have hc := hnormal c (List.mem_cons_of_mem _ List.mem_cons_self)
      by_cases hspace : c = [space]
      · -- the field has no bytes, so that the constant takes the spaces
        subst hspace
        have hhead := hopens.resolve_left fun hquiet => hquiet rfl
        rw [bytesOf_cons, bytesOf_cons, List.append_assoc, List.append_assoc] at hhead
        obtain rfl := eq_nil_of_opens hfirst hhead
        obtain ⟨n, rfl⟩ := standsFor_space_iff.mp htext
        refine ⟨_, .second _ _ _ _, .field (standsFor_space_iff.mpr ⟨k + n, ?_⟩) hends
          (fun i hi => absurd hi (Nat.not_lt_zero i)) hrest⟩
        rw [List.replicate_append_replicate, Nat.add_assoc]
      · exact ⟨_, .first _ _ _, .field htext hends ((not_occurs_widened_iff hc hspace k _ _).mpr hfirst) hrest⟩
  | @last name marked bytes parts hnext hnone hrest ih =>
      exact ⟨_, .first _ _ _, .last hnext hnone hrest⟩

theorem spaces_add (a b : Nat) : spaces (a + b) = spaces a ++ spaces b :=
  List.replicate_append_replicate.symm

/-- Spaces in front of a message lie in front of what does not begin with one. -/
theorem exists_of_append_eq {before tail m : List UInt8} {k : Nat} (htail : tail.head? ≠ some space)
    (h : before ++ tail = spaces k ++ m) : ∃ rest, before = spaces k ++ rest := by
  rcases List.append_eq_append_iff.mp h with ⟨others, hspaces, rfl⟩ | ⟨rest, rfl, -⟩
  · refine ⟨[], ?_⟩
    cases others with
    | nil => rw [List.append_nil, hspaces, List.append_nil]
    | cons d others =>
        have hd : d = space := List.eq_of_mem_replicate (hspaces ▸ List.mem_append_right _ List.mem_cons_self)
        exact absurd (congrArg some hd) htail
  · exact ⟨rest, rfl⟩

/-- A run of spaces is as long as the spaces in front of the message and those that it begins with. -/
theorem exists_of_run {n k : Nat} {rest m : List UInt8} (hrest : rest.head? ≠ some space)
    (h : spaces n ++ rest = spaces k ++ m) (hm : m.head? = some space) : ∃ j, n = k + (j + 1) := by
  have hlead := congrArg leadingSpaces h
  rw [leadingSpaces_run n hrest, leadingSpaces_spaces_append] at hlead
  have hpositive : leadingSpaces m ≠ 0 := fun hzero => leadingSpaces_eq_zero_iff.mp hzero hm
  obtain ⟨j, hj⟩ := Nat.exists_eq_succ_of_ne_zero hpositive
  exact ⟨j, hlead.trans (congrArg (k + ·) hj)⟩

theorem StandsFor.head?_ne_space {c text : List UInt8} (h : StandsFor c text) (hc : Normal c)
    (hspace : c ≠ [space]) (rest : List UInt8) : (text ++ rest).head? ≠ some space := by
  obtain ⟨hne, hhead⟩ := hc.head?_ne_space hspace
  obtain ⟨d, c, rfl⟩ := List.exists_cons_of_ne_nil hne
  rwa [List.head?_append, h.2, List.head?_cons, Option.some_or]

/-- Parts take fewer spaces in front. -/
theorem Laid.narrow {parts' : List Part} {behind : List UInt8} (h : Laid parts' behind)
    (hnormal : NormalConstants (elementsIn parts')) {k : Nat} {m : List UInt8}
    (hm : bytesOf parts' ++ behind = spaces k ++ m) (hopens : Opens (elementsIn parts') m)
    (hplaces : ¬ PlacesNothing (elementsIn parts')) :
    ∃ parts, Widened k parts parts' ∧ Laid parts behind := by
  induction h with
  | nil => exact absurd .nil hplaces
  | @constant c text behind parts a htext hends hrest ih =>
      have hc := hnormal c List.mem_cons_self
      rw [bytesOf_cons, List.append_assoc] at hm
      by_cases hspace : c = [space]
      · subst hspace
        have hhead := hopens.resolve_left fun hquiet => hquiet rfl
        obtain ⟨n, rfl⟩ := standsFor_space_iff.mp htext
        rw [EndsAt, if_pos rfl] at hends
        rw [← spaces_add] at hm ⊢
        obtain ⟨j, hj⟩ := exists_of_run hends hm hhead
        rw [hj, spaces_add]
        exact ⟨_, .first _ _ _, .constant 0 (standsFor_space_iff.mpr ⟨j, rfl⟩) (by rwa [EndsAt, if_pos rfl]) hrest⟩
      · obtain ⟨rest, hrun⟩ := exists_of_append_eq (htext.head?_ne_space hc hspace _)
          ((List.append_assoc ..).symm.trans hm)
        obtain ⟨-, -, hrest'⟩ := List.append_eq_replicate_iff.mp hrun.symm
        rw [hrun, List.append_assoc, hrest']
        exact ⟨_, .first _ _ _, .constant rest.length htext hends hrest⟩
  | @payload behind parts hrest ih =>
      have hplaces' : ¬ PlacesNothing (elementsIn parts) := fun h =>
        hplaces (List.forall_mem_cons.mpr ⟨rfl, h⟩)
      obtain ⟨parts', hwidened, hlaid⟩ := ih hnormal.tail hm hopens hplaces'
      exact ⟨_, .marker hwidened, .payload hlaid⟩
  | @field name marked c before text behind parts htext hends hfirst hrest ih =>
      have hc := hnormal c (List.mem_cons_of_mem _ List.mem_cons_self)
      rw [bytesOf_cons, bytesOf_cons, List.append_assoc, List.append_assoc] at hm
      by_cases hspace : c = [space]
      · subst hspace
        have hhead := hopens.resolve_left fun hquiet => hquiet rfl
        have hhead' : (spaces k ++ m).head? = some space := by
          cases k with
          | zero => exact hhead
          | succ k => rfl
        obtain rfl := eq_nil_of_opens hfirst (hm ▸ hhead')
        obtain ⟨n, rfl⟩ := standsFor_space_iff.mp htext
        obtain ⟨j, hj⟩ := exists_of_run hends hm hhead
        rw [hj, spaces_add]
        exact ⟨_, .second _ _ _ _, .field (standsFor_space_iff.mpr ⟨j, rfl⟩) hends
          (fun i hi => absurd hi (Nat.not_lt_zero i)) hrest⟩
      · obtain ⟨rest, rfl⟩ := exists_of_append_eq (htext.head?_ne_space hc hspace _) hm
        exact ⟨_, .first _ _ _, .field htext hends ((not_occurs_widened_iff hc hspace k _ _).mp hfirst) hrest⟩
  | @last name marked bytes parts hnext hnone hrest ih =>
      rw [bytesOf_cons, hnone, List.append_nil, List.append_nil] at hm
      subst hm
      exact ⟨_, .first _ _ _, .last hnext hnone hrest⟩

/-! ### Two messages -/

/-- One of the messages is the other one with spaces in front. -/
def Padded (m m' : List UInt8) : Prop := ∃ k, m' = spaces k ++ m ∨ m = spaces k ++ m'

theorem Padded.symm {m m' : List UInt8} (h : Padded m m') : Padded m' m := by
  obtain ⟨k, h⟩ := h
  exact ⟨k, h.symm⟩

/-- The parts lie in both messages alike: the same bytes are left, unless nothing was placed. -/
theorem Laid.of_padded {parts : List Part} {behind : List UInt8} (h : Laid parts behind)
    (hnormal : NormalConstants (elementsIn parts)) {m' : List UInt8} (hpadded : Padded (bytesOf parts ++ behind) m')
    (hopens : Opens (elementsIn parts) (bytesOf parts ++ behind)) (hopens' : Opens (elementsIn parts) m') :
    ∃ parts' behind', elementsIn parts' = elementsIn parts ∧ m' = bytesOf parts' ++ behind' ∧
      Laid parts' behind' ∧ trimmedIn parts' = trimmedIn parts ∧
      (behind' = behind ∨
        PlacesNothing (elementsIn parts) ∧ behind = bytesOf parts ++ behind ∧ behind' = m') := by
  by_cases hplaces : PlacesNothing (elementsIn parts)
  · obtain ⟨hbytes, hlaid⟩ := h.of_placesNothing hplaces
    rw [hbytes]
    exact ⟨parts, m', rfl, by rw [hbytes]; rfl, hlaid m', rfl, .inr ⟨hplaces, rfl, rfl⟩⟩
  · obtain ⟨k, rfl | hm⟩ := hpadded
    · obtain ⟨parts', hwidened, hlaid⟩ := h.widen hnormal hopens hplaces k
      refine ⟨parts', behind, hwidened.elements_eq, ?_, hlaid, hwidened.trimmedIn_eq, .inl rfl⟩
      rw [hwidened.bytes_eq, List.append_assoc]
    · obtain ⟨parts', hwidened, hlaid⟩ := h.narrow hnormal hm hopens' hplaces
      refine ⟨parts', behind, hwidened.elements_eq.symm, ?_, hlaid, hwidened.trimmedIn_eq.symm, .inl rfl⟩
      rw [hwidened.bytes_eq, List.append_assoc] at hm
      exact (List.append_cancel_left hm).symm

theorem CanLie.of_padded {elements : Elements} (hnormal : NormalConstants elements) {m m' : List UInt8}
    (hpadded : Padded m m') (hopens : Opens elements m) (hopens' : Opens elements m') (h : CanLie elements m) :
    CanLie elements m' := by
  obtain ⟨parts, behind, rfl, rfl, hlaid⟩ := h
  obtain ⟨parts', behind', helements, hm', hlaid', -⟩ := hlaid.of_padded hnormal hpadded hopens hopens'
  exact ⟨parts', behind', helements, hm', hlaid'⟩

/-- No space is looked for before anything is placed. -/
def QuietChunks : List Chunk → Prop
  | [] => True
  | chunk :: chunks => (∀ elements ∈ chunk.alternatives, Quiet elements) ∧
      ((∃ elements ∈ chunk.alternatives, PlacesNothing elements) → QuietChunks chunks)

/-- Chunks cut both messages alike. -/
theorem Cut.of_padded {chunks : List Chunk} {commitments : List Commitment} {m rest : List UInt8}
    (h : Cut chunks commitments m rest) (hnormal : NormalChunks chunks) {m' : List UInt8} (hpadded : Padded m m')
    (hopens : QuietChunks chunks ∨ m.head? = some space ∧ m'.head? = some space) :
    ∃ commitments' rest', Cut chunks commitments' m' rest' ∧
      trimmedIn (partsOf commitments') = trimmedIn (partsOf commitments) := by
  induction h generalizing m' with
  | nil => exact ⟨[], m', .nil, rfl⟩
  | @cons chunk chunks i parts commitments behind rest hchunk hlaid hfirst hrest ih =>
      obtain ⟨hnormal, hnormals⟩ := List.forall_mem_cons.mp hnormal
      have hall : ∀ elements ∈ chunk.alternatives, Opens elements (bytesOf parts ++ behind) ∧ Opens elements m' := by
        intro elements hmem
        rcases hopens with hquiet | ⟨hm, hm'⟩
        · exact ⟨.inl (hquiet.1 elements hmem), .inl (hquiet.1 elements hmem)⟩
        · exact ⟨.inr hm, .inr hm'⟩
      have hmem := List.mem_of_getElem? hchunk
      obtain ⟨hopen, hopen'⟩ := hall _ hmem
      obtain ⟨parts', behind', helements, rfl, hlaid', htrimmed, hbehind⟩ :=
        hlaid.of_padded (hnormal _ hmem) hpadded hopen hopen'
      have hfirst' : ∀ elements ∈ chunk.alternatives.take i, ¬ CanLie elements (bytesOf parts' ++ behind') := by
        intro elements htake hlies
        have hmem := List.mem_of_mem_take htake
        obtain ⟨hopen, hopen'⟩ := hall elements hmem
        exact hfirst elements htake (hlies.of_padded (hnormal elements hmem) hpadded.symm hopen' hopen)
      -- the chunks behind see the same bytes, or again two messages
      obtain ⟨commitments', rest', hcut, htexts⟩ : ∃ commitments' rest', Cut chunks commitments' behind' rest' ∧
          trimmedIn (partsOf commitments') = trimmedIn (partsOf commitments) := by
        rcases hbehind with rfl | ⟨hplaces, hm, hm'⟩
        · exact ⟨commitments, rest, hrest, rfl⟩
        · rw [← hm, ← hm'] at hpadded hopens
          exact ih hnormals hpadded (hopens.imp_left fun hquiet => hquiet.2 ⟨_, hmem, hplaces⟩)
      refine ⟨⟨i, parts'⟩ :: commitments', rest', .cons (helements ▸ hchunk) hlaid' hfirst' hcut, ?_⟩
      show trimmedIn (parts' ++ partsOf commitments') = trimmedIn (parts ++ partsOf commitments)
      rw [trimmedIn_append, trimmedIn_append, htrimmed, htexts]

/-- Chunks that cut a message match it with the texts of their parts. -/
theorem run_of_cut {matcher : Matcher} (hnormal : NormalChunks matcher.chunks)
    {commitments : List Commitment} {m rest : List UInt8} (h : Cut matcher.chunks commitments m rest) :
    ∃ found, matcher.run m = some found ∧ textsOf found.captures m = trimmedIn (partsOf commitments) := by
  obtain ⟨p, hp, hcaptures, -⟩ := placeChunks_of_cut h hnormal 0 0
  refine ⟨_, Option.map_eq_some_iff.mpr ⟨p, hp, rfl⟩, ?_⟩
  dsimp only
  rw [hcaptures]
  exact textsOf_capturesOf h.bytes

/-- The same fields with the same texts are found in both messages. -/
def SameTexts (m m' : List UInt8) (found found' : Match) : Prop :=
  textsOf found.captures m = textsOf found'.captures m'

theorem run_of_padded {p : Pattern} {matcher : Matcher} (h : Matcher.ofPattern p = .ok matcher)
    {m m' : List UInt8} (hpadded : Padded m m')
    (hopens : QuietChunks matcher.chunks ∨ m.head? = some space ∧ m'.head? = some space) {found : Match}
    (hrun : matcher.run m = some found) : ∃ found', matcher.run m' = some found' ∧ SameTexts m m' found found' := by
  obtain ⟨commitments, behind, hdecomposes⟩ := exists_decomposes h hrun
  have hnormal := normal_of_ofPattern h
  obtain ⟨commitments', rest', hcut, htexts⟩ := hdecomposes.cut.of_padded hnormal hpadded hopens
  obtain ⟨found', hrun', htexts'⟩ := run_of_cut hnormal hcut
  exact ⟨found', hrun', (hdecomposes.texts.trans htexts.symm).trans htexts'.symm⟩

/-- A match on one message is a match on the other one. -/
theorem rel_run_of_padded {p : Pattern} {matcher : Matcher} (h : Matcher.ofPattern p = .ok matcher)
    {m m' : List UInt8} (hpadded : Padded m m')
    (hopens : QuietChunks matcher.chunks ∨ m.head? = some space ∧ m'.head? = some space) :
    Option.Rel (SameTexts m m') (matcher.run m) (matcher.run m') := by
  cases hrun : matcher.run m with
  | some found =>
      obtain ⟨found', hrun', hsame⟩ := run_of_padded h hpadded hopens hrun
      rw [hrun']
      exact .some hsame
  | none =>
      cases hrun' : matcher.run m' with
      | none => exact .none
      | some found' =>
          obtain ⟨found, hfound, -⟩ := run_of_padded h hpadded.symm (hopens.imp_right And.symm) hrun'
          rw [hrun] at hfound
          cases hfound

/-! ### What stands first in a pattern -/

/-- The items begin with a constant of spaces. -/
def BeginsBlank (items : Pattern) : Prop := ∃ text rest, items = .value (.constant text) :: rest ∧ IsBlank text

/-- The items begin with a constant of spaces, or with a field and one. -/
def SeeksSpace (items : Pattern) : Prop :=
  BeginsBlank items ∨ ∃ name rest, items = .value (.field name) :: rest ∧ BeginsBlank rest

/-- The items that can stand first: the branches of a group at the front, or else the pattern. -/
def openings : Pattern → List Pattern
  | .alternatives branches :: _ => branches
  | p => [p]

/-- Every constant and every branch has something in it. -/
structure Solid (p : Pattern) : Prop where
  constants : .value (.constant "") ∉ p
  branches : ∀ branches, .alternatives branches ∈ p → ∀ branch ∈ branches,
    branch ≠ [] ∧ .value (.constant "") ∉ branch

/-- A pattern that has a source text has something in every constant and every branch. -/
theorem solid_of_wellFormed {p : Pattern} (h : WellFormed p) : Solid p where
  constants hmem := h.2 _ hmem rfl
  branches branches hmem branch hbranch := by
    obtain ⟨hne, -, hitems⟩ := (h.2 _ hmem).2 branch hbranch
    exact ⟨hne, fun hconstant => (hitems _ hconstant).1 rfl⟩

theorem IsRun.of_cons {item : PatternItem} {items : Pattern} (h : IsRun (item :: items)) :
    IsRun items ∧ (IsMarker item → items = []) ∧ ∃ v, item = .value v := by
  obtain ⟨_ | ⟨first, front⟩, marker, heq, hplain, hmarker⟩ := h
  · rcases hmarker with rfl | ⟨alias?, rfl⟩
    · cases heq
    · obtain ⟨rfl, rfl⟩ := List.cons.inj heq
      exact ⟨IsPlain.isRun (fun _ h => nomatch h), fun _ => rfl, _, rfl⟩
  · obtain ⟨rfl, rfl⟩ := List.cons.inj heq
    obtain ⟨⟨v, rfl, hv⟩, hfront⟩ := List.forall_mem_cons.mp hplain
    exact ⟨⟨front, marker, rfl, hfront, hmarker⟩, fun h => absurd h hv, v, rfl⟩

theorem ne_empty_of_not_mem {text : String} {items : Pattern}
    (h : .value (.constant "") ∉ PatternItem.value (.constant text) :: items) : text ≠ "" := by
  rintro rfl
  exact h List.mem_cons_self

theorem beginsBlank_iff {items : Pattern} (hrun : IsRun items) (hsolid : .value (.constant "") ∉ items) :
    BeginsBlank items ↔ ∃ rest, items.flatMap outerElements = .constant [space] :: rest := by
  cases items with
  | nil => simp [BeginsBlank]
  | cons item items =>
      obtain ⟨-, hlast, v, rfl⟩ := hrun.of_cons
      cases v with
      | constant text =>
          have htext := ne_empty_of_not_mem hsolid
          rw [List.flatMap_cons, outerElements_constant htext]
          simp [BeginsBlank, normalize_eq_space_iff htext]
      | field name => simp [BeginsBlank, outerElements, innerElements]
      | payload alias? =>
          obtain rfl := hlast rfl
          cases alias? <;> simp [BeginsBlank, outerElements, innerElements]

theorem quiet_capture_iff (name : String) (marked : Bool) (elements : Elements) :
    Quiet (.capture name marked :: elements) ↔ ¬ ∃ rest, elements = .constant [space] :: rest := by
  cases elements with
  | nil => simp [Quiet]
  | cons e rest => cases e <;> simp [Quiet]

/-- The elements of items are quiet when no space is looked for. -/
theorem quiet_iff {items : Pattern} (hrun : IsRun items) (hsolid : .value (.constant "") ∉ items) :
    Quiet (items.flatMap outerElements) ↔ ¬ SeeksSpace items := by
  cases items with
  | nil => simp [SeeksSpace, BeginsBlank, Quiet]
  | cons item items =>
      obtain ⟨hrest, hlast, v, rfl⟩ := hrun.of_cons
      cases v with
      | constant text =>
          have htext := ne_empty_of_not_mem hsolid
          rw [List.flatMap_cons, outerElements_constant htext]
          simp [SeeksSpace, BeginsBlank, Quiet, normalize_eq_space_iff htext]
      | field name =>
          have hblank := beginsBlank_iff hrest fun hmem => hsolid (List.mem_cons_of_mem _ hmem)
          have hcapture := quiet_capture_iff name false (items.flatMap outerElements)
          rw [← hblank] at hcapture
          refine hcapture.trans (not_congr ?_)
          simp [SeeksSpace, BeginsBlank]
      | payload alias? =>
          obtain rfl := hlast rfl
          cases alias? <;> simp [SeeksSpace, BeginsBlank, outerElements, innerElements, Quiet]

/-- A value that is no marker and no empty constant places something. -/
theorem not_placesNothing_cons {v : Value} (hv : ¬ v.isPayload = true) (hsolid : v ≠ .constant "")
    (items : Pattern) : ¬ PlacesNothing ((PatternItem.value v :: items).flatMap outerElements) := by
  intro hnothing
  cases v with
  | constant text =>
      have htext : text ≠ "" := fun heq => hsolid (congrArg Value.constant heq)
      rw [List.flatMap_cons, outerElements_constant htext] at hnothing
      cases hnothing _ List.mem_cons_self
  | field name => cases hnothing _ List.mem_cons_self
  | payload alias? => exact hv rfl

/-- A branch with something in it and in every constant places something. -/
theorem not_placesNothing_branch {branch : Pattern} (hplain : IsPlain branch)
    (hsolid : branch ≠ [] ∧ .value (.constant "") ∉ branch) : ¬ PlacesNothing (branch.flatMap outerElements) := by
  obtain ⟨hne, hconstant⟩ := hsolid
  obtain ⟨item, items, rfl⟩ := List.exists_cons_of_ne_nil hne
  obtain ⟨⟨v, rfl, hv⟩, -⟩ := List.forall_mem_cons.mp hplain
  exact not_placesNothing_cons hv (fun heq => hconstant (heq ▸ List.mem_cons_self)) items

theorem seeksSpace_cons_value (v : Value) (items : Pattern) : SeeksSpace (.value v :: items) ↔
    (∃ text, v = .constant text ∧ IsBlank text) ∨ (∃ name, v = .field name) ∧ BeginsBlank items := by
  simp [SeeksSpace, BeginsBlank]

/-- The items in front of the first group begin like the pattern. -/
theorem beginsBlank_run (p : Pattern) : BeginsBlank (runAndStretches p).1 ↔ BeginsBlank p := by
  fun_cases runAndStretches p <;> simp_all [BeginsBlank]

theorem seeksSpace_run (p : Pattern) : SeeksSpace (runAndStretches p).1 ↔ SeeksSpace p := by
  cases p with
  | nil => rfl
  | cons item rest =>
      cases item with
      | alternatives branches => simp [SeeksSpace, BeginsBlank, runAndStretches]
      | value v =>
          show SeeksSpace (.value v :: (runAndStretches rest).1) ↔ _
          rw [seeksSpace_cons_value, seeksSpace_cons_value, beginsBlank_run rest]

theorem mem_of_mem_run {p : Pattern} {item : PatternItem} (h : item ∈ (runAndStretches p).1) : item ∈ p := by
  induction p with
  | nil => cases h
  | cons first rest ih =>
      cases first with
      | alternatives branches => cases h
      | value v =>
          rcases List.mem_cons.mp h with rfl | hmem
          · exact List.mem_cons_self
          · exact List.mem_cons_of_mem _ (ih hmem)

/-! ### What comes first in the chunks -/

/-- A stretch whose alternatives all place something has its chunk, and what is behind it does not come first. -/
theorem quietChunks_iff_of_places {part : List Pattern} {parts : List (List Pattern)} {chunks : List Chunk}
    (hlays : Lays (part :: parts) chunks)
    (hplaces : ∀ branch ∈ part, ¬ PlacesNothing (branch.flatMap outerElements)) :
    QuietChunks chunks ↔ ∀ branch ∈ part, Quiet (branch.flatMap outerElements) := by
  obtain ⟨others, rfl, -⟩ := hlays.cons_inv fun branch hbranch hnil =>
    hplaces branch hbranch (hnil ▸ PlacesNothing.nil)
  have hnone : ¬ ∃ elements ∈ (stretchChunk part).alternatives, PlacesNothing elements := by
    rintro ⟨elements, helements, hnothing⟩
    obtain ⟨branch, hbranch, rfl⟩ := List.mem_map.mp helements
    exact hplaces branch hbranch hnothing
  refine (and_iff_left fun hsome => absurd hsome hnone).trans ?_
  simp [stretchChunk]

theorem PlacesNothing.quiet {elements : Elements} (h : PlacesNothing elements) : Quiet elements := by
  induction elements with
  | nil => trivial
  | cons e rest ih =>
      obtain ⟨rfl, hrest⟩ := List.forall_mem_cons.mp h
      exact ih hrest

/-- A run that places nothing leaves what is behind it to come first. -/
theorem exists_lays_of_placesNothing {run : Pattern} {parts : List (List Pattern)} {chunks : List Chunk}
    (hlays : Lays ([run] :: parts) chunks) (hnothing : PlacesNothing (run.flatMap outerElements)) :
    ∃ others, Lays parts others ∧ (QuietChunks chunks ↔ QuietChunks others) := by
  have hquiet := hnothing.quiet
  cases hlays with
  | skip hempty hrest => exact ⟨_, hrest, Iff.rfl⟩
  | keep _ hrest =>
      refine ⟨_, hrest, ?_⟩
      simp [QuietChunks, stretchChunk, hquiet, hnothing]

/-- No space is looked for in a pattern with something in every constant and every branch when none is where the
pattern begins. -/
theorem quietChunks_iff_of_lays {p : Pattern} (hplaced : WellPlaced p) (hsolid : Solid p) {chunks : List Chunk}
    (hlays : Lays (stretches p) chunks) (hruns : ∀ part ∈ stretches p, ∀ branch ∈ part, IsRun branch) :
    QuietChunks chunks ↔ ∀ items ∈ openings p, ¬ SeeksSpace items := by
  have hrun : IsRun (runAndStretches p).1 := hruns _ List.mem_cons_self _ List.mem_cons_self
  have hconstants : .value (.constant "") ∉ (runAndStretches p).1 := fun hmem =>
    hsolid.constants (mem_of_mem_run hmem)
  cases p with
  | nil =>
      obtain ⟨others, hothers, hiff⟩ := exists_lays_of_placesNothing hlays .nil
      cases hothers
      simp [hiff, QuietChunks, openings, SeeksSpace, BeginsBlank]
  | cons item rest =>
      cases item with
      | alternatives branches =>
          obtain ⟨others, hothers, hiff⟩ := exists_lays_of_placesNothing hlays .nil
          have hplain := hplaced.branches_plain branches List.mem_cons_self
          have hsolids := hsolid.branches branches List.mem_cons_self
          rw [hiff, quietChunks_iff_of_places hothers fun branch hbranch =>
            not_placesNothing_branch (hplain branch hbranch) (hsolids branch hbranch)]
          exact forall₂_congr fun branch hbranch =>
            quiet_iff (hplain branch hbranch).isRun (hsolids branch hbranch).2
      | value v =>
          have hopenings : (∀ items ∈ openings (.value v :: rest), ¬ SeeksSpace items) ↔
              ¬ SeeksSpace (.value v :: rest) := List.forall_mem_singleton
          obtain ⟨alias?, rfl⟩ | hv := payload_or v
          · obtain rfl := hplaced.eq_nil_of_payload
            have hnothing : PlacesNothing ([PatternItem.value (.payload alias?)].flatMap outerElements) := by
              cases alias? <;> simp [PlacesNothing, outerElements, innerElements]
            obtain ⟨others, hothers, hiff⟩ := exists_lays_of_placesNothing hlays hnothing
            cases hothers
            rw [hopenings, seeksSpace_cons_value]
            simp [hiff, QuietChunks]
          · have hplaces := not_placesNothing_cons hv (fun heq => hsolid.constants (heq ▸ List.mem_cons_self))
              (runAndStretches rest).1
            rw [hopenings, ← seeksSpace_run, ← quiet_iff hrun hconstants,
              quietChunks_iff_of_places hlays (List.forall_mem_singleton.mpr hplaces), List.forall_mem_singleton]

theorem quiet_mark (name : String) (elements : Elements) :
    Quiet (elements.map (Element.mark name)) ↔ Quiet elements := by
  induction elements with
  | nil => rfl
  | cons e rest ih =>
      cases e with
      | constant c => rfl
      | payload => exact ih
      | capture field marked =>
          rw [List.map_cons, Element.mark, quiet_capture_iff, quiet_capture_iff]
          cases rest with
          | nil => rfl
          | cons next rest => cases next <;> simp [Element.mark]

theorem placesNothing_mark (name : String) (elements : Elements) :
    PlacesNothing (elements.map (Element.mark name)) ↔ PlacesNothing elements := by
  refine List.forall_mem_map.trans (forall₂_congr fun e _ => ⟨Element.mark_eq_payload, ?_⟩)
  rintro rfl
  rfl

theorem quietChunks_mark (name : String) (chunks : List Chunk) :
    QuietChunks (chunks.map (Chunk.mark name)) ↔ QuietChunks chunks := by
  induction chunks with
  | nil => rfl
  | cons chunk chunks ih => simp [QuietChunks, Chunk.mark, quiet_mark, placesNothing_mark, ih]

/-- The chunks of a matcher are those of the stretches of its pattern, with an alias marked. -/
theorem exists_lays {p : Pattern} {matcher : Matcher} (h : Matcher.ofPattern p = .ok matcher) :
    ∃ chunks, WellPlaced p ∧ Lays (stretches p) chunks ∧
      (∀ part ∈ stretches p, ∀ branch ∈ part, IsRun branch) ∧
      (matcher.chunks = chunks ∨ ∃ name, matcher.chunks = chunks.map (Chunk.mark name)) := by
  obtain ⟨chunks, hplaced, hlays, hruns, hmatcher⟩ := exists_ofChunks h
  refine ⟨chunks, hplaced, hlays, hruns, ?_⟩
  unfold ofChunks at hmatcher
  split at hmatcher
  · cases hmatcher
  · split at hmatcher
    · cases hmatcher
      exact .inl rfl
    · split at hmatcher
      · cases hmatcher
      · cases hmatcher
        exact .inr ⟨_, rfl⟩
  · cases hmatcher
    exact .inl rfl

/-! ### A field that ends at a space -/

theorem head?_of_trimSpaces_eq_nil {before rest : List UInt8} (h : trimSpaces before = [])
    (hrest : rest.head? = some space) : (before ++ rest).head? = some space := by
  obtain ⟨a, core, b, rfl, htidy⟩ := exists_core before
  rw [trimSpaces_padded a b htidy] at h
  subst h
  rw [List.append_nil, ← spaces_add]
  cases a + b with
  | zero => exact hrest
  | succ n => rfl

/-- A field at the front that ends at a space is empty when the message begins with one. -/
theorem Cut.head?_trimmedIn_iff {name : String} {marked : Bool} {elements : Elements} {chunks : List Chunk}
    {commitments : List Commitment} {m rest : List UInt8}
    (h : Cut (⟨[.capture name marked :: .constant [space] :: elements]⟩ :: chunks) commitments m rest) :
    (trimmedIn (partsOf commitments)).head? = some (name, []) ↔ m.head? = some space := by
  cases h with
  | @cons _ _ i parts commitments behind _ hchunk hlaid _ _ =>
      rw [List.getElem?_singleton, Option.ite_none_right_eq_some, Option.some.injEq] at hchunk
      obtain ⟨⟨first, before⟩, others, rfl, rfl, hothers⟩ := List.map_eq_cons_iff.mp hchunk.2.symm
      obtain ⟨⟨second, text⟩, parts, rfl, rfl, hparts⟩ := List.map_eq_cons_iff.mp hothers
      cases hlaid with
      | last hnext => exact absurd rfl (hnext [space] (elementsIn parts))
      | field htext hends hfirst hrest =>
          obtain ⟨n, rfl⟩ := standsFor_space_iff.mp htext
          have htrimmed : (trimmedIn (partsOf (⟨i, ⟨.capture name marked, before⟩ ::
              ⟨.constant [space], spaces (n + 1)⟩ :: parts⟩ :: commitments))).head? =
                some (name, trimSpaces before) := rfl
          rw [htrimmed, bytesOf_cons, bytesOf_cons, List.append_assoc, List.append_assoc, Option.some.injEq,
            Prod.mk.injEq, eq_self, true_and]
          constructor
          · exact fun hnil => head?_of_trimSpaces_eq_nil hnil rfl
          · intro hhead
            rw [eq_nil_of_opens hfirst hhead]
            rfl

/-- The first chunk of a pattern that begins with a field and a constant of spaces. -/
theorem exists_chunks_of_field {p : Pattern} {matcher : Matcher} (h : Matcher.ofPattern p = .ok matcher)
    {name text : String} {rest : Pattern} (hp : p = .value (.field name) :: .value (.constant text) :: rest)
    (htext : text ≠ "") (hblank : IsBlank text) : ∃ marked elements others,
      matcher.chunks = ⟨[.capture name marked :: .constant [space] :: elements]⟩ :: others := by
  obtain ⟨chunks, -, hlays, -, hmatcher⟩ := exists_lays h
  subst hp
  have helements : (runAndStretches (.value (.field name) :: .value (.constant text) :: rest)).1.flatMap
      outerElements = .capture name false :: .constant [space] ::
        (runAndStretches rest).1.flatMap outerElements := by
    show outerElements (.value (.field name)) ++ (outerElements (.value (.constant text)) ++ _) = _
    rw [outerElements_constant htext, (normalize_eq_space_iff htext).mpr hblank]
    rfl
  obtain ⟨others, rfl, -⟩ := hlays.cons_inv (by
    rw [List.forall_mem_singleton, helements]
    exact List.cons_ne_nil _ _)
  rw [stretchChunk, List.map_singleton, helements] at hmatcher
  rcases hmatcher with hmatcher | ⟨field, hmatcher⟩
  · exact ⟨_, _, _, hmatcher⟩
  · exact ⟨_, _, _, hmatcher⟩

/-- **Leading spaces.** More spaces in front of a message make no difference when no space is looked for before
anything is placed, or when there are spaces already. No space is looked for when the pattern, or each branch of a
group that comes first, begins neither with a constant of spaces nor with a field and one. A field at the front that
such a constant ends is empty exactly when the message begins with a space. -/
theorem run_leading_spaces {p : Pattern} {matcher : Matcher} (h : Matcher.ofPattern p = .ok matcher) :
    (∀ m k, QuietChunks matcher.chunks ∨ m.head? = some space →
      Option.Rel (SameTexts m (spaces k ++ m)) (matcher.run m) (matcher.run (spaces k ++ m))) ∧
    (Solid p → (QuietChunks matcher.chunks ↔ ∀ items ∈ openings p, ¬ SeeksSpace items)) ∧
    (∀ name text rest, p = .value (.field name) :: .value (.constant text) :: rest → text ≠ "" → IsBlank text →
      ∀ m found, matcher.run m = some found →
        ((textsOf found.captures m).head? = some (name, []) ↔ m.head? = some space)) := by
  refine ⟨fun m k hopens => ?_, fun hsolid => ?_, fun name text rest hp htext hblank m found hrun => ?_⟩
  · refine rel_run_of_padded h ⟨k, .inl rfl⟩ (hopens.imp_right fun hhead => ⟨hhead, ?_⟩)
    cases k with
    | zero => exact hhead
    | succ k => rfl
  · obtain ⟨chunks, hplaced, hlays, hruns, hchunks⟩ := exists_lays h
    have hiff := quietChunks_iff_of_lays hplaced hsolid hlays hruns
    rcases hchunks with heq | ⟨name, heq⟩
    · rwa [heq]
    · rwa [heq, quietChunks_mark]
  · obtain ⟨commitments, behind, hdecomposes⟩ := exists_decomposes h hrun
    obtain ⟨marked, elements, others, hchunks⟩ := exists_chunks_of_field h hp htext hblank
    have hcut := hdecomposes.cut
    rw [hchunks] at hcut
    rw [hdecomposes.texts]
    exact hcut.head?_trimmedIn_iff

/-- `<a> <b>`. -/
def twoWords : Pattern := [.value (.field "a"), .value (.constant " "), .value (.field "b")]

/-- The matcher of `<a> <b>`. -/
def twoWordsMatcher : Matcher := ⟨[⟨[[.capture "a" false, .constant [space], .capture "b" false]]⟩], false⟩

theorem ofPattern_twoWords : Matcher.ofPattern twoWords = .ok twoWordsMatcher :=
  eq_ok_of_toOption (by decide +kernel)

/-- `id=<id>;` finds the same in `id=7;` with three spaces in front. `<a> <b>` finds no text for `a` in ` x y`. -/
theorem run_leading_spaces_id :
    Option.Rel (SameTexts (Text.encode "id=7;") (spaces 3 ++ Text.encode "id=7;"))
      (some ⟨[⟨"id", 3, 4⟩], 5⟩) (some ⟨[⟨"id", 6, 7⟩], 8⟩) ∧
    ((textsOf [⟨"a", 0, 0⟩, ⟨"b", 1, 4⟩] (Text.encode " x y")).head? = some ("a", []) ↔
      (Text.encode " x y").head? = some space) := by
  have hmatcher : Matcher.ofPattern [.value (.constant "id="), .value (.field "id"), .value (.constant ";")] =
      .ok ⟨[⟨[[.constant [105, 100, 61], .capture "id" false, .constant [59]]]⟩], false⟩ :=
    eq_ok_of_toOption (by decide +kernel)
  obtain ⟨hsame, hopenings, -⟩ := run_leading_spaces hmatcher
  have hquiet := (hopenings (solid_of_wellFormed (by decide))).mpr (by
    refine List.forall_mem_singleton.mpr ?_
    rintro (⟨text, rest, heq, hblank⟩ | ⟨name, rest, heq, -⟩)
    · cases heq
      exact absurd hblank (by decide)
    · cases heq)
  have hrel := hsame (Text.encode "id=7;") 3 (.inl hquiet)
  have hrun : Matcher.run ⟨[⟨[[.constant [105, 100, 61], .capture "id" false, .constant [59]]]⟩], false⟩
      (Text.encode "id=7;") = some ⟨[⟨"id", 3, 4⟩], 5⟩ := by decide +kernel
  have hrun' : Matcher.run ⟨[⟨[[.constant [105, 100, 61], .capture "id" false, .constant [59]]]⟩], false⟩
      (spaces 3 ++ Text.encode "id=7;") = some ⟨[⟨"id", 6, 7⟩], 8⟩ := by decide +kernel
  rw [hrun, hrun'] at hrel
  exact ⟨hrel, (run_leading_spaces ofPattern_twoWords).2.2 "a" " " _ rfl (by decide) (by decide)
    (Text.encode " x y") ⟨[⟨"a", 0, 0⟩, ⟨"b", 1, 4⟩], 4⟩ (by decide +kernel)⟩

/-- `<a> <b>` finds `x` and `y` in `x y`, but nothing and `x y` with a space in front. -/
theorem not_forall_sameTexts : ¬ ∀ (p : Pattern) (matcher : Matcher), Matcher.ofPattern p = .ok matcher →
    (∀ items ∈ openings p, ¬ BeginsBlank items) → ∀ (m : List UInt8) (k : Nat),
      Option.Rel (SameTexts m (spaces k ++ m)) (matcher.run m) (matcher.run (spaces k ++ m)) := by
  intro h
  have hopenings : ∀ items ∈ openings twoWords, ¬ BeginsBlank items := by
    refine List.forall_mem_singleton.mpr ?_
    rintro ⟨text, rest, heq, -⟩
    cases heq
  have hrel := h twoWords twoWordsMatcher ofPattern_twoWords hopenings (Text.encode "x y") 1
  have hrun : twoWordsMatcher.run (Text.encode "x y") = some ⟨[⟨"a", 0, 1⟩, ⟨"b", 2, 3⟩], 3⟩ := by
    decide +kernel
  have hrun' : twoWordsMatcher.run (spaces 1 ++ Text.encode "x y") = some ⟨[⟨"a", 0, 0⟩, ⟨"b", 1, 4⟩], 4⟩ := by
    decide +kernel
  rw [hrun, hrun'] at hrel
  cases hrel with
  | some hsame => exact absurd hsame (by unfold SameTexts; decide)

end LogRules.Matching

import LogRules.Proofs.Matching.Decomposition

/-! # Chunks one behind the other

Chunks that take alternatives with certain numbers (`Takes`) place these alternatives one behind the other,
each from where the one before ended (`takes_append`). Elements are placed in the same way when they are cut
in two, unless the cut is right behind a capture (`place?_append`). So chunks that take certain alternatives
place the elements of these alternatives as if they were one alternative. -/

namespace LogRules.Matching

/-! ### Placements one behind the other -/

theorem Placement.append_assoc (p q r : Placement) :
    (p.append q).append r = p.append (q.append r) := by
  simp [append, List.append_assoc, Option.or_assoc]

theorem Placement.append_empty (p : Placement) : p.append (empty p.stop) = p := by
  simp [append, empty]

theorem drop_drop_stop {message : List UInt8} {pos : Nat} {p : Placement} (h : pos ≤ p.stop) :
    (message.drop pos).drop (p.stop - pos) = message.drop p.stop := by
  rw [List.drop_drop, Nat.add_sub_cancel' h]

/-! ### Elements cut in two -/

/-- No element says where the payload starts. -/
def Unmarked (elements : Elements) : Prop :=
  ∀ e ∈ elements, e ≠ .payload ∧ ∀ field, e ≠ .capture field true

theorem Unmarked.tail {e : Element} {elements : Elements} (h : Unmarked (e :: elements)) :
    Unmarked elements := fun e' he' => h e' (List.mem_cons_of_mem _ he')

theorem Unmarked.not_marked {field : String} {marked : Bool} {elements : Elements}
    (h : Unmarked (.capture field marked :: elements)) : marked = false := by
  cases marked with
  | false => rfl
  | true => exact absurd rfl ((h _ List.mem_cons_self).2 field)

theorem unmarked_elementsOf (pieces : List Piece) : Unmarked (elementsOf pieces) := by
  intro e he
  obtain ⟨piece, -, hmem⟩ := List.mem_flatMap.mp he
  cases piece with
  | field name filler =>
      obtain rfl := List.mem_singleton.mp hmem
      simp
  | constant text =>
      change e ∈ ofConstant text at hmem
      unfold ofConstant at hmem
      dsimp only at hmem
      split at hmem
      · cases hmem
      · obtain rfl := List.mem_singleton.mp hmem
        simp

theorem place?_seek (field : String) (c : List UInt8) (rest : Elements) (pos exact : Nat)
    (m : List UInt8) :
    place? (.capture field false :: .constant c :: rest) pos exact m =
      (find? c m).bind fun found =>
        let stop := found.1 + found.2
        let spaces := leadingSpaces (m.drop stop)
        (place? rest (pos + stop + spaces) (pos + stop) (m.drop (stop + spaces))).map
          (·.consCapture (.ofText field pos (m.take found.1))) := by
  rw [place?, Option.bind_eq_bind]
  refine Option.bind_congr fun found _ => ?_
  dsimp only
  rw [Option.map_eq_bind]
  rfl

theorem place?_rest {rest : Elements} (hrest : ∀ c others, rest ≠ .constant c :: others)
    (field : String) (pos exact : Nat) (m : List UInt8) :
    place? (.capture field false :: rest) pos exact m =
      (place? rest (pos + m.length) (pos + m.length) []).map
        (·.consCapture (.ofText field pos m)) := by
  rw [place?, Option.bind_eq_bind, Option.map_eq_bind]
  · rfl
  · exact hrest

/-- Only a payload marker looks at where the element before ended exactly. -/
theorem place?_exact {elements : Elements} (h : Unmarked elements) (pos exact exact' : Nat)
    (m : List UInt8) : place? elements pos exact m = place? elements pos exact' m := by
  cases elements with
  | nil => rfl
  | cons e rest =>
      cases e with
      | constant c => rfl
      | payload => exact absurd rfl (h _ List.mem_cons_self).1
      | capture field marked =>
          cases rest with
          | nil => rfl
          | cons next rest => cases next <;> rfl

theorem payload?_eq_none {elements : Elements} {pos exact : Nat} {m : List UInt8} {p : Placement}
    (hunmarked : Unmarked elements) (h : place? elements pos exact m = some p) : p.payload? = none := by
  fun_induction place? elements pos exact m generalizing p with
  | case1 pos exact m =>
      cases h
      rfl
  | case2 exact c rest pos m ih =>
      obtain ⟨n, -, hplace⟩ := Option.bind_eq_some_iff.mp h
      exact ih n hunmarked.tail hplace
  | case3 rest pos exact m ih => exact absurd rfl (hunmarked _ List.mem_cons_self).1
  | case4 exact field marked c rest pos m ih =>
      obtain ⟨⟨start, length⟩, -, hfound⟩ := Option.bind_eq_some_iff.mp h
      obtain ⟨q, hplace, heq⟩ := Option.bind_eq_some_iff.mp hfound
      obtain rfl := Option.some.inj heq
      obtain rfl := hunmarked.not_marked
      exact @ih start length q hunmarked.tail.tail hplace
  | case5 exact field marked rest pos m hnext stop =>
      rename_i ih
      obtain ⟨q, hplace, heq⟩ := Option.bind_eq_some_iff.mp h
      obtain rfl := Option.some.inj heq
      obtain rfl := hunmarked.not_marked
      exact @ih q hunmarked.tail hplace

/-- The last element is a capture. -/
def EndsInCapture (elements : Elements) : Prop :=
  ∃ field marked, elements.getLast? = some (.capture field marked)

theorem EndsInCapture.cons {elements : Elements} (h : EndsInCapture elements) (e : Element) :
    EndsInCapture (e :: elements) := by
  obtain ⟨field, marked, hlast⟩ := h
  refine ⟨field, marked, ?_⟩
  rw [List.getLast?_cons, hlast]
  rfl

/-- A capture in front of what is placed in two parts belongs to the first part. -/
theorem consCapture_eq_some_iff {whole first? : Option Placement} {R : Placement → Placement → Prop}
    (hkeep : ∀ capture q r, R (q.consCapture capture) r ↔ R q r)
    (h : ∀ p, whole = some p ↔ ∃ q r, first? = some q ∧ R q r ∧ p = q.append r)
    (capture : Capture) (p : Placement) :
    whole.map (·.consCapture capture) = some p ↔
      ∃ q r, first?.map (·.consCapture capture) = some q ∧ R q r ∧ p = q.append r := by
  constructor
  · intro hp
    obtain ⟨p', hp', rfl⟩ := Option.map_eq_some_iff.mp hp
    obtain ⟨q, r, hq, hr, rfl⟩ := (h p').mp hp'
    exact ⟨q.consCapture capture, r, Option.map_eq_some_iff.mpr ⟨q, hq, rfl⟩,
      (hkeep capture q r).mpr hr, rfl⟩
  · rintro ⟨q', r, hq', hr, rfl⟩
    obtain ⟨q, hq, rfl⟩ := Option.map_eq_some_iff.mp hq'
    exact Option.map_eq_some_iff.mpr
      ⟨q.append r, (h _).mpr ⟨q, r, hq, (hkeep capture q r).mp hr, rfl⟩, rfl⟩

/-- The second elements are placed where the first ones ended. -/
theorem place?_append {first second : Elements} (hfirst : Unmarked first) (hsecond : Unmarked second)
    (hend : EndsInCapture first → second = []) {message : List UInt8} {pos exact : Nat}
    {p : Placement} :
    place? (first ++ second) pos exact (message.drop pos) = some p ↔
      ∃ q r, place? first pos exact (message.drop pos) = some q ∧
        place? second q.stop q.stop (message.drop q.stop) = some r ∧ p = q.append r := by
  generalize hm : message.drop pos = m
  induction first, pos, exact, m using place?.induct generalizing p with
  | case1 exact pos m =>
      subst hm
      rw [List.nil_append, place?_exact hsecond pos exact pos]
      constructor
      · exact fun hp => ⟨.empty pos, p, rfl, hp, rfl⟩
      · rintro ⟨q, r, hq, hr, rfl⟩
        obtain rfl := Option.some.inj hq
        exact hr
  | case2 exact c rest pos m ih =>
      simp only [List.cons_append, place?, Option.bind_eq_bind]
      cases skip? c m with
      | none => simp
      | some n =>
          exact ih n hfirst.tail (fun h => hend (h.cons _)) (by rw [← List.drop_drop, hm])
  | case3 rest pos exact m ih => exact absurd rfl (hfirst _ List.mem_cons_self).1
  | case4 exact field marked c rest pos m ih =>
      obtain rfl := hfirst.not_marked
      rw [List.cons_append, List.cons_append, place?_seek, place?_seek]
      cases find? c m with
      | none => simp
      | some found =>
          refine consCapture_eq_some_iff
            (R := fun q r => place? second q.stop q.stop (message.drop q.stop) = some r)
            (fun _ _ _ => Iff.rfl) (fun p => ?_) _ p
          refine ih found.1 found.2 hfirst.tail.tail (fun h => hend ((h.cons _).cons _)) ?_
          rw [Nat.add_assoc, ← List.drop_drop, hm]
  | case5 exact field marked rest pos m hnext stop =>
      rename_i ih
      obtain rfl := hfirst.not_marked
      -- the constant behind the capture would have to come from the second elements
      have hnext' : ∀ c others, rest ++ second ≠ .constant c :: others := by
        intro c others heq
        rcases List.append_eq_cons_iff.mp heq with ⟨rfl, hsecond'⟩ | ⟨others', rfl, -⟩
        · rw [hend ⟨field, false, rfl⟩] at hsecond'
          cases hsecond'
        · exact hnext c others' rfl
      rw [List.cons_append, place?_rest hnext', place?_rest hnext]
      refine consCapture_eq_some_iff
        (R := fun q r => place? second q.stop q.stop (message.drop q.stop) = some r)
        (fun _ _ _ => Iff.rfl) (fun p => ?_) _ p
      exact ih hfirst.tail (fun h => hend (h.cons _)) (by rw [← List.drop_drop, hm, List.drop_length])

/-! ### Alternatives that are taken -/

/-- The chunks take the alternatives with these numbers and place them from `pos` on. -/
def Takes (message : List UInt8) (number pos : Nat) (chunks : List Chunk) (numbers : List Nat)
    (p : Placement) : Prop :=
  (placeChunks number pos (message.drop pos) chunks).2 = some p ∧
    matchedIn (placeChunks number pos (message.drop pos) chunks).1 = numbers

section

variable {message : List UInt8} {number pos : Nat}

theorem takes_nil {numbers : List Nat} {p : Placement} :
    Takes message number pos [] numbers p ↔ p = .empty pos ∧ numbers = [] := by
  unfold Takes placeChunks
  exact and_congr ⟨fun h => (Option.some.inj h).symm, fun h => congrArg some h.symm⟩
    ⟨fun h => h.symm, fun h => h.symm⟩

theorem le_stop_of_choose? {chunk : Chunk} {m : List UInt8} {i : Nat} {p : Placement}
    (h : chunk.choose? pos m = some (i, p)) : pos ≤ p.stop := by
  obtain ⟨k, elements, -, -, hplace, -⟩ := chooseFrom?_eq_some h
  exact (within_of_place? (Nat.le_refl pos) hplace).1

theorem takes_cons {chunk : Chunk} {chunks : List Chunk} {numbers : List Nat} {p : Placement} :
    Takes message number pos (chunk :: chunks) numbers p ↔
      ∃ i q others r, chunk.choose? pos (message.drop pos) = some (i, q) ∧
        Takes message (number + 1) q.stop chunks others r ∧ numbers = i :: others ∧
          p = q.append r := by
  unfold Takes
  cases hchoose : chunk.choose? pos (message.drop pos) with
  | none => simp [placeChunks, hchoose]
  | some choice =>
      obtain ⟨i, q⟩ := choice
      rw [placeChunks_cons hchoose, drop_drop_stop (le_stop_of_choose? hchoose), matchedIn_append,
        matchedIn_failures]
      constructor
      · rintro ⟨hp, rfl⟩
        obtain ⟨r, hr, rfl⟩ := Option.map_eq_some_iff.mp hp
        exact ⟨i, q, _, r, rfl, ⟨hr, rfl⟩, rfl, rfl⟩
      · rintro ⟨j, q', others, r, hchoice, ⟨hr, rfl⟩, rfl, rfl⟩
        obtain ⟨rfl, rfl⟩ := Prod.mk.inj (Option.some.inj hchoice)
        exact ⟨Option.map_eq_some_iff.mpr ⟨r, hr, rfl⟩, rfl⟩

theorem length_of_takes {chunks : List Chunk} {numbers : List Nat} {p : Placement}
    (h : Takes message number pos chunks numbers p) : numbers.length = chunks.length := by
  induction chunks generalizing number pos numbers p with
  | nil =>
      obtain ⟨-, rfl⟩ := takes_nil.mp h
      rfl
  | cons chunk chunks ih =>
      obtain ⟨i, q, others, r, -, hrest, rfl, -⟩ := takes_cons.mp h
      exact congrArg Nat.succ (ih hrest)

/-- The second chunks start where the first ones ended. -/
theorem takes_append {first second : List Chunk} {numbers : List Nat} {p : Placement} :
    Takes message number pos (first ++ second) numbers p ↔
      ∃ q r left right, Takes message number pos first left q ∧
        Takes message (number + first.length) q.stop second right r ∧ numbers = left ++ right ∧
          p = q.append r := by
  induction first generalizing number pos numbers p with
  | nil =>
      constructor
      · exact fun h => ⟨.empty pos, p, [], numbers, takes_nil.mpr ⟨rfl, rfl⟩, h, rfl, rfl⟩
      · rintro ⟨q, r, left, right, hleft, hright, rfl, rfl⟩
        obtain ⟨rfl, rfl⟩ := takes_nil.mp hleft
        exact hright
  | cons chunk first ih =>
      have hnumber : number + (chunk :: first).length = number + 1 + first.length := by
        rw [List.length_cons]
        omega
      rw [List.cons_append, takes_cons, hnumber]
      constructor
      · rintro ⟨i, q, others, r, hchoose, hrest, rfl, rfl⟩
        obtain ⟨q', r', left, right, hleft, hright, rfl, rfl⟩ := ih.mp hrest
        have hfirst := takes_cons.mpr ⟨i, q, left, q', hchoose, hleft, rfl, rfl⟩
        exact ⟨q.append q', r', i :: left, right, hfirst, hright, rfl,
          (Placement.append_assoc q q' r').symm⟩
      · rintro ⟨s, r', left, right, hleft, hright, rfl, rfl⟩
        obtain ⟨i, q, others, q', hchoose, hrest, rfl, rfl⟩ := takes_cons.mp hleft
        exact ⟨i, q, others ++ right, q'.append r', hchoose,
          ih.mpr ⟨q', r', others, right, hrest, hright, rfl, rfl⟩, rfl, Placement.append_assoc q q' r'⟩

theorem takes_append_of_length {first second : List Chunk} {left right : List Nat} {p : Placement}
    (h : left.length = first.length) :
    Takes message number pos (first ++ second) (left ++ right) p ↔
      ∃ q r, Takes message number pos first left q ∧
        Takes message (number + first.length) q.stop second right r ∧ p = q.append r := by
  rw [takes_append]
  constructor
  · rintro ⟨q, r, left', right', hleft, hright, heq, hp⟩
    obtain ⟨rfl, rfl⟩ := List.append_inj heq (h.trans (length_of_takes hleft).symm)
    exact ⟨q, r, hleft, hright, hp⟩
  · exact fun ⟨q, r, hleft, hright, hp⟩ => ⟨q, r, left, right, hleft, hright, rfl, hp⟩

theorem chooseFrom?_append {before rest : List Elements} {m : List UInt8}
    (h : ∀ elements ∈ before, place? elements pos pos m = none) (number : Nat) :
    chooseFrom? pos m number (before ++ rest) = chooseFrom? pos m (number + before.length) rest := by
  induction before generalizing number with
  | nil => rfl
  | cons elements before ih =>
      obtain ⟨hhead, hbefore⟩ := List.forall_mem_cons.mp h
      rw [List.cons_append, chooseFrom?, hhead]
      dsimp only
      rw [ih hbefore, List.length_cons, Nat.add_assoc, Nat.add_comm 1]

/-- A chunk takes an alternative that no alternative before it can be placed instead of, if this one can be
placed. -/
theorem takes_alternative {before after : List Elements} {elements : Elements} {p : Placement}
    (h : ∀ other ∈ before, place? other pos pos (message.drop pos) = none) :
    Takes message number pos [⟨before ++ elements :: after⟩] [before.length] p ↔
      place? elements pos pos (message.drop pos) = some p := by
  have hchoose : ∀ q, (Chunk.mk (before ++ elements :: after)).choose? pos (message.drop pos) =
      some (before.length, q) ↔ place? elements pos pos (message.drop pos) = some q := by
    intro q
    rw [Chunk.choose?, chooseFrom?_append h, Nat.zero_add, chooseFrom?]
    cases hplace : place? elements pos pos (message.drop pos) with
    | some q' => simp
    | none =>
        refine iff_of_false (fun hlater => ?_) (Option.some_ne_none q).symm
        obtain ⟨k, -, hk, -⟩ := chooseFrom?_eq_some hlater
        omega
  rw [takes_cons]
  constructor
  · rintro ⟨i, q, others, r, hq, hrest, hnumbers, rfl⟩
    obtain ⟨rfl, rfl⟩ := takes_nil.mp hrest
    obtain ⟨rfl, -⟩ := List.cons.inj hnumbers
    rw [Placement.append_empty]
    exact (hchoose q).mp hq
  · intro hp
    exact ⟨before.length, p, [], .empty p.stop, (hchoose p).mpr hp, takes_nil.mpr ⟨rfl, rfl⟩, rfl,
      p.append_empty.symm⟩

/-- The chunk for the elements between two groups takes its only alternative, if there is such a chunk. -/
theorem takes_plainChunk {elements : Elements} {p : Placement} :
    Takes message number pos (plainChunk elements) (if elements.isEmpty then [] else [0]) p ↔
      place? elements pos pos (message.drop pos) = some p := by
  cases elements with
  | nil =>
      refine takes_nil.trans ⟨?_, fun hp => ⟨(Option.some.inj hp).symm, rfl⟩⟩
      rintro ⟨rfl, -⟩
      rfl
  | cons e rest =>
      change Takes message number pos [⟨[] ++ (e :: rest) :: []⟩] [([] : List Elements).length] p ↔ _
      exact takes_alternative fun _ hmem => nomatch hmem

end

end LogRules.Matching

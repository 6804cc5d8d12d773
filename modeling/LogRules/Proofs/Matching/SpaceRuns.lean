import LogRules.Proofs.Matching.Decomposition

/-! # The width of space runs

A matcher runs on a message and on the message with runs of one space side by side. Every step takes the
same from both: what is left of the squeezed message is what is left of the message, squeezed
(`skip?_squeezed`, `find?_squeezed`). So both runs try the same alternatives and find the same texts, up
to the width of the runs inside of them (`run_squeeze`). -/

namespace LogRules.Matching

/-! ### Squeezing and spaces at the ends -/

theorem squeeze_cons_of_ne {d : UInt8} (hd : d ≠ space) (m : List UInt8) :
    squeeze (d :: m) = d :: squeeze m := by
  have hsplit : squeeze ([d] ++ m) = squeeze [d] ++ squeeze m :=
    squeeze_append (.inl fun heq => hd (Option.some.inj heq))
  exact hsplit

theorem squeeze_spaces_append (n : Nat) {m : List UInt8} (h : m.head? ≠ some space) :
    squeeze (spaces (n + 1) ++ m) = space :: squeeze m := by
  rw [squeeze_append (.inr h), squeeze_spaces, show min (n + 1) 1 = 1 by omega]
  rfl

theorem exists_squeeze_cons (d : UInt8) (m : List UInt8) : ∃ s, squeeze (d :: m) = d :: s := by
  have hhead := head?_squeeze (d :: m)
  cases hs : squeeze (d :: m) with
  | nil => exact absurd hs (squeeze_ne_nil (List.cons_ne_nil d m))
  | cons e s =>
      rw [hs] at hhead
      obtain rfl := Option.some.inj hhead
      exact ⟨s, rfl⟩

theorem dropWhile_squeeze (m : List UInt8) :
    (squeeze m).dropWhile (· == space) = squeeze (m.dropWhile (· == space)) := by
  obtain ⟨n, rest, rfl, hrest⟩ := exists_leading m
  have hhead : (squeeze rest).head? ≠ some space := by rwa [head?_squeeze]
  rw [dropWhile_run n hrest]
  cases n with
  | zero => exact dropWhile_of_head?_ne hhead
  | succ n =>
      rw [squeeze_spaces_append n hrest, List.dropWhile_cons_of_pos (by rfl)]
      exact dropWhile_of_head?_ne hhead

theorem leadingSpaces_squeeze_eq_zero_iff (m : List UInt8) :
    leadingSpaces (squeeze m) = 0 ↔ leadingSpaces m = 0 := by
  cases m with
  | nil => rfl
  | cons d m =>
      obtain ⟨s, hs⟩ := exists_squeeze_cons d m
      rw [hs]
      by_cases hd : d = space
      · simp [leadingSpaces, hd]
      · simp [leadingSpaces, hd]

theorem trimSpaces_squeeze (text : List UInt8) : trimSpaces (squeeze text) = squeeze (trimSpaces text) := by
  obtain ⟨a, core, b, rfl, htidy⟩ := exists_core text
  rw [trimSpaces_padded a b htidy]
  by_cases hcore : core = []
  · subst hcore
    have hspaces : spaces a ++ [] ++ spaces b = spaces (a + b) := by simp
    have htrim := trimSpaces_padded (min (a + b) 1) 0 htidy
    rw [hspaces, squeeze_spaces]
    simpa [squeeze] using htrim
  · have hlast : (spaces a ++ core).getLast? ≠ some space := by
      rw [List.getLast?_append_of_ne_nil _ hcore]
      exact htidy.2
    rw [squeeze_append (.inl hlast), squeeze_append (.inr htidy.1), squeeze_spaces, squeeze_spaces]
    exact trimSpaces_padded _ _ htidy.squeeze

/-! ### Steps on both messages -/

/-- What is left of a message behind some bytes. -/
def left? (m : List UInt8) (n? : Option Nat) : Option (List UInt8) := n?.map m.drop

theorem left?_map_add (m : List UInt8) (k : Nat) (n? : Option Nat) :
    left? m (n?.map (· + k)) = left? (m.drop k) n? := by
  cases n? with
  | none => rfl
  | some n =>
      have hdrop : m.drop (n + k) = (m.drop k).drop n := by rw [List.drop_drop, Nat.add_comm]
      exact congrArg some hdrop

/-- A space reads a whole run. -/
theorem left?_reads?_run (c : List UInt8) (r : Nat) {rest : List UInt8} (h : rest.head? ≠ some space) :
    left? (space :: (spaces r ++ rest)) (reads? (space :: c) (space :: (spaces r ++ rest))) =
      left? rest (reads? c rest) := by
  have hdrop : (space :: (spaces r ++ rest)).drop (r + 1) = rest :=
    List.drop_left' (List.length_replicate ..)
  rw [reads?_cons_space, leadingSpaces_run r h, dropWhile_run r h]
  exact (left?_map_add _ (r + 1) _).trans (by rw [hdrop])

/-- Reading a constant leaves the same of both messages. -/
theorem reads?_squeezed (c m : List UInt8) :
    left? (squeeze m) (reads? c (squeeze m)) = (left? m (reads? c m)).map squeeze := by
  induction c generalizing m with
  | nil => rfl
  | cons a c ih =>
      cases m with
      | nil => rfl
      | cons d m =>
          by_cases had : a = d
          · subst had
            by_cases hspace : a = space
            · subst hspace
              obtain ⟨r, rest, rfl, hrest⟩ := exists_leading m
              have hhead : (squeeze rest).head? ≠ some space := by rwa [head?_squeeze]
              have hsqueeze : squeeze (space :: (spaces r ++ rest)) = space :: squeeze rest :=
                squeeze_spaces_append r hrest
              rw [left?_reads?_run c r hrest, hsqueeze]
              exact (left?_reads?_run c 0 hhead).trans (ih rest)
            · rw [squeeze_cons_of_ne hspace, reads?_cons_of_ne hspace, reads?_cons_of_ne hspace,
                left?_map_add, left?_map_add]
              exact ih m
          · obtain ⟨s, hs⟩ := exists_squeeze_cons d m
            rw [hs, reads?, reads?, if_neg had, if_neg had]
            rfl

/-- Skipping a constant leaves the same of both messages. -/
theorem skip?_squeezed {c : List UInt8} (hc : Normal c) (m : List UInt8) :
    left? (squeeze m) (skip? c (squeeze m)) = (left? m (skip? c m)).map squeeze := by
  rcases hc with rfl | ⟨hne, htidy, -⟩
  · by_cases hzero : leadingSpaces m = 0
    · have hzero' := (leadingSpaces_squeeze_eq_zero_iff m).mpr hzero
      simp [skip?, hzero, hzero', left?]
    · have hzero' : leadingSpaces (squeeze m) ≠ 0 :=
        fun heq => hzero ((leadingSpaces_squeeze_eq_zero_iff m).mp heq)
      have hskip := skip?_space_eq_some_iff.mpr ⟨hzero, rfl⟩
      have hskip' := skip?_space_eq_some_iff.mpr ⟨hzero', rfl⟩
      rw [hskip, hskip', left?, left?, Option.map_some, Option.map_some, Option.map_some,
        drop_leadingSpaces, drop_leadingSpaces, dropWhile_squeeze]
  · rw [skip?_eq_reads?_of_tidy hne htidy, skip?_eq_reads?_of_tidy hne htidy, left?_map_add,
      left?_map_add, drop_leadingSpaces, drop_leadingSpaces, dropWhile_squeeze]
    exact reads?_squeezed c _

theorem skip?_squeezed_cases {c : List UInt8} (hc : Normal c) (m : List UInt8) :
    (skip? c m = none ∧ skip? c (squeeze m) = none) ∨
      ∃ n n', skip? c m = some n ∧ skip? c (squeeze m) = some n' ∧
        (squeeze m).drop n' = squeeze (m.drop n) := by
  have hleft := skip?_squeezed hc m
  cases hn : skip? c m <;> cases hn' : skip? c (squeeze m) <;> rw [hn, hn'] at hleft
  · exact .inl ⟨rfl, rfl⟩
  · cases hleft
  · cases hleft
  · next n n' => exact .inr ⟨n, n', rfl, rfl, Option.some.inj hleft⟩

/-- What is left of a message behind some bytes and the spaces after them. -/
def leftBehindSpaces? (m : List UInt8) (n? : Option Nat) : Option (List UInt8) :=
  (left? m n?).map (List.dropWhile (· == space))

/-- An occurrence with the spaces behind it leaves the same of both messages. -/
theorem occurrence?_squeezed {c : List UInt8} (hc : Normal c) (m : List UInt8) :
    leftBehindSpaces? (squeeze m) (occurrence? c (squeeze m)) =
      (leftBehindSpaces? m (occurrence? c m)).map squeeze := by
  rcases hc with rfl | ⟨hne, htidy, -⟩
  · cases m with
    | nil => rfl
    | cons d m =>
        by_cases hd : d = space
        · subst hd
          have hfound : ∀ m, leftBehindSpaces? (space :: m) (occurrence? [space] (space :: m)) =
              some ((space :: m).dropWhile (· == space)) := fun m => rfl
          obtain ⟨s, hs⟩ := exists_squeeze_cons space m
          rw [hs, hfound, hfound, Option.map_some, ← hs, dropWhile_squeeze]
        · have hnone : ∀ m, occurrence? [space] (d :: m) = none :=
            fun m => if_neg fun heq => hd heq.symm
          rw [squeeze_cons_of_ne hd, hnone, hnone]
          rfl
  · unfold leftBehindSpaces?
    rw [occurrence?_eq_reads?_of_tidy hne htidy, occurrence?_eq_reads?_of_tidy hne htidy,
      reads?_squeezed]
    cases left? m (reads? c m) with
    | none => rfl
    | some rest => exact congrArg some (dropWhile_squeeze rest)

/-- What stands in front of a constant that is found, and what is left behind it and its spaces. -/
def around? (m : List UInt8) (found? : Option (Nat × Nat)) : Option (List UInt8 × List UInt8) :=
  found?.map fun (start, length) =>
    (m.take start, (m.drop (start + length)).dropWhile (· == space))

/-- A step of the search that finds nothing puts a byte in front. -/
theorem around?_find?_cons {c m : List UInt8} {d : UInt8} (h : occurrence? c (d :: m) = none) :
    around? (d :: m) (find? c (d :: m)) = (around? m (find? c m)).map (Prod.map (d :: ·) id) := by
  rw [find?, h]
  cases find? c m with
  | none => rfl
  | some found =>
      obtain ⟨start, length⟩ := found
      have hdrop : (d :: m).drop (start + 1 + length) = m.drop (start + length) := by
        rw [Nat.add_right_comm]
        rfl
      refine congrArg some (Prod.ext rfl ?_)
      exact congrArg (List.dropWhile (· == space)) hdrop

theorem around?_find?_here {c m : List UInt8} {d : UInt8} {n : Nat}
    (h : occurrence? c (d :: m) = some n) :
    around? (d :: m) (find? c (d :: m)) =
      (leftBehindSpaces? (d :: m) (occurrence? c (d :: m))).map (Prod.mk []) := by
  rw [find?, h]
  refine congrArg some (Prod.ext rfl ?_)
  show ((d :: m).drop (0 + n)).dropWhile (· == space) = ((d :: m).drop n).dropWhile (· == space)
  rw [Nat.zero_add]

/-- A run of spaces is not longer for one more space in front of it. -/
theorem squeeze_cons_cases (d : UInt8) (m : List UInt8) :
    (d = space ∧ m.head? = some space ∧ squeeze (d :: m) = squeeze m) ∨
      ¬ (d = space ∧ m.head? = some space) ∧ squeeze (d :: m) = d :: squeeze m := by
  cases m with
  | nil => exact .inr ⟨fun h => (nomatch h.2), rfl⟩
  | cons e m =>
      by_cases hde : d = space ∧ e = space
      · exact .inl ⟨hde.1, congrArg some hde.2, if_pos hde⟩
      · exact .inr ⟨fun h => hde ⟨h.1, Option.some.inj h.2⟩, if_neg hde⟩

theorem occurrence?_of_run {c m : List UInt8} (hc : Normal c) (hhead : m.head? = some space)
    (h : occurrence? c (space :: m) = none) : occurrence? c m = none := by
  rcases hc with rfl | ⟨-, htidy, -⟩
  · cases h
  · cases m with
    | nil => cases hhead
    | cons d m =>
        obtain rfl := Option.some.inj hhead
        exact occurrence?_at_space htidy.1 m

/-- In a run with one more space in front of it, a constant that is not found at the start is not found at
the start of the rest either. -/
theorem start_ne_zero_of_run {c m : List UInt8} (hc : Normal c) (hhead : m.head? = some space)
    (h : occurrence? c (space :: m) = none) {start length : Nat}
    (hfind : find? c m = some (start, length)) : start ≠ 0 := by
  rintro rfl
  have hhere := (find?_eq_some_iff.mp hfind).2
  rw [List.drop_zero, occurrence?_of_run hc hhead h] at hhere
  cases hhere

theorem isSome_occurrence?_squeeze {c : List UInt8} (hc : Normal c) (m : List UInt8) :
    (occurrence? c (squeeze m)).isSome = (occurrence? c m).isSome := by
  have hsome := congrArg Option.isSome (occurrence?_squeezed hc m)
  simpa only [leftBehindSpaces?, left?, Option.isSome_map] using hsome

/-- A search finds the same text in front of the constant, and leaves the same behind it. -/
theorem find?_squeezed {c : List UInt8} (hc : Normal c) (m : List UInt8) :
    around? (squeeze m) (find? c (squeeze m)) =
      (around? m (find? c m)).map (Prod.map squeeze squeeze) := by
  induction m with
  | nil => rfl
  | cons d m ih =>
      have hhere := occurrence?_squeezed hc (d :: m)
      have hsome := isSome_occurrence?_squeeze hc (d :: m)
      obtain ⟨s, hs⟩ := exists_squeeze_cons d m
      cases hfound : occurrence? c (d :: m) with
      | some n =>
          rw [hfound, hs] at hsome
          obtain ⟨n', hn'⟩ := Option.isSome_iff_exists.mp hsome
          rw [around?_find?_here hfound, hs, around?_find?_here hn', ← hs, hhere]
          cases leftBehindSpaces? (d :: m) (occurrence? c (d :: m)) <;> rfl
      | none =>
          rw [hfound] at hsome
          have hfound' := Option.isSome_eq_false_iff.mp hsome
          rw [around?_find?_cons hfound]
          rcases squeeze_cons_cases d m with ⟨rfl, hhead, hsqueeze⟩ | ⟨hne, hsqueeze⟩
          · -- The text in front of the constant starts in the run, so that one space more is no change.
            rw [hsqueeze, ih]
            cases hfind : find? c m with
            | none => rfl
            | some found =>
                obtain ⟨start, length⟩ := found
                have htake : (m.take start).head? = some space := by
                  rw [List.head?_take, if_neg (start_ne_zero_of_run hc hhead hfound hfind), hhead]
                rcases squeeze_cons_cases space (m.take start) with ⟨-, -, heq⟩ | ⟨hne, -⟩
                · exact congrArg some (Prod.ext heq.symm rfl)
                · exact absurd ⟨rfl, htake⟩ hne
          · rw [hsqueeze, Option.isNone_iff_eq_none] at hfound'
            rw [hsqueeze, around?_find?_cons hfound', ih]
            cases find? c m with
            | none => rfl
            | some found =>
                obtain ⟨start, length⟩ := found
                rcases squeeze_cons_cases d (m.take start) with ⟨hd, hhead, -⟩ | ⟨-, htake⟩
                · rw [List.head?_take] at hhead
                  split at hhead
                  · cases hhead
                  · exact absurd ⟨hd, hhead⟩ hne
                · exact congrArg some (Prod.ext htake.symm rfl)

theorem find?_squeezed_cases {c : List UInt8} (hc : Normal c) (m : List UInt8) :
    (find? c m = none ∧ find? c (squeeze m) = none) ∨
      ∃ start length start' length', find? c m = some (start, length) ∧
        find? c (squeeze m) = some (start', length') ∧
        (squeeze m).take start' = squeeze (m.take start) ∧
        ((squeeze m).drop (start' + length')).dropWhile (· == space) =
          squeeze ((m.drop (start + length)).dropWhile (· == space)) := by
  have haround := find?_squeezed hc m
  cases hn : find? c m <;> cases hn' : find? c (squeeze m) <;> rw [hn, hn'] at haround
  · exact .inl ⟨rfl, rfl⟩
  · cases haround
  · cases haround
  · next found found' =>
    obtain ⟨htake, hdrop⟩ := Prod.mk.inj (Option.some.inj haround)
    exact .inr ⟨found.1, found.2, found'.1, found'.2, rfl, rfl, htake, hdrop⟩

/-! ### Placements on both messages -/

/-- What follows a place of the message and its spaces is squeezed at the other place. -/
def SameBehind (message : List UInt8) (start start' : Nat) : Prop :=
  ((squeeze message).drop start').dropWhile (· == space) =
    squeeze ((message.drop start).dropWhile (· == space))

/-- Squeezed texts with their fields. -/
def squeezeTexts (texts : List (String × List UInt8)) : List (String × List UInt8) :=
  texts.map (Prod.map id squeeze)

/-- A placement on a message and one on the squeezed message. -/
structure Alike (message : List UInt8) (p p' : Placement) : Prop where
  texts : textsOf p'.captures (squeeze message) = squeezeTexts (textsOf p.captures message)
  payload : Option.Rel (SameBehind message) p.payload? p'.payload?
  stop : (squeeze message).drop p'.stop = squeeze (message.drop p.stop)

/-- The places `pos` and `pos'` are followed by the same bytes, up to the width of runs. -/
def SamePlace (message : List UInt8) (pos pos' : Nat) : Prop :=
  (squeeze message).drop pos' = squeeze (message.drop pos)

variable {message : List UInt8}

theorem SamePlace.sameBehind {pos pos' : Nat} (h : SamePlace message pos pos') :
    SameBehind message pos pos' := by
  unfold SameBehind
  rw [h, dropWhile_squeeze]

theorem Alike.consPayload {p p' : Placement} (h : Alike message p p') {start start' : Nat}
    (hstart : SameBehind message start start') :
    Alike message (p.consPayload start) (p'.consPayload start') where
  texts := h.texts
  payload := by
    have hpayload := h.payload
    unfold Placement.consPayload
    cases hp : p.payload? <;> cases hp' : p'.payload? <;> rw [hp, hp'] at hpayload
    · exact .some hstart
    · cases hpayload
    · cases hpayload
    · exact hpayload
  stop := h.stop

theorem Alike.markPayload {p p' : Placement} (h : Alike message p p') {pos pos' : Nat}
    (hpos : SamePlace message pos pos') (marked : Bool) :
    Alike message (markPayload marked pos p) (markPayload marked pos' p') := by
  cases marked with
  | false => exact h
  | true => exact h.consPayload hpos.sameBehind

theorem Alike.consCapture {p p' : Placement} (h : Alike message p p') (field : String)
    {pos pos' : Nat} {text rest rest' : List UInt8} (htext : message.drop pos = text ++ rest)
    (htext' : (squeeze message).drop pos' = squeeze text ++ rest') :
    Alike message (p.consCapture (.ofText field pos text))
      (p'.consCapture (.ofText field pos' (squeeze text))) where
  texts := by
    have hbytes := Capture.bytes_ofText_eq field htext
    have hbytes' := Capture.bytes_ofText_eq field htext'
    have hcapture : (Capture.ofText field pos' (squeeze text)).bytes (squeeze message) =
        squeeze ((Capture.ofText field pos text).bytes message) := by
      rw [hbytes', hbytes, trimSpaces_squeeze]
    show (field, _) :: textsOf p'.captures (squeeze message) =
      (field, _) :: squeezeTexts (textsOf p.captures message)
    rw [hcapture, h.texts]
  payload := h.payload
  stop := h.stop

theorem rel_map {p? p'? : Option Placement} {f g : Placement → Placement}
    (h : Option.Rel (Alike message) p? p'?)
    (hstep : ∀ p p', Alike message p p' → Alike message (f p) (g p')) :
    Option.Rel (Alike message) (p?.map f) (p'?.map g) := by
  cases h with
  | none => exact .none
  | some h => exact .some (hstep _ _ h)

/-- Behind a constant that is found on both messages, before and after the spaces that follow it. -/
theorem places_behind {pos pos' stop stop' : Nat} {m : List UInt8} (hm : message.drop pos = m)
    (hpos : SamePlace message pos pos')
    (hdrop : ((squeeze m).drop stop').dropWhile (· == space) =
      squeeze ((m.drop stop).dropWhile (· == space))) :
    SameBehind message (pos + stop) (pos' + stop') ∧
      SamePlace message (pos + stop + leadingSpaces (m.drop stop))
        (pos' + stop' + leadingSpaces ((squeeze m).drop stop')) ∧
      message.drop (pos + stop + leadingSpaces (m.drop stop)) =
        m.drop (stop + leadingSpaces (m.drop stop)) ∧
      (squeeze m).drop (stop' + leadingSpaces ((squeeze m).drop stop')) =
        squeeze (m.drop (stop + leadingSpaces (m.drop stop))) := by
  have hsqueezed : (squeeze message).drop pos' = squeeze m := hm ▸ hpos
  have hrest : message.drop (pos + stop + leadingSpaces (m.drop stop)) =
      m.drop (stop + leadingSpaces (m.drop stop)) := by
    rw [Nat.add_assoc, ← List.drop_drop, hm]
  have hrest' : (squeeze m).drop (stop' + leadingSpaces ((squeeze m).drop stop')) =
      squeeze (m.drop (stop + leadingSpaces (m.drop stop))) := by
    rw [← List.drop_drop, ← List.drop_drop, drop_leadingSpaces, drop_leadingSpaces, hdrop]
  refine ⟨?_, ?_, hrest, hrest'⟩
  · unfold SameBehind
    rw [← List.drop_drop, ← List.drop_drop, hsqueezed, hm, hdrop]
  · unfold SamePlace
    rw [hrest, ← hrest', Nat.add_assoc, ← List.drop_drop, hsqueezed]

/-- The elements are placed alike on both messages. -/
theorem place?_squeezed {elements : Elements} (hnormal : NormalConstants elements)
    {pos pos' exact exact' : Nat} {m : List UInt8} (hm : message.drop pos = m)
    (hpos : SamePlace message pos pos') (hexact : SameBehind message exact exact') :
    Option.Rel (Alike message) (place? elements pos exact m)
      (place? elements pos' exact' (squeeze m)) := by
  fun_induction place? elements pos exact m generalizing pos' exact' with
  | case1 pos exact m => exact .some ⟨rfl, .none, hpos⟩
  | case2 exact c rest pos m ih =>
      rw [place?]
      rcases skip?_squeezed_cases (hnormal c List.mem_cons_self) m with
        ⟨hskip, hskip'⟩ | ⟨n, n', hskip, hskip', hdrop⟩
      · rw [hskip, hskip']
        exact .none
      · rw [hskip, hskip', Option.bind_eq_bind, Option.bind_some, Option.bind_some,
          hdrop]
        have hm' : message.drop (pos + n) = m.drop n := by rw [← List.drop_drop, hm]
        have hpos' : SamePlace message (pos + n) (pos' + n') := by
          unfold SamePlace
          rw [← List.drop_drop, hpos, hm', hm, hdrop]
        exact ih n hnormal.tail hm' hpos' hpos'.sameBehind
  | case3 rest pos exact m ih =>
      rw [place?]
      exact rel_map (ih hnormal.tail hm hpos hexact) fun p p' h => h.consPayload hexact
  | case4 exact field marked c rest pos m ih =>
      have hsqueezed : (squeeze message).drop pos' = squeeze m := by rw [← hm]; exact hpos
      rw [place?]
      rcases find?_squeezed_cases (hnormal c (List.mem_cons_of_mem _ List.mem_cons_self)) m with
        ⟨hfind, hfind'⟩ | ⟨start, length, start', length', hfind, hfind', htake, hdrop⟩
      · rw [hfind, hfind']
        exact .none
      · rw [hfind, hfind', Option.bind_eq_bind, Option.bind_some, Option.bind_some]
        dsimp only
        obtain ⟨hbehind, hplace, hrest, hrest'⟩ := places_behind hm hpos hdrop
        have hplaced := ih start length hnormal.tail.tail hrest hplace hbehind
        have htext : message.drop pos = m.take start ++ m.drop start := by
          rw [hm, List.take_append_drop]
        have htext' : (squeeze message).drop pos' =
            squeeze (m.take start) ++ (squeeze m).drop start' := by
          rw [hsqueezed, ← htake, List.take_append_drop]
        rw [hrest', htake]
        simp only [bind_pure_comp, Option.map_eq_map]
        exact rel_map hplaced fun p p' h => (h.consCapture field htext htext').markPayload hpos marked
  | case5 exact field marked rest pos m hnext stop =>
      rename_i ih
      have hsqueezed : (squeeze message).drop pos' = squeeze m := by rw [← hm]; exact hpos
      have hend : message.drop stop = [] := by
        rw [← List.drop_drop, hm, List.drop_length]
      have hend' : (squeeze message).drop (pos' + (squeeze m).length) = [] := by
        rw [← List.drop_drop, hsqueezed, List.drop_length]
      have hstop : SamePlace message stop (pos' + (squeeze m).length) := by
        unfold SamePlace
        rw [hend, hend']
        rfl
      have htext : message.drop pos = m ++ [] := by rw [hm, List.append_nil]
      have htext' : (squeeze message).drop pos' = squeeze m ++ [] := by
        rw [hsqueezed, List.append_nil]
      have hplaced := ih hnormal.tail hend hstop hstop.sameBehind
      rw [place?]
      · simp only [bind_pure_comp, Option.map_eq_map]
        exact rel_map hplaced fun p p' h => (h.consCapture field htext htext').markPayload hpos marked
      · exact hnext

/-! ### Runs on both messages -/

/-- A chunk takes the same alternative. -/
theorem chooseFrom?_squeezed {alternatives : List Elements}
    (hnormal : ∀ elements ∈ alternatives, NormalConstants elements) {pos pos' number : Nat}
    {m : List UInt8} (hm : message.drop pos = m) (hpos : SamePlace message pos pos') :
    Option.Rel (fun choice choice' => choice'.1 = choice.1 ∧ Alike message choice.2 choice'.2)
      (chooseFrom? pos m number alternatives) (chooseFrom? pos' (squeeze m) number alternatives) := by
  induction alternatives generalizing number with
  | nil => exact .none
  | cons elements alternatives ih =>
      have hplaced := place?_squeezed (hnormal elements List.mem_cons_self) hm hpos hpos.sameBehind
      rw [chooseFrom?, chooseFrom?]
      generalize place? elements pos pos m = p? at hplaced
      generalize place? elements pos' pos' (squeeze m) = p'? at hplaced
      cases hplaced with
      | none => exact ih fun other hother => hnormal other (List.mem_cons_of_mem _ hother)
      | some halike => exact .some ⟨rfl, halike⟩

theorem Alike.append {first first' second second' : Placement} (hfirst : Alike message first first')
    (hsecond : Alike message second second') :
    Alike message (first.append second) (first'.append second') where
  texts := by
    have hfirst' := hfirst.texts
    have hsecond' := hsecond.texts
    unfold textsOf squeezeTexts at hfirst' hsecond'
    unfold Placement.append textsOf squeezeTexts
    rw [List.map_append, List.map_append, List.map_append, hfirst', hsecond']
  payload := by
    have hpayload := hfirst.payload
    unfold Placement.append
    cases hp : first.payload? <;> cases hp' : first'.payload? <;> rw [hp, hp'] at hpayload
    · exact hsecond.payload
    · cases hpayload
    · cases hpayload
    · exact hpayload
  stop := hsecond.stop

/-- The chunks try the same alternatives and are placed alike. -/
theorem placeChunks_squeezed {chunks : List Chunk} (hnormal : NormalChunks chunks) (number : Nat)
    {pos pos' : Nat} {m : List UInt8} (hm : message.drop pos = m)
    (hpos : SamePlace message pos pos') :
    (placeChunks number pos' (squeeze m) chunks).1 = (placeChunks number pos m chunks).1 ∧
      Option.Rel (Alike message) (placeChunks number pos m chunks).2
        (placeChunks number pos' (squeeze m) chunks).2 := by
  induction chunks generalizing number pos pos' m with
  | nil => exact ⟨rfl, .some ⟨rfl, .none, hpos⟩⟩
  | cons chunk chunks ih =>
      have hchunk := hnormal chunk List.mem_cons_self
      have hchoice : Option.Rel _ (chunk.choose? pos m) (chunk.choose? pos' (squeeze m)) :=
        chooseFrom?_squeezed hchunk hm hpos
      cases hchoose : chunk.choose? pos m <;> cases hchoose' : chunk.choose? pos' (squeeze m) <;>
        rw [hchoose, hchoose'] at hchoice
      · rw [placeChunks, placeChunks, hchoose, hchoose']
        exact ⟨rfl, .none⟩
      · cases hchoice
      · cases hchoice
      · next choice choice' =>
        obtain ⟨i, q⟩ := choice
        obtain ⟨i', q'⟩ := choice'
        cases hchoice with
        | some hsame =>
            obtain ⟨rfl, halike⟩ := hsame
            have hwithin := (exists_of_choose? hchunk hchoose).1.1
            have hwithin' := (exists_of_choose? hchunk hchoose').1.1
            have hdrop : message.drop q.stop = m.drop (q.stop - pos) := by
              rw [← hm, List.drop_drop, Nat.add_sub_cancel' hwithin]
            have hdrop' : (squeeze m).drop (q'.stop - pos') = squeeze (m.drop (q.stop - pos)) := by
              rw [← hdrop, ← halike.stop, ← hm, ← hpos, List.drop_drop, Nat.add_sub_cancel' hwithin']
            obtain ⟨htried, hrest⟩ := ih
              (fun c hc => hnormal c (List.mem_cons_of_mem _ hc)) (number + 1) hdrop halike.stop
            rw [placeChunks_cons hchoose, placeChunks_cons hchoose', hdrop', htried]
            refine ⟨rfl, ?_⟩
            revert hrest
            generalize (placeChunks (number + 1) q.stop (m.drop (q.stop - pos)) chunks).2 = p?
            generalize (placeChunks (number + 1) q'.stop (squeeze (m.drop (q.stop - pos))) chunks).2 =
              p'?
            rintro (hrest | _)
            · exact .some (halike.append hrest)
            · exact .none

/-- A match on a message and one on the squeezed message: the texts are squeezed, and so is what is left
for the next matcher behind its leading spaces. -/
structure SameMatch (message : List UInt8) (found found' : Match) : Prop where
  texts : textsOf found'.captures (squeeze message) = squeezeTexts (textsOf found.captures message)
  rest : SameBehind message found.rest found'.rest

/-- The width of the space runs in a message makes no difference: the same alternatives are tried and
taken, and there is a match on the squeezed message exactly when there is one on the message. -/
theorem run_squeeze {p : Pattern} {matcher : Matcher} (h : Matcher.ofPattern p = .ok matcher)
    (message : List UInt8) :
    (matcher.attempts (squeeze message)).1 = (matcher.attempts message).1 ∧
      Option.Rel (SameMatch message) (matcher.run message) (matcher.run (squeeze message)) := by
  have hstart : SamePlace message 0 0 := rfl
  obtain ⟨htried, hplaced⟩ := placeChunks_squeezed (normal_of_ofPattern h) 0 List.drop_zero
    hstart
  refine ⟨htried, ?_⟩
  unfold Matcher.run Matcher.attempts
  dsimp only
  generalize (placeChunks 0 0 message matcher.chunks).2 = p? at hplaced
  generalize (placeChunks 0 0 (squeeze message) matcher.chunks).2 = p'? at hplaced
  cases hplaced with
  | none => exact .none
  | @some q q' halike =>
      refine .some ⟨halike.texts, ?_⟩
      dsimp only
      split
      · exact hstart.sameBehind
      · have hpayload := halike.payload
        have hstop : SamePlace message q.stop q'.stop := halike.stop
        cases hq : q.payload? <;> cases hq' : q'.payload? <;> rw [hq, hq'] at hpayload
        · exact hstop.sameBehind
        · cases hpayload
        · cases hpayload
        · cases hpayload with
          | some hsame => exact hsame

/-- `<a>: <b> x` finds the same in `k  :  b   c  x` as in `k : b c x`. -/
theorem run_squeeze_wideRuns :
    Option.Rel (SameMatch [107, 32, 32, 58, 32, 32, 98, 32, 32, 32, 99, 32, 32, 120])
      (some ⟨[⟨"a", 0, 1⟩, ⟨"b", 6, 11⟩], 14⟩) (some ⟨[⟨"a", 0, 1⟩, ⟨"b", 4, 7⟩], 9⟩) := by
  have hmatcher : Matcher.ofPattern [.value (.field "a"), .value (.constant ": "),
      .value (.field "b"), .value (.constant " x")] =
      .ok ⟨[⟨[[.capture "a" false, .constant [58], .capture "b" false, .constant [120]]]⟩], false⟩ :=
    eq_ok_of_toOption (by decide +kernel)
  have hrun := (run_squeeze hmatcher [107, 32, 32, 58, 32, 32, 98, 32, 32, 32, 99, 32, 32, 120]).2
  have hwide : Matcher.run
      ⟨[⟨[[.capture "a" false, .constant [58], .capture "b" false, .constant [120]]]⟩], false⟩
      [107, 32, 32, 58, 32, 32, 98, 32, 32, 32, 99, 32, 32, 120] =
        some ⟨[⟨"a", 0, 1⟩, ⟨"b", 6, 11⟩], 14⟩ := by decide
  have hnarrow : Matcher.run
      ⟨[⟨[[.capture "a" false, .constant [58], .capture "b" false, .constant [120]]]⟩], false⟩
      (squeeze [107, 32, 32, 58, 32, 32, 98, 32, 32, 32, 99, 32, 32, 120]) =
        some ⟨[⟨"a", 0, 1⟩, ⟨"b", 4, 7⟩], 9⟩ := by decide
  rwa [hwide, hnarrow] at hrun

end LogRules.Matching

import LogRules.Matching.Run
import Mathlib.Data.List.Basic

/-! # Constants with spaces around them

A text is `Tidy` when it neither starts nor ends with a space. Every text is a tidy core with runs of
spaces around it (`exists_padded`), its normal form is the squeezed core (`normalize_padded`), and a
squeezed core reads the core in front of any message (`reads?_squeeze`). -/

namespace LogRules.Matching

/-- The text neither starts nor ends with a space. -/
def Tidy (text : List UInt8) : Prop := text.head? ≠ some space ∧ text.getLast? ≠ some space

instance : DecidablePred Tidy :=
  fun text => inferInstanceAs (Decidable (text.head? ≠ some space ∧ text.getLast? ≠ some space))

/-- A run of spaces. -/
abbrev spaces (n : Nat) : List UInt8 := List.replicate n space

/-! ### Runs of spaces at the ends -/

theorem leadingSpaces_of_head?_ne {m : List UInt8} (h : m.head? ≠ some space) :
    leadingSpaces m = 0 := by
  cases m with
  | nil => rfl
  | cons c m =>
      have hc : ¬ c = space := fun heq => h (heq ▸ rfl)
      simp [leadingSpaces, hc]

theorem leadingSpaces_eq_zero_iff {m : List UInt8} : leadingSpaces m = 0 ↔ m.head? ≠ some space := by
  refine ⟨fun hzero hhead => ?_, leadingSpaces_of_head?_ne⟩
  obtain ⟨rest, rfl⟩ := List.head?_eq_some_iff.mp hhead
  simp [leadingSpaces] at hzero

theorem leadingSpaces_spaces_append (n : Nat) (m : List UInt8) :
    leadingSpaces (spaces n ++ m) = n + leadingSpaces m := by
  induction n with
  | zero => simp
  | succ n ih =>
      rw [spaces, List.replicate_succ, List.cons_append]
      simp only [leadingSpaces] at ih ⊢
      rw [List.takeWhile_cons_of_pos (by simp), List.length_cons, ih]
      omega

theorem drop_leadingSpaces (m : List UInt8) :
    m.drop (leadingSpaces m) = m.dropWhile (· == space) := by
  induction m with
  | nil => rfl
  | cons c m ih =>
      by_cases hc : c = space
      · simpa [leadingSpaces, hc] using ih
      · simp [leadingSpaces, hc]

theorem dropWhile_spaces_append (n : Nat) (m : List UInt8) :
    (spaces n ++ m).dropWhile (· == space) = m.dropWhile (· == space) := by
  induction n with
  | zero => simp
  | succ n ih =>
      rw [spaces, List.replicate_succ, List.cons_append, List.dropWhile_cons_of_pos (by simp)]
      exact ih

theorem dropWhile_of_head?_ne {m : List UInt8} (h : m.head? ≠ some space) :
    m.dropWhile (· == space) = m := by
  rw [← drop_leadingSpaces, leadingSpaces_of_head?_ne h, List.drop_zero]

theorem trailingSpaces_append_spaces (n : Nat) (m : List UInt8) :
    trailingSpaces (m ++ spaces n) = n + trailingSpaces m := by
  rw [trailingSpaces, List.reverse_append, List.reverse_replicate, leadingSpaces_spaces_append]
  rfl

theorem trailingSpaces_of_getLast?_ne {m : List UInt8} (h : m.getLast? ≠ some space) :
    trailingSpaces m = 0 :=
  leadingSpaces_of_head?_ne (by rwa [List.head?_reverse])

theorem exists_leading (m : List UInt8) : ∃ n rest, m = spaces n ++ rest ∧ rest.head? ≠ some space := by
  induction m with
  | nil => exact ⟨0, [], rfl, nofun⟩
  | cons c m ih =>
      by_cases hc : c = space
      · obtain ⟨n, rest, rfl, hrest⟩ := ih
        exact ⟨n + 1, rest, by rw [hc]; rfl, hrest⟩
      · exact ⟨0, c :: m, rfl, fun h => hc (Option.some.inj h)⟩

/-- A run of spaces in front of something else. -/
theorem leadingSpaces_run (n : Nat) {rest : List UInt8} (h : rest.head? ≠ some space) :
    leadingSpaces (spaces n ++ rest) = n := by
  rw [leadingSpaces_spaces_append, leadingSpaces_of_head?_ne h, Nat.add_zero]

theorem dropWhile_run (n : Nat) {rest : List UInt8} (h : rest.head? ≠ some space) :
    (spaces n ++ rest).dropWhile (· == space) = rest := by
  rw [dropWhile_spaces_append, dropWhile_of_head?_ne h]

/-- A text that is not blank is a core with spaces around it. -/
theorem exists_padded {m : List UInt8} (h : ∃ c ∈ m, c ≠ space) :
    ∃ a core b, m = spaces a ++ core ++ spaces b ∧ core ≠ [] ∧ Tidy core := by
  obtain ⟨a, rest, rfl, hrest⟩ := exists_leading m
  obtain ⟨b, erc, hrev, herc⟩ := exists_leading rest.reverse
  have hcore : rest = erc.reverse ++ spaces b := by
    rw [← List.reverse_reverse rest, hrev, List.reverse_append, List.reverse_replicate]
  have hne : erc ≠ [] := by
    rintro rfl
    obtain ⟨c, hc, hspace⟩ := h
    rw [hcore, List.reverse_nil, List.nil_append, List.replicate_append_replicate] at hc
    exact hspace (List.eq_of_mem_replicate hc)
  have hne' : erc.reverse ≠ [] := fun heq => hne (List.reverse_eq_nil_iff.mp heq)
  refine ⟨a, erc.reverse, b, ?_, hne', ?_, ?_⟩
  · rw [hcore, List.append_assoc]
  · rw [hcore, List.head?_append_of_ne_nil _ hne'] at hrest
    exact hrest
  · rw [List.getLast?_reverse]
    exact herc

/-! ### Normal forms -/

theorem head?_squeeze (m : List UInt8) : (squeeze m).head? = m.head? := by
  fun_induction squeeze m with
  | case1 => rfl
  | case2 c => rfl
  | case3 c d rest h ih => rw [ih, List.head?_cons, List.head?_cons, h.1, h.2]
  | case4 c d rest h ih => rfl

theorem getLast?_squeeze (m : List UInt8) : (squeeze m).getLast? = m.getLast? := by
  fun_induction squeeze m with
  | case1 => rfl
  | case2 c => rfl
  | case3 c d rest h ih => rw [ih, List.getLast?_cons_cons]
  | case4 c d rest h ih =>
      rw [List.getLast?_cons, ih, List.getLast?_cons_cons]
      cases hl : (d :: rest).getLast? with
      | none => simp at hl
      | some l => rfl

theorem squeeze_ne_nil {m : List UInt8} (h : m ≠ []) : squeeze m ≠ [] := by
  intro heq
  have hhead := head?_squeeze m
  rw [heq, List.head?_nil] at hhead
  exact h (List.head?_eq_none_iff.mp hhead.symm)

theorem Tidy.squeeze {m : List UInt8} (h : Tidy m) : Tidy (squeeze m) :=
  ⟨head?_squeeze m ▸ h.1, getLast?_squeeze m ▸ h.2⟩

/-- Runs of spaces do not reach across a byte that is no space. -/
theorem squeeze_append {x y : List UInt8} (h : x.getLast? ≠ some space ∨ y.head? ≠ some space) :
    squeeze (x ++ y) = squeeze x ++ squeeze y := by
  fun_induction squeeze x with
  | case1 => rfl
  | case2 c =>
      cases y with
      | nil => rfl
      | cons d y =>
          have hcd : ¬ (c = space ∧ d = space) := by
            rintro ⟨rfl, rfl⟩
            rcases h with h | h <;> exact h rfl
          rw [List.singleton_append, Matching.squeeze, if_neg hcd, List.singleton_append]
  | case3 c d rest hcd ih =>
      rw [List.getLast?_cons_cons] at h
      rw [← ih h, List.cons_append, List.cons_append, Matching.squeeze, if_pos hcd]
  | case4 c d rest hcd ih =>
      rw [List.getLast?_cons_cons] at h
      show _ = c :: (Matching.squeeze (d :: rest) ++ Matching.squeeze y)
      rw [← ih h, List.cons_append, List.cons_append, Matching.squeeze, if_neg hcd]

theorem squeeze_spaces (n : Nat) : squeeze (spaces n) = spaces (min n 1) := by
  induction n with
  | zero => rfl
  | succ n ih =>
      cases n with
      | zero => rfl
      | succ n =>
          rw [show min (n + 1 + 1) 1 = min (n + 1) 1 by omega, ← ih]
          exact if_pos ⟨rfl, rfl⟩

theorem trimSpaces_padded (a : Nat) {core : List UInt8} (b : Nat) (h : Tidy core) :
    trimSpaces (spaces a ++ core ++ spaces b) = core := by
  unfold trimSpaces
  by_cases hcore : core = []
  · subst hcore
    rw [List.append_nil, dropWhile_spaces_append, ← List.append_nil (spaces b),
      dropWhile_spaces_append]
    rfl
  · have hhead : (core ++ spaces b).head? ≠ some space := by
      rw [List.head?_append_of_ne_nil _ hcore]
      exact h.1
    rw [List.append_assoc, dropWhile_run a hhead]
    dsimp only
    rw [trailingSpaces_append_spaces, trailingSpaces_of_getLast?_ne h.2, Nat.add_zero,
      List.length_append, List.length_replicate, Nat.add_sub_cancel, List.take_left]

/-- The normal form of a text that is not blank is its core with runs of one space. -/
theorem normalize_padded (a : Nat) {core : List UInt8} (b : Nat) (hcore : core ≠ [])
    (h : Tidy core) : normalize (spaces a ++ core ++ spaces b) = squeeze core := by
  have hall : ¬ (spaces a ++ core ++ spaces b).all (· == space) := by
    intro hall
    obtain ⟨c, rest, rfl⟩ := List.exists_cons_of_ne_nil hcore
    have hc := List.all_eq_true.mp hall c (by simp)
    exact h.1 (congrArg some (eq_of_beq hc))
  have hlast : (spaces a ++ core).getLast? ≠ some space ∨ (spaces b).head? ≠ some space := by
    left
    rw [List.getLast?_append_of_ne_nil _ hcore]
    exact h.2
  rw [normalize, if_neg hall, squeeze_append hlast, squeeze_append (.inr h.1), squeeze_spaces,
    squeeze_spaces]
  exact trimSpaces_padded _ _ h.squeeze

/-- The normal form of spaces is one space. -/
theorem normalize_spaces (n : Nat) : normalize (spaces (n + 1)) = [space] := by
  have hall : (spaces (n + 1)).all (· == space) := by simp
  rw [normalize, if_pos hall]
  rfl

/-! ### Reading -/

theorem reads?_cons_space (constant m : List UInt8) :
    reads? (space :: constant) (space :: m) =
      (reads? constant (m.dropWhile (· == space))).map (· + leadingSpaces m + 1) := by
  rw [reads?, if_pos rfl, if_pos rfl, ← drop_leadingSpaces]

theorem reads?_cons_of_ne {c : UInt8} (hc : c ≠ space) (constant m : List UInt8) :
    reads? (c :: constant) (c :: m) = (reads? constant m).map (· + 1) := by
  rw [reads?, if_pos rfl, if_neg hc]
  rfl

/-- A squeezed core reads the core. -/
theorem reads?_squeeze {core : List UInt8} (h : core.getLast? ≠ some space) (rest : List UInt8) :
    reads? (squeeze core) (core ++ rest) = some core.length := by
  fun_induction squeeze core with
  | case1 => rfl
  | case2 c =>
      have hc : c ≠ space := fun heq => h (heq ▸ rfl)
      rw [List.singleton_append, reads?_cons_of_ne hc]
      rfl
  | case3 c d tail hcd ih =>
      -- One more space in the message is taken with those after it.
      obtain ⟨rfl, rfl⟩ := hcd
      rw [List.getLast?_cons_cons] at h
      have hread := ih h
      obtain ⟨s, hs⟩ : ∃ s, squeeze (space :: tail) = space :: s := by
        have hhead := head?_squeeze (space :: tail)
        cases hsq : squeeze (space :: tail) with
        | nil => exact absurd hsq (squeeze_ne_nil (List.cons_ne_nil _ _))
        | cons e s =>
            rw [hsq] at hhead
            cases hhead
            exact ⟨s, rfl⟩
      rw [hs, List.cons_append, reads?_cons_space, Option.map_eq_some_iff] at hread
      obtain ⟨k, hk, hlen⟩ := hread
      have hmore : leadingSpaces (space :: (tail ++ rest)) = 1 + leadingSpaces (tail ++ rest) :=
        leadingSpaces_spaces_append 1 (tail ++ rest)
      have hdrop : (space :: (tail ++ rest)).dropWhile (· == space) =
          (tail ++ rest).dropWhile (· == space) := dropWhile_spaces_append 1 (tail ++ rest)
      rw [hs, List.cons_append, List.cons_append, reads?_cons_space, hdrop, hk, hmore,
        Option.map_some]
      rw [List.length_cons] at hlen
      rw [List.length_cons, List.length_cons, ← hlen]
      exact congrArg some (by omega)
  | case4 c d tail hcd ih =>
      rw [List.getLast?_cons_cons] at h
      have hread := ih h
      by_cases hc : c = space
      · have hd : (d :: tail ++ rest).head? ≠ some space := by
          intro hd
          exact hcd ⟨hc, Option.some.inj hd⟩
        rw [hc, List.cons_append, reads?_cons_space, dropWhile_of_head?_ne hd,
          leadingSpaces_of_head?_ne hd, hread]
        rfl
      · rw [List.cons_append, reads?_cons_of_ne hc, hread]
        rfl

/-! ### Occurrences -/

theorem occurrence?_nil (constant : List UInt8) : occurrence? constant [] = none := by
  cases constant <;> rfl

theorem occurrence?_eq_reads? {c : UInt8} (hc : c ≠ space) (constant m : List UInt8) :
    occurrence? (c :: constant) (c :: m) = reads? (c :: constant) (c :: m) := by
  rw [occurrence?, if_pos rfl, reads?_cons_of_ne hc]

/-- A constant that starts with another byte does not occur at a space. -/
theorem occurrence?_at_space {constant : List UInt8} (h : constant.head? ≠ some space)
    (m : List UInt8) : occurrence? constant (space :: m) = none := by
  cases constant with
  | nil => rfl
  | cons c constant => exact if_neg fun heq => h (congrArg some heq)

theorem occurrence?_squeeze {core : List UInt8} (hcore : core ≠ []) (h : Tidy core)
    (rest : List UInt8) : occurrence? (squeeze core) (core ++ rest) = some core.length := by
  have hread := reads?_squeeze h.2 rest
  have hhead := head?_squeeze core
  cases core with
  | nil => exact absurd rfl hcore
  | cons c core =>
      have hc : c ≠ space := fun heq => h.1 (congrArg some heq)
      cases hs : squeeze (c :: core) with
      | nil => exact absurd hs (squeeze_ne_nil hcore)
      | cons d s =>
          rw [hs, List.head?_cons, List.head?_cons, Option.some.injEq] at hhead
          subst hhead
          rw [hs] at hread
          rw [List.cons_append, occurrence?_eq_reads? hc]
          exact hread

/-- The search finds the first occurrence. -/
theorem find?_eq_some {constant m : List UInt8} {start length : Nat}
    (hfirst : ∀ k < start, occurrence? constant (m.drop k) = none)
    (hfound : occurrence? constant (m.drop start) = some length) :
    find? constant m = some (start, length) := by
  induction m generalizing start with
  | nil =>
      rw [List.drop_nil, occurrence?_nil] at hfound
      cases hfound
  | cons c m ih =>
      rw [find?]
      cases start with
      | zero =>
          rw [List.drop_zero] at hfound
          rw [hfound]
      | succ start =>
          have hhere := hfirst 0 (Nat.succ_pos _)
          rw [List.drop_zero] at hhere
          rw [hhere, ih (fun k hk => hfirst (k + 1) (Nat.succ_lt_succ hk)) hfound]
          rfl

/-- Spaces around a filler do not hide a constant and do not look like one. -/
theorem find?_squeeze (i j : Nat) {filler core : List UInt8} (hcore : core ≠ []) (h : Tidy core)
    (tail : List UInt8)
    (hfirst : ∀ k < filler.length,
      occurrence? (squeeze core) ((filler ++ (spaces j ++ (core ++ tail))).drop k) = none) :
    find? (squeeze core) ((spaces i ++ filler ++ spaces j) ++ (core ++ tail)) =
      some ((spaces i ++ filler ++ spaces j).length, core.length) := by
  have hat : ∀ n k, k < n → ∀ m, occurrence? (squeeze core) ((spaces n ++ m).drop k) = none := by
    intro n k hk m
    rw [List.drop_append_of_le_length (by simpa using Nat.le_of_lt hk), List.drop_replicate,
      show n - k = n - k - 1 + 1 by omega]
    exact occurrence?_at_space h.squeeze.1 _
  refine find?_eq_some ?_ ?_
  · intro k hk
    rw [List.length_append, List.length_append, List.length_replicate, List.length_replicate] at hk
    rw [List.append_assoc, List.append_assoc]
    rcases Nat.lt_or_ge k i with hki | hki
    · exact hat i k hki _
    · rw [List.drop_append, List.drop_eq_nil_of_le (by simpa using hki), List.nil_append,
        List.length_replicate]
      rcases Nat.lt_or_ge (k - i) filler.length with hkf | hkf
      · exact hfirst _ hkf
      · rw [List.drop_append, List.drop_eq_nil_of_le hkf, List.nil_append]
        exact hat j _ (by omega) _
  · rw [List.drop_left]
    exact occurrence?_squeeze hcore h tail

/-- A space is found behind a filler without spaces. -/
theorem find?_space {filler : List UInt8} (h : space ∉ filler) (m : List UInt8) :
    find? [space] (filler ++ space :: m) = some (filler.length, 1) := by
  refine find?_eq_some ?_ ?_
  · intro k hk
    rw [List.drop_append_of_le_length (Nat.le_of_lt hk), List.drop_eq_getElem_cons hk, List.cons_append]
    refine if_neg fun heq => ?_
    have hmem := List.getElem_mem hk
    rw [← heq] at hmem
    exact h hmem
  · rw [List.drop_left]
    rfl

/-- A constant in front of a message is taken with the spaces before it. -/
theorem skip?_squeeze (a : Nat) {core : List UInt8} (hcore : core ≠ []) (h : Tidy core)
    (rest : List UInt8) :
    skip? (squeeze core) (spaces a ++ core ++ rest) = some (a + core.length) := by
  have hhead : (core ++ rest).head? ≠ some space := by
    rw [List.head?_append_of_ne_nil _ hcore]
    exact h.1
  have hlead : leadingSpaces (spaces a ++ core ++ rest) = a := by
    rw [List.append_assoc, leadingSpaces_run a hhead]
  have hdrop : (spaces a ++ core ++ rest).drop a = core ++ rest := by
    rw [List.append_assoc, List.drop_left' (List.length_replicate ..)]
  cases hs : squeeze core with
  | nil => exact absurd hs (squeeze_ne_nil hcore)
  | cons c s =>
      have hc : c ≠ space := by
        rintro rfl
        have hhead' := head?_squeeze core
        rw [hs] at hhead'
        exact h.1 hhead'.symm
      simp only [skip?, hlead, hdrop, if_neg hc]
      rw [← hs, reads?_squeeze h.2, Option.map_some, Nat.add_comm]

/-- A space takes all spaces in front of a message. -/
theorem skip?_space (n : Nat) (m : List UInt8) :
    skip? [space] (spaces (n + 1) ++ m) = some (leadingSpaces (spaces (n + 1) ++ m)) := by
  have hne : leadingSpaces (spaces (n + 1) ++ m) ≠ 0 := by
    rw [leadingSpaces_spaces_append]
    omega
  simp [skip?, hne, reads?]

end LogRules.Matching

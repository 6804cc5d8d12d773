/-! # Constants and runs of spaces

A constant of a pattern is compared with a message up to the width of runs of spaces: `normalize`
drops the spaces at its ends and shortens the runs inside to one space, and a space inside takes a
whole run of the message. `skip` takes a constant from the front of a message, and `find` looks for
its leftmost occurrence. -/

namespace LogRules.Matching

/-- The byte of a space. -/
def space : UInt8 := 0x20

/-- The number of spaces in front. -/
def leadingSpaces (m : List UInt8) : Nat := (m.takeWhile (· == space)).length

/-- The number of spaces behind. -/
def trailingSpaces (m : List UInt8) : Nat := leadingSpaces m.reverse

/-- Removes the spaces at both ends. -/
def trimSpaces (m : List UInt8) : List UInt8 :=
  let behind := m.dropWhile (· == space)
  behind.take (behind.length - trailingSpaces behind)

/-- Replaces every run of spaces by one space. -/
def squeeze : List UInt8 → List UInt8
  | [] => []
  | [c] => [c]
  | c :: d :: rest =>
    if c = space ∧ d = space then squeeze (d :: rest) else c :: squeeze (d :: rest)

/-- The normal form of a constant. Nothing but spaces becomes one space. -/
def normalize (text : List UInt8) : List UInt8 :=
  if text.all (· == space) then text.take 1 else trimSpaces (squeeze text)

/-- The number of bytes that `constant` takes from the front of a message. A space takes a whole
run of spaces. -/
def reads? : List UInt8 → List UInt8 → Option Nat
  | [], _ => some 0
  | _ :: _, [] => none
  | c :: constant, d :: m =>
    if c = d then
      let run := if c = space then leadingSpaces m else 0
      (reads? constant (m.drop run)).map (· + run + 1)
    else none

/-- The number of bytes up to the end of a constant in front of a message. Spaces may come first,
and have to when the constant starts with one. -/
def skip? (constant m : List UInt8) : Option Nat :=
  let spaces := leadingSpaces m
  let found? := match constant with
    | [] => none
    | c :: rest =>
      if c = space then if spaces = 0 then none else reads? rest (m.drop spaces)
      else reads? constant (m.drop spaces)
  found?.map (· + spaces)

/-- The length of an occurrence of a constant in front of a message. The first byte of the constant
takes one byte, a space too. -/
def occurrence? : List UInt8 → List UInt8 → Option Nat
  | c :: rest, d :: m => if c = d then (reads? rest m).map (· + 1) else none
  | _, _ => none

/-- Where the leftmost occurrence of a constant starts, and its length. -/
def find? (constant : List UInt8) : List UInt8 → Option (Nat × Nat)
  | [] => none
  | c :: m =>
    match occurrence? constant (c :: m) with
    | some length => some (0, length)
    | none => (find? constant m).map fun (start, length) => (start + 1, length)

/-! ### Bounds -/

theorem leadingSpaces_le (m : List UInt8) : leadingSpaces m ≤ m.length :=
  List.Sublist.length_le (List.takeWhile_sublist _)

theorem reads?_le {constant m : List UInt8} {n : Nat} (h : reads? constant m = some n) :
    n ≤ m.length := by
  induction constant generalizing m n with
  | nil => simp [reads?] at h; omega
  | cons c constant ih =>
    cases m with
    | nil => simp [reads?] at h
    | cons d m =>
      simp only [reads?] at h
      split at h
      · obtain ⟨k, hk, rfl⟩ := Option.map_eq_some_iff.1 h
        have hle := ih hk
        have hrun : (if c = space then leadingSpaces m else 0) ≤ m.length := by
          split
          · exact leadingSpaces_le m
          · exact Nat.zero_le _
        rw [List.length_drop] at hle
        rw [List.length_cons]
        omega
      · simp at h

theorem skip?_le {constant m : List UInt8} {n : Nat} (h : skip? constant m = some n) :
    n ≤ m.length := by
  have hs := leadingSpaces_le m
  simp only [skip?] at h
  obtain ⟨k, hk, rfl⟩ := Option.map_eq_some_iff.1 h
  have hle : k ≤ (m.drop (leadingSpaces m)).length := by
    split at hk
    · simp at hk
    · split at hk
      · split at hk
        · simp at hk
        · exact reads?_le hk
      · exact reads?_le hk
  rw [List.length_drop] at hle
  omega

theorem occurrence?_le {constant m : List UInt8} {n : Nat} (h : occurrence? constant m = some n) :
    n ≤ m.length := by
  match constant, m, h with
  | c :: rest, d :: m, h =>
    simp only [occurrence?] at h
    split at h
    · obtain ⟨k, hk, rfl⟩ := Option.map_eq_some_iff.1 h
      have := reads?_le hk
      simp only [List.length_cons]
      omega
    · simp at h

/-- An occurrence lies within the message. -/
theorem find?_le {constant m : List UInt8} {start length : Nat}
    (h : find? constant m = some (start, length)) : start + length ≤ m.length := by
  induction m generalizing start with
  | nil => simp [find?] at h
  | cons c m ih =>
    simp only [find?] at h
    split at h
    · next n hn =>
      obtain ⟨rfl, rfl⟩ := Prod.mk.inj (Option.some.inj h)
      have := occurrence?_le hn
      omega
    · obtain ⟨⟨s, l⟩, hs, he⟩ := Option.map_eq_some_iff.1 h
      obtain ⟨rfl, rfl⟩ := Prod.mk.inj he
      have := ih hs
      simp only [List.length_cons]
      omega

end LogRules.Matching

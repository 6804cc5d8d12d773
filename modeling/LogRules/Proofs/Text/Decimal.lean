import LogRules.Text.Blank
import LogRules.Text.Decimal
import Mathlib.Data.Nat.Digits.Defs

/-! # Decimal numbers

What the readers of numbers accept. The value of a run of digits is the number whose digits in base ten they
are, the highest digit first (`digitsValue_eq_ofDigits`). -/

namespace LogRules.Text

theorem foldl_digits_eq_ofDigits (n : Nat) (cs : List Char) :
    cs.foldl (fun n c => n * 10 + digitValue c) n =
      Nat.ofDigits 10 (cs.reverse.map digitValue) + 10 ^ cs.length * n := by
  induction cs generalizing n with
  | nil => simp
  | cons c rest ih =>
      rw [List.foldl_cons, ih, List.reverse_cons, List.map_append, Nat.ofDigits_append, List.length_map,
        List.length_reverse, List.map_singleton, Nat.ofDigits_singleton, List.length_cons, pow_succ]
      ring

/-- Digits write the number that they are the digits of. -/
theorem digitsValue_eq_ofDigits (cs : List Char) :
    digitsValue cs = Nat.ofDigits 10 (cs.reverse.map digitValue) := by
  rw [digitsValue, foldl_digits_eq_ofDigits, Nat.mul_zero, Nat.add_zero]

theorem natural?_eq_some_iff {cs : List Char} {n : Nat} :
    natural? cs = some n ↔ cs ≠ [] ∧ (∀ c ∈ cs, c.isDigit = true) ∧ digitsValue cs = n := by
  simp [natural?, and_assoc]

/-! ### Numbers in decimal digits -/

section Numerals

variable (n : Nat)

theorem isDigit_of_mem_toString : ∀ c ∈ (toString n).toList, c.isDigit = true := by
  intro c hc
  rw [Nat.toString_eq_repr, Nat.toList_repr] at hc
  exact Nat.isDigit_of_mem_toDigits (by decide) (by decide) hc

theorem toList_toString_ne_nil : (toString n).toList ≠ [] := by
  rw [Nat.toString_eq_repr, Nat.toList_repr]
  exact Nat.toDigits_ne_nil

theorem digitsValue_toString : digitsValue (toString n).toList = n := by
  have hfold : ∀ cs, digitsValue cs = Nat.ofDigitChars 10 cs 0 := by
    intro cs
    simp only [digitsValue, Nat.ofDigitChars, digitValue, Nat.mul_comm]
  rw [hfold, Nat.toString_eq_repr, Nat.toList_repr, Nat.ofDigitChars_ten_toDigits]

end Numerals

/-- Digits are no white space. -/
theorem isBlank_of_isDigit {c : Char} (h : c.isDigit = true) : isBlank c = false := by
  have hrange := Char.isDigit_iff_toNat.mp h
  simp only [show '0'.toNat = 48 from rfl, show '9'.toNat = 57 from rfl] at hrange
  simp [isBlank]
  omega

/-- A text without white space is not trimmed. -/
theorem trim_eq_self {cs : List Char} (h : ∀ c ∈ cs, isBlank c = false) : trim cs = cs := by
  have hdrop : ∀ {cs : List Char}, (∀ c ∈ cs, isBlank c = false) → cs.dropWhile isBlank = cs := by
    intro cs hcs
    cases cs with
    | nil => rfl
    | cons c rest => rw [List.dropWhile_cons_of_neg (by simp [hcs c List.mem_cons_self])]
  rw [trim, trimStart, hdrop h, trimEnd, hdrop (by simpa using h), List.reverse_reverse]

/-- The text writes a natural number with digits; one plus sign may stand in front. -/
def WritesNatural (cs : List Char) (n : Nat) : Prop :=
  ∃ digits, digits ≠ [] ∧ (∀ c ∈ digits, c.isDigit = true) ∧ (cs = digits ∨ cs = '+' :: digits) ∧
    Nat.ofDigits 10 (digits.reverse.map digitValue) = n

theorem writesNatural_toString (n : Nat) : WritesNatural (toString n).toList n :=
  ⟨_, toList_toString_ne_nil n, isDigit_of_mem_toString n, .inl rfl,
    (digitsValue_eq_ofDigits _).symm.trans (digitsValue_toString n)⟩

theorem bounded?_eq_some_iff {max n : Nat} {cs : List Char} :
    bounded? max cs = some n ↔ WritesNatural cs n ∧ n ≤ max := by
  have hread : ∀ digits, (natural? digits).filter (· ≤ max) = some n ↔
      (digits ≠ [] ∧ (∀ c ∈ digits, c.isDigit = true) ∧ digitsValue digits = n) ∧ n ≤ max := by
    intro digits
    rw [Option.filter_eq_some_iff, natural?_eq_some_iff, decide_eq_true_iff]
  unfold bounded?
  rw [hread]
  constructor
  · rintro ⟨⟨hne, hdigits, hvalue⟩, hle⟩
    refine ⟨⟨_, hne, hdigits, ?_, by rw [← hvalue, digitsValue_eq_ofDigits]⟩, hle⟩
    split
    · exact .inr rfl
    · exact .inl rfl
  · rintro ⟨⟨digits, hne, hdigits, hcs, hvalue⟩, hle⟩
    rw [← digitsValue_eq_ofDigits] at hvalue
    rcases hcs with rfl | rfl
    · -- a plus sign is no digit
      split
      · next rest => exact absurd (hdigits '+' List.mem_cons_self) (by decide)
      · exact ⟨⟨hne, hdigits, hvalue⟩, hle⟩
    · exact ⟨⟨hne, hdigits, hvalue⟩, hle⟩

end LogRules.Text

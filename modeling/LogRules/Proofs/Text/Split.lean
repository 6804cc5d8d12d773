import LogRules.Text.Split
import Mathlib.Data.List.TakeWhile
import Mathlib.Tactic.Conv

/-! # Pieces of a text

What the splits of a text at a character give: the front without the character and what stands behind the
character, or all pieces without it, which give the text back. -/

namespace LogRules.Text

variable {separator : Char} {cs key rest : List Char}

theorem splitFirst?_append (hkey : separator ∉ key) :
    splitFirst? separator (key ++ separator :: rest) = some (key, rest) := by
  have hall : ∀ c ∈ key, (c != separator) = true := by
    intro c hc
    simp only [bne_iff_ne]
    rintro rfl
    exact hkey hc
  simp [splitFirst?, List.dropWhile_append_of_pos hall, List.takeWhile_append_of_pos hall]

/-- A text is split at the first occurrence of the character. -/
theorem splitFirst?_eq_some_iff :
    splitFirst? separator cs = some (key, rest) ↔ separator ∉ key ∧ cs = key ++ separator :: rest := by
  constructor
  · intro h
    unfold splitFirst? at h
    split at h
    · cases h
    · next c rest' hdrop =>
        cases h
        have hc : c = separator := by
          have := List.head?_dropWhile_not (· != separator) cs
          simpa [hdrop] using this
        refine ⟨fun hmem => ?_, ?_⟩
        · simpa using List.mem_takeWhile_imp hmem
        · conv_lhs => rw [← List.takeWhile_append_dropWhile (p := (· != separator)) (l := cs), hdrop, hc]
  · rintro ⟨hkey, rfl⟩
    exact splitFirst?_append hkey

theorem splitAll_of_not_mem (h : separator ∉ cs) : splitAll separator cs = [cs] := by
  induction cs with
  | nil => rfl
  | cons c cs ih =>
      rw [List.mem_cons, not_or] at h
      rw [splitAll, if_neg (Ne.symm h.1), ih h.2]

theorem splitAll_append_cons (h : separator ∉ cs) (rest : List Char) :
    splitAll separator (cs ++ separator :: rest) = cs :: splitAll separator rest := by
  induction cs with
  | nil => rw [List.nil_append, splitAll, if_pos rfl]
  | cons c cs ih =>
      rw [List.mem_cons, not_or] at h
      rw [List.cons_append, splitAll, if_neg (Ne.symm h.1), ih h.2]

theorem splitAll_ne_nil (separator : Char) (cs : List Char) : splitAll separator cs ≠ [] := by
  fun_cases splitAll separator cs <;> simp

/-- The pieces of a text do not hold the character. -/
theorem not_mem_of_mem_splitAll {piece : List Char} (h : piece ∈ splitAll separator cs) :
    separator ∉ piece := by
  induction cs generalizing piece with
  | nil => simp_all [splitAll]
  | cons c rest ih =>
      unfold splitAll at h
      split at h
      · rcases List.mem_cons.mp h with rfl | h
        · simp
        · exact ih h
      · next hc =>
          split at h
          · simp_all [Ne.symm hc]
          · next first more hsplit =>
              rw [hsplit] at ih
              rcases List.mem_cons.mp h with rfl | h
              · have := ih List.mem_cons_self
                simp [Ne.symm hc, this]
              · exact ih (List.mem_cons_of_mem _ h)

/-- The pieces of a text with the character between them are the text. -/
theorem intercalate_splitAll (separator : Char) (cs : List Char) :
    [separator].intercalate (splitAll separator cs) = cs := by
  induction cs with
  | nil => rfl
  | cons c rest ih =>
      unfold splitAll
      split
      · next hc =>
          rw [hc, List.intercalate_cons_of_ne_nil (splitAll_ne_nil separator rest), ih]
          rfl
      · split
        · next hsplit => exact absurd hsplit (splitAll_ne_nil separator rest)
        · next first more hsplit =>
            rw [hsplit] at ih
            rw [← ih]
            cases more <;> simp [List.intercalate]

end LogRules.Text

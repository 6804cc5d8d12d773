import LogRules.Call.Action
import LogRules.Proofs.Pattern.Lexemes

/-! # Function lists and their text

A call is written as a group `<@target:*NAME(argument, …)>`, and groups with spaces between them are a
function list. Three scanners look for the end of a quoted argument: the one for the end of a group
(`Passes`), the one for the tokens of a call (`lexemes_value`) and the one that undoes escapes
(`unescape_escaped`). They agree on what `Value.render` writes, so a function list reads back as the calls
that were written (`readFunctions_renderFunctions`). -/

namespace LogRules

/-- The value is an argument that has a written form in calls. -/
def Value.IsArgument : Value → Prop
  | .constant _ => True
  | .field name => isFieldName name = true
  | .payload _ => False

instance : DecidablePred Value.IsArgument := fun v =>
  match v with
  | .constant _ => isTrue trivial
  | .field name => inferInstanceAs (Decidable (isFieldName name = true))
  | .payload _ => isFalse fun h => h

namespace Invocation

/-! ### Writing -/

/-- A character of a function name that can stand in a function list. -/
def isNameChar (c : Char) : Bool := isBareChar c && c != '>'

/-- The call has a written form in function lists. -/
structure IsWritable (inv : Invocation) : Prop where
  target : isFieldName inv.target = true
  named : inv.function ≠ ""
  function : inv.function.toList.all isNameChar = true
  applied : inv.args ≠ []
  args : ∀ v ∈ inv.args, v.IsArgument

/-! ### Escapes -/

/-- A text as it stands between the quotes of an argument. -/
def escaped (cs : List Char) : List Char := cs.flatMap Value.quotedArgumentChar

/-- The scan for the end of a group goes over the text and is outside of quotes again behind it. -/
def Passes (cs : List Char) : Prop :=
  ∀ rest, groupBody? false (cs ++ rest) = (groupBody? false rest).map fun r => (cs ++ r.1, r.2)

theorem passes_nil : Passes [] := by
  intro rest
  rw [List.nil_append]
  cases groupBody? false rest <;> rfl

theorem Passes.append {cs ds : List Char} (hcs : Passes cs) (hds : Passes ds) : Passes (cs ++ ds) := by
  intro rest
  rw [List.append_assoc, hcs, hds, Option.map_map]
  simp only [Function.comp_def, List.append_assoc]

/-- Text without quotes and closing brackets. -/
theorem passes_of_not_mem {cs : List Char} (hquote : '\'' ∉ cs) (hangle : '>' ∉ cs) : Passes cs := by
  induction cs with
  | nil => exact passes_nil
  | cons c cs ih =>
      rw [List.mem_cons, not_or] at hquote hangle
      have hone : Passes [c] := by
        intro rest
        rw [List.singleton_append, groupBody?.eq_def]
        simp [Ne.symm hquote.1, Ne.symm hangle.1]
      exact hone.append (ih hquote.2 hangle.2)

theorem passes_of_isFieldName {name : String} (h : isFieldName name = true) : Passes name.toList := by
  have hchars := (Pattern.isFieldName_iff.1 h).2
  exact passes_of_not_mem (fun hmem => absurd (hchars _ hmem) (by decide))
    (fun hmem => absurd (hchars _ hmem) (by decide))

/-- A text that cannot continue a bare token. -/
def EndsBare (rest : List Char) : Prop := ∀ c ∈ rest.head?, isBareChar c = false

theorem lexemes_openParen (offset : Nat) (rest : List Char) :
    lexemes offset ('(' :: rest) =
      (⟨.openParen, offset, offset + 1⟩ :: ·) <$> lexemes (offset + 1) rest := by
  rw [lexemes]
  rfl

theorem lexemes_closeParen (offset : Nat) (rest : List Char) :
    lexemes offset (')' :: rest) =
      (⟨.closeParen, offset, offset + 1⟩ :: ·) <$> lexemes (offset + 1) rest := by
  rw [lexemes]
  rfl

theorem lexemes_comma (offset : Nat) (rest : List Char) :
    lexemes offset (',' :: rest) =
      (⟨.comma, offset, offset + 1⟩ :: ·) <$> lexemes (offset + 1) rest := by
  rw [lexemes]
  rfl

theorem lexemes_bare {text rest : List Char} (offset : Nat) (hne : text ≠ [])
    (htext : ∀ c ∈ text, isBareChar c = true) (hrest : EndsBare rest) :
    lexemes offset (text ++ rest) = (⟨.bare text, offset, offset + Text.byteLength text⟩ :: ·) <$>
      lexemes (offset + Text.byteLength text) rest := by
  obtain _ | ⟨c, cs⟩ := text
  · exact absurd rfl hne
  have hc := htext c List.mem_cons_self
  have hcs : ∀ d ∈ cs, isBareChar d = true := fun d hd => htext d (List.mem_cons_of_mem c hd)
  simp only [isBareChar, Bool.not_eq_true', Bool.or_eq_false_iff, beq_eq_false_iff_ne] at hc
  obtain ⟨⟨⟨⟨hgap, hcomma⟩, hopen⟩, hclose⟩, hquote⟩ := hc
  have hstop : rest.takeWhile isBareChar = [] ∧ rest.dropWhile isBareChar = rest := by
    cases rest with
    | nil => exact ⟨rfl, rfl⟩
    | cons d ds =>
        have hd : ¬ isBareChar d = true := by simp [hrest d rfl]
        exact ⟨List.takeWhile_cons_of_neg hd, List.dropWhile_cons_of_neg hd⟩
  have htake : (cs ++ rest).takeWhile isBareChar = cs := by
    rw [List.takeWhile_append_of_pos hcs, hstop.1, List.append_nil]
  have hdrop : (cs ++ rest).dropWhile isBareChar = rest := by
    rw [List.dropWhile_append_of_pos hcs, hstop.2]
  rw [List.cons_append, lexemes, if_neg (by simp [hgap]), if_neg hopen, if_neg hclose, if_neg hcomma,
    if_neg hquote]
  simp only [htake, hdrop]

end Invocation

end LogRules

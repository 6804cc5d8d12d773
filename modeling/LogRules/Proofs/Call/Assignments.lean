import LogRules.Proofs.Call.Errors
import LogRules.Proofs.Call.RoundTrip

/-! # Assignments and their text

An assignment is written as a group `<@target:text>`, and its field gets the text as it stands. The scan for
the end of a group does not know what an action is: a quote in the text opens a quoted constant for it, as a
quote in a call does. So assignments are read back exactly when every text ends the quotes that it opens
(`readFunctions_renderAssignments_iff`). -/

namespace LogRules.Invocation

/-- A field and the text that it gets. -/
structure Assignment where
  target : String
  text : String
  deriving DecidableEq, Repr

namespace Assignment

/-- The assignment as a call of the reserved function. -/
def invocation (a : Assignment) : Invocation := ⟨a.target, constantFunction, [.constant a.text]⟩

/-- The assignment as a group of a function list. -/
def render (a : Assignment) : String := "<@" ++ a.target ++ ":" ++ a.text ++ ">"

/-- The text does not look like a call and holds no bracket that would end the group. -/
structure IsWritable (a : Assignment) : Prop where
  target : isFieldName a.target = true
  nonempty : a.text ≠ ""
  no_call : a.text.toList.head? ≠ some '*'
  no_angle : '>' ∉ a.text.toList

end Assignment

/-- Assignments as a function list. -/
def renderAssignments (assignments : List Assignment) : String :=
  String.intercalate " " (assignments.map Assignment.render)

/-! ### Quotes -/

/-- Text inside of quotes. A backslash makes a pair with the next character. -/
inductive IsQuoted : List Char → Prop
  | nil : IsQuoted []
  | char {c : Char} {cs : List Char} (hquote : c ≠ '\'') (hback : c ≠ '\\') (h : IsQuoted cs) : IsQuoted (c :: cs)
  | pair (c : Char) {cs : List Char} (h : IsQuoted cs) : IsQuoted ('\\' :: c :: cs)

/-- The text ends the quotes that it opens. -/
inductive EndsQuotes : List Char → Prop
  | nil : EndsQuotes []
  | char {c : Char} {cs : List Char} (hquote : c ≠ '\'') (h : EndsQuotes cs) : EndsQuotes (c :: cs)
  | quotes {body cs : List Char} (hbody : IsQuoted body) (h : EndsQuotes cs) :
      EndsQuotes ('\'' :: (body ++ '\'' :: cs))

theorem endsQuotes_quote_iff {cs : List Char} :
    EndsQuotes ('\'' :: cs) ↔ ∃ body rest, cs = body ++ '\'' :: rest ∧ IsQuoted body ∧ EndsQuotes rest := by
  constructor
  · intro h
    cases h with
    | char hquote _ => exact absurd rfl hquote
    | quotes hbody h => exact ⟨_, _, rfl, hbody, h⟩
  · rintro ⟨body, rest, rfl, hbody, h⟩
    exact .quotes hbody h

/-- Inside of quotes, the scan goes over the text up to the quote that ends it. -/
theorem IsQuoted.groupBody? {body : List Char} (h : IsQuoted body) (rest : List Char) :
    groupBody? true (body ++ '\'' :: rest) =
      (groupBody? false rest).map fun r => (body ++ '\'' :: r.1, r.2) := by
  induction h with
  | nil => rfl
  | char hquote hback h ih => simp [Invocation.groupBody?, hback, ih, Function.comp_def]
  | pair c h ih => simp [Invocation.groupBody?, ih, Function.comp_def]

theorem EndsQuotes.passes {cs : List Char} (h : EndsQuotes cs) (hangle : '>' ∉ cs) : Passes cs := by
  induction h with
  | nil => exact passes_nil
  | @char c cs hquote h ih =>
      rw [List.mem_cons, not_or] at hangle
      have hone : Passes [c] := passes_of_not_mem (by simpa using hquote.symm) (by simpa using hangle.1)
      exact hone.append (ih hangle.2)
  | @quotes body cs hbody h ih =>
      have hrest : Passes cs := ih fun hmem => hangle (by simp [hmem])
      intro rest
      rw [List.cons_append, List.append_assoc, List.cons_append]
      show (groupBody? true _).map _ = _
      rw [hbody.groupBody?, hrest, Option.map_map, Option.map_map]
      simp only [Function.comp_def, List.cons_append, List.append_assoc]

/-- What the scan takes for a group ends its quotes, the one in front of it included. -/
theorem endsQuotes_of_groupBody? {quoted : Bool} {cs body after : List Char}
    (h : groupBody? quoted cs = some (body, after)) :
    EndsQuotes (if quoted then '\'' :: body else body) := by
  fun_induction groupBody? quoted cs generalizing body with
  | case1 => cases h
  | case2 c cs ih =>
      obtain ⟨⟨body, after⟩, hrest, hpair⟩ := Option.map_eq_some_iff.mp h
      cases hpair
      obtain ⟨front, rest, rfl, hfront, hends⟩ := endsQuotes_quote_iff.mp (ih hrest)
      exact endsQuotes_quote_iff.mpr ⟨_, rest, rfl, hfront.pair c, hends⟩
  | case3 quoted cs ih =>
      obtain ⟨⟨body, after⟩, hrest, hpair⟩ := Option.map_eq_some_iff.mp h
      cases hpair
      have ih := ih hrest
      cases quoted with
      | false => exact ih
      | true => exact endsQuotes_quote_iff.mpr ⟨[], body, rfl, .nil, ih⟩
  | case4 cs =>
      cases h
      exact .nil
  | case5 quoted c cs hescape hquote hclose ih =>
      obtain ⟨⟨body, after⟩, hrest, hpair⟩ := Option.map_eq_some_iff.mp h
      cases hpair
      have ih := ih hrest
      cases quoted with
      | false => exact .char hquote ih
      | true =>
          obtain ⟨front, rest, rfl, hfront, hends⟩ := endsQuotes_quote_iff.mp ih
          have hback : c ≠ '\\' := by
            rintro rfl
            cases cs with
            | nil => cases hrest
            | cons d cs => exact hescape d cs rfl rfl rfl
          exact endsQuotes_quote_iff.mpr ⟨c :: front, rest, rfl, .char hquote hback hfront, hends⟩

/-! ### Groups -/

/-- What stands in a group in front of the text of an assignment. -/
def Assignment.opening (a : Assignment) : List Char := '@' :: (a.target.toList ++ [':'])

theorem Assignment.toList_render (a : Assignment) :
    a.render.toList = '<' :: (a.opening ++ (a.text.toList ++ ['>'])) := by
  simp [render, opening]

variable {a : Assignment}

theorem Assignment.IsWritable.passes_opening (h : a.IsWritable) : Passes a.opening := by
  have hat : Passes ['@'] := passes_of_not_mem (by decide) (by decide)
  have hcolon : Passes [':'] := passes_of_not_mem (by decide) (by decide)
  exact hat.append ((passes_of_isFieldName h.target).append hcolon)

/-- A text that does not begin with a star is assigned as it is. -/
theorem Assignment.IsWritable.readAction (h : a.IsWritable) {body : List Char} (hne : body ≠ [])
    (hstar : body.head? ≠ some '*') :
    readAction (a.opening ++ body) = .ok ⟨a.target, constantFunction, [.constant (String.ofList body)]⟩ := by
  have hcolon : ∀ c ∈ a.target.toList, (c != ':') = true := by
    intro c hc
    refine bne_iff_ne.2 ?_
    rintro rfl
    exact absurd ((Pattern.isFieldName_iff.1 h.target).2 _ hc) (by decide)
  have htake : (a.target.toList ++ ':' :: body).takeWhile (· != ':') = a.target.toList := by
    rw [List.takeWhile_append_of_pos hcolon, List.takeWhile_cons_of_neg (by decide), List.append_nil]
  have hdrop : (a.target.toList ++ ':' :: body).dropWhile (· != ':') = ':' :: body := by
    rw [List.dropWhile_append_of_pos hcolon, List.dropWhile_cons_of_neg (by decide)]
  have hopening : a.opening ++ body = '@' :: (a.target.toList ++ ':' :: body) := by
    simp [opening]
  have htrim : Text.trimStart ('@' :: (a.target.toList ++ ':' :: body)) =
      '@' :: (a.target.toList ++ ':' :: body) := List.dropWhile_cons_of_neg (by decide)
  rw [hopening, Invocation.readAction, htrim]
  show readAssignment _ (a.target.toList ++ ':' :: body) = _
  obtain ⟨c, body, rfl⟩ := List.exists_cons_of_ne_nil hne
  have hc : c ≠ '*' := fun heq => hstar (congrArg some heq)
  simp only [readAssignment, htake, hdrop, String.ofList_toList]
  split
  · next hnil => cases hnil
  · next hone => cases hone
  · next hcall =>
      cases hcall
      exact absurd rfl hc
  · next htext =>
      cases htext
      rfl

/-- Whether a list is read does not depend on the place where it starts. -/
theorem readFunctionsFrom_eq_ok_iff {start : Nat} {cs : List Char} {calls : List Invocation} :
    readFunctionsFrom start cs = .ok calls ↔ readFunctions cs = .ok calls := by
  rw [← Nat.zero_add start, readFunctionsFrom_add, mapError_eq_ok, readFunctions]

/-- The scan goes over the opening of an assignment. -/
theorem Assignment.IsWritable.groupBody? (h : a.IsWritable) (cs : List Char) :
    groupBody? false (a.opening ++ cs) = (groupBody? false cs).map fun r => (a.opening ++ r.1, r.2) :=
  h.passes_opening cs

theorem Assignment.toList_render_append (a : Assignment) (rest : List Char) :
    a.render.toList ++ rest = '<' :: (a.opening ++ (a.text.toList ++ '>' :: rest)) := by
  rw [toList_render]
  simp

/-- What the scan takes for the text of an assignment begins like the text. -/
theorem Assignment.IsWritable.body_begins (h : a.IsWritable) {rest body after : List Char}
    (hbody : a.text.toList ++ '>' :: rest = body ++ '>' :: after) : body ≠ [] ∧ body.head? ≠ some '*' := by
  have hangle := h.no_angle
  have hstar := h.no_call
  obtain ⟨c, text, htext⟩ := List.exists_cons_of_ne_nil (mt String.toList_eq_nil_iff.mp h.nonempty)
  rw [htext] at hbody hangle hstar
  cases body with
  | nil =>
      obtain ⟨rfl, -⟩ := List.cons.inj hbody
      exact absurd List.mem_cons_self hangle
  | cons d body =>
      obtain ⟨rfl, -⟩ := List.cons.inj hbody
      exact ⟨List.cons_ne_nil _ _, hstar⟩

/-- An assignment is read with what the scan takes for its text. -/
theorem Assignment.IsWritable.readFunctions_iff (h : a.IsWritable) {rest body after : List Char}
    {calls : List Invocation} (hbody : Invocation.groupBody? false (a.text.toList ++ '>' :: rest) = some (body, after)) :
    readFunctions (a.render.toList ++ rest) = .ok calls ↔ ∃ others, readFunctions after = .ok others ∧
      ⟨a.target, constantFunction, [.constant (String.ofList body)]⟩ :: others = calls := by
  have htext := eq_append_of_groupBody? hbody
  obtain ⟨hne, hstar⟩ := h.body_begins htext
  have hscan := h.groupBody? (a.text.toList ++ '>' :: rest)
  rw [hbody, htext, ← List.append_assoc] at hscan
  rw [a.toList_render_append, htext, ← List.append_assoc, readFunctions, readFunctionsFrom_group hscan,
    h.readAction hne hstar, map_eq_ok]
  simp only [readFunctionsFrom_eq_ok_iff]

/-- The scan stops behind the text of an assignment when the text ends its quotes. -/
theorem Assignment.IsWritable.groupBody?_text (h : a.IsWritable) (hends : EndsQuotes a.text.toList)
    (rest : List Char) :
    Invocation.groupBody? false (a.text.toList ++ '>' :: rest) = some (a.text.toList, rest) := by
  have hclose : Invocation.groupBody? false ('>' :: rest) = some ([], rest) := by
    simp [Invocation.groupBody?]
  rw [hends.passes h.no_angle, hclose, Option.map_some, List.append_nil]

/-- An assignment in front of a list is read back when its text ends its quotes, and only then. -/
theorem Assignment.IsWritable.readFunctions_invocation_iff (h : a.IsWritable) {rest : List Char}
    {calls : List Invocation} :
    readFunctions (a.render.toList ++ rest) = .ok (a.invocation :: calls) ↔
      EndsQuotes a.text.toList ∧ readFunctions rest = .ok calls := by
  constructor
  · intro hread
    cases hbody : Invocation.groupBody? false (a.text.toList ++ '>' :: rest) with
    | none =>
        have hscan := h.groupBody? (a.text.toList ++ '>' :: rest)
        rw [hbody] at hscan
        rw [a.toList_render_append, readFunctions, readFunctionsFrom_unclosed hscan] at hread
        cases hread
    | some found =>
        obtain ⟨body, after⟩ := found
        obtain ⟨others, hothers, heq⟩ := (h.readFunctions_iff hbody).mp hread
        obtain ⟨hinv, rfl⟩ := List.cons.inj heq
        have hvalue : String.ofList body = a.text := by simpa [invocation] using hinv
        obtain rfl : body = a.text.toList := by rw [← hvalue, String.toList_ofList]
        have hafter := List.append_cancel_left (eq_append_of_groupBody? hbody)
        obtain ⟨-, rfl⟩ := List.cons.inj hafter
        exact ⟨endsQuotes_of_groupBody? hbody, hothers⟩
  · rintro ⟨hends, hrest⟩
    rw [h.readFunctions_iff (h.groupBody?_text hends rest), String.ofList_toList]
    exact ⟨calls, hrest, rfl⟩

/-! ### Lists -/

theorem readFunctions_nil : readFunctions [] = .ok [] := by
  rw [readFunctions, readFunctionsFrom]

theorem readFunctions_space {rest : List Char} {calls : List Invocation} :
    readFunctions (' ' :: rest) = .ok calls ↔ readFunctions rest = .ok calls := by
  rw [readFunctions, readFunctionsFrom_blank (by decide), readFunctionsFrom_eq_ok_iff]

theorem toList_renderAssignments_singleton (a : Assignment) :
    (renderAssignments [a]).toList = a.render.toList ++ [] := by
  simp [renderAssignments]

theorem toList_renderAssignments_cons_cons (a next : Assignment) (assignments : List Assignment) :
    (renderAssignments (a :: next :: assignments)).toList =
      a.render.toList ++ ' ' :: (renderAssignments (next :: assignments)).toList := by
  simp [renderAssignments, String.toList_intercalate]

/-- **Lists of assignments.** They are read back, each with its target and its text, exactly when every text
ends the quotes that it opens. -/
theorem readFunctions_renderAssignments_iff {assignments : List Assignment}
    (h : ∀ a ∈ assignments, a.IsWritable) :
    readFunctions (renderAssignments assignments).toList = .ok (assignments.map Assignment.invocation) ↔
      ∀ a ∈ assignments, EndsQuotes a.text.toList := by
  induction assignments with
  | nil => simpa [renderAssignments] using readFunctions_nil
  | cons a assignments ih =>
      obtain ⟨ha, hothers⟩ := List.forall_mem_cons.mp h
      have ih := ih hothers
      rw [List.forall_mem_cons, ← ih]
      cases assignments with
      | nil =>
          rw [toList_renderAssignments_singleton]
          exact ha.readFunctions_invocation_iff
      | cons next assignments =>
          rw [toList_renderAssignments_cons_cons, List.map_cons, ha.readFunctions_invocation_iff,
            readFunctions_space]

/-- Texts with the characters that mean something to one of the scans. -/
def quotingAssignments : List Assignment := [⟨"msg.text", "<'\\'é'@"⟩, ⟨"$cat", ": *\\"⟩]

theorem readFunctions_quotingAssignments :
    (∀ a ∈ quotingAssignments, a.IsWritable) ∧
      renderAssignments quotingAssignments = "<@msg.text:<'\\'é'@> <@$cat:: *\\>" ∧
      readFunctions (renderAssignments quotingAssignments).toList =
        .ok [⟨"msg.text", constantFunction, [.constant "<'\\'é'@"]⟩,
          ⟨"$cat", constantFunction, [.constant ": *\\"]⟩] := by
  have hwritable : ∀ a ∈ quotingAssignments, a.IsWritable := by
    intro a ha
    obtain rfl | rfl : a = _ ∨ a = _ := by simpa [quotingAssignments] using ha
    · exact ⟨by decide, by decide, by decide, by decide⟩
    · exact ⟨by decide, by decide, by decide, by decide⟩
  have hfirst : EndsQuotes "<'\\'é'@".toList := by
    refine .char (by decide) (endsQuotes_quote_iff.mpr ⟨['\\', '\'', 'é'], ['@'], rfl, ?_, ?_⟩)
    · exact .pair '\'' (.char (by decide) (by decide) .nil)
    · exact .char (by decide) .nil
  have hsecond : EndsQuotes ": *\\".toList :=
    .char (by decide) (.char (by decide) (.char (by decide) (.char (by decide) .nil)))
  have hends : ∀ a ∈ quotingAssignments, EndsQuotes a.text.toList := by
    intro a ha
    obtain rfl | rfl : a = _ ∨ a = _ := by simpa [quotingAssignments] using ha
    · exact hfirst
    · exact hsecond
  exact ⟨hwritable, by decide, (readFunctions_renderAssignments_iff hwritable).mpr hends⟩

/-- The quote in `<@a:it's>` opens a constant that nothing ends. -/
theorem not_forall_readFunctions_renderAssignments : ¬ ∀ assignments : List Assignment,
    (∀ a ∈ assignments, a.IsWritable) →
      readFunctions (renderAssignments assignments).toList =
        .ok (assignments.map Assignment.invocation) := by
  intro h
  have hwritable : ∀ a ∈ [Assignment.mk "a" "it's"], a.IsWritable := by
    rintro a ha
    obtain rfl := List.mem_singleton.mp ha
    exact ⟨by decide, by decide, by decide, by decide⟩
  have hopen : groupBody? false "@a:it's>".toList = none := by decide
  have hread : readFunctions (renderAssignments [⟨"a", "it's"⟩]).toList = .error ⟨.unclosedAngle, 0⟩ :=
    readFunctionsFrom_unclosed hopen
  rw [h _ hwritable] at hread
  cases hread

end LogRules.Invocation

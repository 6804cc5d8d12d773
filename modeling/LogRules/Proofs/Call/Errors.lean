import LogRules.Call.Action
import LogRules.Proofs.Result
import LogRules.Proofs.Text.Places
import Mathlib.Data.List.TakeWhile

/-! # Errors in calls, actions and function lists

An error in a call points into the text of the call (`pointsInto_of_readCall`). An action fails for its
target, or as the call in it does (`actionFails_of_readAction`), and a function list at the first group
that is missing a bracket or whose action fails (`functionsFail_of_readFunctions`). -/

namespace LogRules.Invocation

open Text

/-! ### Calls -/

/-- Lexemes start and stop at places of the text, and an error is at one. -/
def Placed (start : Nat) (cs : List Char) : Except LexError (List Lexeme) → Prop
  | .ok ls => ∀ l ∈ ls, IsPlace start cs l.start ∧ IsPlace start cs l.stop
  | .error e => IsPlace start cs e.offset

theorem Placed.behind {start : Nat} (front : List Char) {rest : List Char} {x : Except LexError (List Lexeme)}
    (h : Placed (start + byteLength front) rest x) : Placed start (front ++ rest) x := by
  cases x with
  | error e => exact IsPlace.behind front h
  | ok ls => exact fun l hl => ⟨(h l hl).1.behind front, (h l hl).2.behind front⟩

/-- A lexeme that covers the front of the text. -/
theorem Placed.cons {start : Nat} (front : List Char) {rest : List Char} {x : Except LexError (List Lexeme)}
    (h : Placed (start + byteLength front) rest x) (token : Token) :
    Placed start (front ++ rest) ((⟨token, start, start + byteLength front⟩ :: ·) <$> x) := by
  have hbehind := h.behind front
  cases x with
  | error e => exact hbehind
  | ok ls =>
      refine List.forall_mem_cons.mpr ⟨⟨isPlace_start _ _, ?_⟩, hbehind⟩
      exact (isPlace_stop start front).append rest

theorem byteLength_of_isGap {c : Char} (h : isGap c = true) : byteLength [c] = 1 := by
  simp only [isGap, Bool.or_eq_true, beq_iff_eq] at h
  obtain ((rfl | rfl) | rfl) | rfl := h <;> simp

theorem placed_lexemes (start : Nat) (cs : List Char) : Placed start cs (lexemes start cs) := by
  fun_induction lexemes start cs with
  | case1 start => exact fun l hl => nomatch hl
  | case2 start c rest hgap ih =>
      refine Placed.behind [c] ?_
      rwa [byteLength_of_isGap hgap]
  | case3 start rest _ ih => exact Placed.cons ['('] ih _
  | case4 start rest _ _ ih => exact Placed.cons [')'] ih _
  | case5 start rest _ _ _ ih => exact Placed.cons [','] ih _
  | case6 start rest _ _ _ _ hbody => exact isPlace_start _ _
  | case7 start rest body after hbody _ stop _ _ _ _ ih =>
      have hrest : '\'' :: rest = ('\'' :: body ++ ['\'']) ++ after := by
        rw [eq_append_of_quotedBody? hbody]
        simp
      have hstop : stop = start + byteLength ('\'' :: body ++ ['\'']) := by
        simp [stop]
        omega
      rw [hstop] at ih
      rw [hrest, hstop]
      exact Placed.cons _ ih _
  | case8 start c rest _ _ _ _ _ text stop _ ih =>
      have hrest : c :: rest = text ++ rest.dropWhile isBareChar := by
        simp [text, List.takeWhile_append_dropWhile]
      rw [hrest]
      exact Placed.cons _ ih _

/-- The arguments are refused at one of their lexemes or at the end of the text. -/
theorem offset_of_readArgs {size : Nat} {ls : List Lexeme} {e : LexError}
    (h : readArgs size ls = .error e) : e.offset = size ∨ ∃ l ∈ ls, e.offset = l.start := by
  fun_induction readArgs size ls with
  | case1 =>
      cases h
      exact .inl rfl
  | case2 arg rest _ =>
      cases h
      exact .inr ⟨arg, List.mem_cons_self, rfl⟩
  | case3 =>
      cases h
      exact .inl rfl
  | case4 arg value _ start stop rest ih =>
      rcases ih (map_eq_error.mp h) with hsize | ⟨l, hl, hstart⟩
      · exact .inl hsize
      · exact .inr ⟨l, List.mem_cons_of_mem _ (List.mem_cons_of_mem _ hl), hstart⟩
  | case5 => cases h
  | case6 arg value _ start stop extra rest =>
      cases h
      exact .inr ⟨extra, by simp, rfl⟩
  | case7 arg value _ separator rest =>
      cases h
      exact .inr ⟨separator, by simp, rfl⟩

/-- A call is refused at one of its lexemes or at the end of the text. -/
theorem offset_of_ofLexemes {size : Nat} {ls : List Lexeme} {e : LexError}
    (h : ofLexemes size ls = .error e) :
    e.offset = size ∨ ∃ l ∈ ls, e.offset = l.start ∨ e.offset = l.stop := by
  unfold ofLexemes at h
  split at h
  · cases h
    exact .inl rfl
  · next name start stop rest =>
      have hstop : e = ⟨.expectedParen, stop⟩ → e.offset = size ∨
          ∃ l ∈ ⟨.bare name, start, stop⟩ :: rest, e.offset = l.start ∨ e.offset = l.stop := by
        rintro rfl
        exact .inr ⟨_, List.mem_cons_self, .inr rfl⟩
      split at h
      · next args =>
          split at h
          · rcases offset_of_readArgs (map_eq_error.mp h) with hsize | ⟨l, hl, hstart⟩
            · exact .inl hsize
            · exact .inr ⟨l, List.mem_cons_of_mem _ (List.mem_cons_of_mem _ hl), .inl hstart⟩
          · exact hstop (Except.error.inj h).symm
      · exact hstop (Except.error.inj h).symm
  · next first rest _ =>
      cases h
      exact .inr ⟨first, List.mem_cons_self, .inl rfl⟩

/-- An error in a call points to a character of it or to its end. -/
theorem pointsInto_of_readCall {cs : List Char} {e : LexError} (h : readCall cs = .error e) :
    e.PointsInto cs := by
  rw [LexError.pointsInto_iff]
  have hplaced := placed_lexemes 0 cs
  rcases bind_eq_error.mp h with hlexemes | ⟨ls, hls, hcall⟩
  · rwa [hlexemes] at hplaced
  · rw [hls] at hplaced
    rcases offset_of_ofLexemes hcall with hsize | ⟨l, hl, hstart | hstop⟩
    · rw [hsize, ← Nat.zero_add (byteLength cs)]
      exact isPlace_stop 0 cs
    · exact hstart ▸ (hplaced l hl).1
    · exact hstop ▸ (hplaced l hl).2

/-! ### Actions -/

/-- What may stand in front of the call of an action. -/
inductive Opens : (opening call : List Char) → Prop
  | bare {blanks call : List Char} (hblank : ∀ c ∈ blanks, isBlank c = true)
      (hstart : ∀ c ∈ call.head?, isBlank c = false ∧ c ≠ '@' ∧ c ≠ '*') : Opens blanks call
  | starred {blanks call : List Char} (hblank : ∀ c ∈ blanks, isBlank c = true) :
      Opens (blanks ++ ['*']) call
  | assigned {blanks target call : List Char} (hblank : ∀ c ∈ blanks, isBlank c = true)
      (htarget : ':' ∉ target) : Opens (blanks ++ '@' :: target ++ [':', '*']) call

/-- The errors of an action: for its target, or for the call behind its opening. -/
inductive ActionFails : List Char → LexError → Prop
  | unterminated {blanks rest : List Char} (hblank : ∀ c ∈ blanks, isBlank c = true)
      (htarget : ':' ∉ rest) :
      ActionFails (blanks ++ '@' :: rest) ⟨.unterminatedTarget, byteLength blanks⟩
  | empty {blanks target : List Char} (hblank : ∀ c ∈ blanks, isBlank c = true)
      (htarget : ':' ∉ target) :
      ActionFails (blanks ++ '@' :: target ++ [':'])
        ⟨.emptyAction, byteLength (blanks ++ '@' :: target ++ [':'])⟩
  | call {opening call : List Char} {e inner : LexError} (hopens : Opens opening call)
      (hcall : readCall call = .error inner) (hrelays : e.Relays inner id opening call []) :
      ActionFails (opening ++ call) e

theorem ActionFails.of_readCall {opening call : List Char} {inner : LexError}
    (hopens : Opens opening call) (hcall : readCall call = .error inner) :
    ActionFails (opening ++ call) (inner.shift (byteLength opening)) :=
  .call hopens hcall ((pointsInto_of_readCall hcall).relays_shift opening [])

/-- A text is its longest front of characters of a class, and the rest. -/
theorem exists_span (p : Char → Bool) (cs : List Char) :
    ∃ front rest, cs = front ++ rest ∧ cs.takeWhile p = front ∧ cs.dropWhile p = rest ∧
      (∀ c ∈ front, p c = true) ∧ ∀ c ∈ rest.head?, p c = false := by
  refine ⟨_, _, List.takeWhile_append_dropWhile.symm, rfl, rfl, ?_, ?_⟩
  · exact fun c hc => List.mem_takeWhile_imp hc
  · intro c hc
    have hnot := List.head?_dropWhile_not p cs
    rwa [Option.mem_def.mp hc] at hnot

/-- What stands behind the at-sign of an action is refused for its target, or for its call. -/
theorem actionFails_of_readAssignment {blanks rest : List Char} (hblank : ∀ c ∈ blanks, isBlank c = true)
    {e : LexError} (h : readAssignment (byteLength blanks) rest = .error e) :
    ActionFails (blanks ++ '@' :: rest) e := by
  obtain ⟨target, behind, rfl, htake, hdrop, htarget, hcolon⟩ := exists_span (· != ':') rest
  have hmem : ':' ∉ target := fun hc => by simpa using htarget ':' hc
  unfold readAssignment at h
  simp only [htake, hdrop] at h
  split at h
  · cases h
    rw [List.append_nil]
    exact .unterminated hblank hmem
  · next c =>
      obtain rfl : c = ':' := by simpa using hcolon c rfl
      cases h
      have hoffset : byteLength blanks + byteLength target + 2 =
          byteLength (blanks ++ '@' :: target ++ [':']) := by
        simp
        omega
      rw [hoffset]
      simpa using ActionFails.empty hblank hmem
  · next c call =>
      obtain rfl : c = ':' := by simpa using hcolon c rfl
      split at h
      · cases h
      · next inner hcall =>
          cases h
          have hoffset : byteLength blanks + byteLength target + 2 + 1 =
              byteLength (blanks ++ '@' :: target ++ [':', '*']) := by
            simp
            omega
          rw [hoffset]
          simpa using ActionFails.of_readCall (.assigned hblank hmem) hcall
  · cases h

/-- An action is refused for its target, or as the call in it. -/
theorem actionFails_of_readAction {cs : List Char} {e : LexError} (h : readAction cs = .error e) :
    ActionFails cs e := by
  obtain ⟨blanks, body, rfl, -, hbody, hblank, hhead⟩ := exists_span isBlank cs
  have hoffset : byteLength (blanks ++ body) - byteLength body = byteLength blanks := by
    rw [byteLength_append, Nat.add_sub_cancel]
  unfold readAction at h
  simp only [trimStart, hbody, hoffset] at h
  split at h
  · exact actionFails_of_readAssignment hblank h
  · next call =>
      obtain ⟨inner, hcall, rfl⟩ := mapError_eq_error.mp h
      have hoffset : byteLength blanks + 1 = byteLength (blanks ++ ['*']) := by simp
      rw [hoffset]
      simpa using ActionFails.of_readCall (.starred hblank) hcall
  · next hassigned hstarred =>
      obtain ⟨inner, hcall, rfl⟩ := mapError_eq_error.mp h
      refine .of_readCall (.bare hblank fun c hc => ⟨hhead c hc, ?_, ?_⟩) hcall
      · rintro rfl
        obtain ⟨rest, rfl⟩ := List.head?_eq_some_iff.mp hc
        exact hassigned rest rfl
      · rintro rfl
        obtain ⟨rest, rfl⟩ := List.head?_eq_some_iff.mp hc
        exact hstarred rest rfl

theorem ActionFails.pointsInto {cs : List Char} {e : LexError} (h : ActionFails cs e) :
    e.PointsInto cs := by
  cases h with
  | unterminated hblank htarget => exact LexError.Blames.pointsInto ⟨_, rfl, rfl⟩
  | @empty blanks target hblank htarget =>
      have hblames : LexError.Blames ⟨.emptyAction, byteLength (blanks ++ '@' :: target ++ [':'])⟩
          (blanks ++ '@' :: target ++ [':']) [] := ⟨_, (List.append_nil _).symm, rfl⟩
      exact hblames.pointsInto
  | call hopens hcall hrelays => simpa using hrelays.pointsInto

/-! ### Function lists -/

/-- The errors of a function list behind `before`, which is read: no bracket opens the group there, none
closes it, or the action in it fails. -/
inductive GroupFails (before : List Char) : List Char → LexError → Prop
  | expected {c : Char} {after : List Char} (hblank : isAsciiBlank c = false) (hangle : c ≠ '<') :
      GroupFails before (c :: after) ⟨.expectedAngle, byteLength before⟩
  | unclosed {after : List Char} (hopen : groupBody? false after = none) :
      GroupFails before ('<' :: after) ⟨.unclosedAngle, byteLength before⟩
  | action {body after : List Char} {e inner : LexError}
      (hbody : groupBody? false (body ++ '>' :: after) = some (body, after))
      (haction : readAction body = .error inner)
      (hrelays : e.Relays inner id (before ++ ['<']) body ('>' :: after)) :
      GroupFails before ('<' :: (body ++ '>' :: after)) e

/-- The errors of a function list: those of its first group that fails. -/
def FunctionsFail (cs : List Char) (e : LexError) : Prop :=
  ∃ before rest, cs = before ++ rest ∧ (∃ calls, readFunctions before = .ok calls) ∧
    GroupFails before rest e

/-- A group is closed where it is, whatever follows. -/
theorem groupBody?_append {quoted : Bool} {cs body after : List Char}
    (h : groupBody? quoted cs = some (body, after)) (rest : List Char) :
    groupBody? quoted (body ++ '>' :: rest) = some (body, rest) := by
  fun_induction groupBody? quoted cs generalizing body with
  | case1 => cases h
  | case2 c cs ih =>
      obtain ⟨⟨body', after'⟩, hrest, hpair⟩ := Option.map_eq_some_iff.mp h
      cases hpair
      simp [groupBody?, ih hrest]
  | case3 quoted cs ih =>
      obtain ⟨⟨body', after'⟩, hrest, hpair⟩ := Option.map_eq_some_iff.mp h
      cases hpair
      simp [groupBody?, ih hrest]
  | case4 cs =>
      cases h
      simp [groupBody?]
  | case5 quoted c cs hescape hquote hclose ih =>
      obtain ⟨⟨body', after'⟩, hrest, hpair⟩ := Option.map_eq_some_iff.mp h
      cases hpair
      rw [List.cons_append, groupBody?, ih hrest]
      · rfl
      · exact hquote
      · rintro d ds rfl rfl -
        -- A backslash at the end of a quoted text leaves the group open.
        cases cs with
        | nil => cases hrest
        | cons d ds => exact hescape d ds rfl rfl rfl
      · exact hclose

theorem byteLength_of_isAsciiBlank {c : Char} (h : isAsciiBlank c = true) : byteLength [c] = 1 := by
  simp only [isAsciiBlank, Bool.or_eq_true, beq_iff_eq] at h
  obtain (((rfl | rfl) | rfl) | rfl) | rfl := h <;> simp

theorem readFunctionsFrom_blank {start : Nat} {c : Char} (h : isAsciiBlank c = true)
    (rest : List Char) : readFunctionsFrom start (c :: rest) = readFunctionsFrom (start + 1) rest := by
  rw [readFunctionsFrom, if_pos h]

theorem readFunctionsFrom_group {start : Nat} {body after : List Char}
    (hbody : groupBody? false (body ++ '>' :: after) = some (body, after)) :
    readFunctionsFrom start ('<' :: (body ++ '>' :: after)) =
      match readAction body with
      | .error e => .error (e.shift (start + 1))
      | .ok action => (action :: ·) <$> readFunctionsFrom (start + byteLength body + 2) after := by
  rw [readFunctionsFrom, if_neg (by decide), if_pos rfl]
  split
  · next hnone =>
      rw [hbody] at hnone
      cases hnone
  · next body' after' hsome =>
      rw [hbody] at hsome
      cases hsome
      rfl

theorem readFunctionsFrom_unclosed {start : Nat} {after : List Char}
    (hopen : groupBody? false after = none) :
    readFunctionsFrom start ('<' :: after) = .error ⟨.unclosedAngle, start⟩ := by
  rw [readFunctionsFrom, if_neg (by decide), if_pos rfl]
  split
  · rfl
  · next body' after' hsome =>
      rw [hopen] at hsome
      cases hsome

/-- Reading from a later byte on moves the errors. -/
theorem readFunctionsFrom_add (start n : Nat) (cs : List Char) :
    readFunctionsFrom (start + n) cs = (readFunctionsFrom start cs).mapError (·.shift n) := by
  fun_induction readFunctionsFrom start cs with
  | case1 start => rw [readFunctionsFrom]; rfl
  | case2 start c rest hblank ih => rw [readFunctionsFrom_blank hblank, Nat.add_right_comm, ih]
  | case3 start rest hopen =>
      rw [readFunctionsFrom_unclosed hopen]
      rfl
  | case4 start rest body after hbody _ inner haction =>
      obtain rfl := eq_append_of_groupBody? hbody
      rw [readFunctionsFrom_group hbody, haction]
      simp [Except.mapError, LexError.shift_shift, Nat.add_right_comm]
  | case5 start rest body after hbody _ action haction _ ih =>
      obtain rfl := eq_append_of_groupBody? hbody
      have hstart : start + n + byteLength body + 2 = start + byteLength body + 2 + n := by omega
      rw [readFunctionsFrom_group hbody, haction, hstart, ih]
      cases readFunctionsFrom (start + byteLength body + 2) after <;> rfl
  | case6 start c rest hblank hangle =>
      rw [readFunctionsFrom, if_neg hblank, if_neg hangle]
      rfl

/-- A text that is read may stand before a list. -/
def IsReadBefore (front : List Char) : Prop :=
  ∀ cs, (∃ calls, readFunctions cs = .ok calls) → ∃ calls, readFunctions (front ++ cs) = .ok calls

theorem FunctionsFail.behind {front cs : List Char} {e : LexError} (h : FunctionsFail cs e)
    (hfront : IsReadBefore front) : FunctionsFail (front ++ cs) (e.shift (byteLength front)) := by
  obtain ⟨before, rest, rfl, hread, hfails⟩ := h
  refine ⟨front ++ before, rest, (List.append_assoc ..).symm, hfront before hread, ?_⟩
  have hplace (cause : LexCause) : LexError.shift ⟨cause, byteLength before⟩ (byteLength front) =
      ⟨cause, byteLength (front ++ before)⟩ := by
    rw [LexError.shift, byteLength_append, Nat.add_comm]
  cases hfails with
  | expected hblank hangle =>
      rw [hplace]
      exact .expected hblank hangle
  | unclosed hopen =>
      rw [hplace]
      exact .unclosed hopen
  | action hbody haction hrelays =>
      refine .action hbody haction ?_
      rw [List.append_assoc]
      exact hrelays.shift front

theorem isReadBefore_blank {c : Char} (h : isAsciiBlank c = true) : IsReadBefore [c] := by
  rintro cs ⟨calls, hcalls⟩
  refine ⟨calls, ?_⟩
  show readFunctionsFrom 0 (c :: cs) = _
  rw [readFunctionsFrom_blank h, readFunctionsFrom_add, mapError_eq_ok]
  exact hcalls

theorem isReadBefore_group {body after : List Char} {action : Invocation}
    (hbody : groupBody? false (body ++ '>' :: after) = some (body, after))
    (haction : readAction body = .ok action) : IsReadBefore ('<' :: (body ++ ['>'])) := by
  rintro cs ⟨calls, hcalls⟩
  refine ⟨action :: calls, ?_⟩
  have happend : '<' :: (body ++ ['>']) ++ cs = '<' :: (body ++ '>' :: cs) := by simp
  show readFunctionsFrom 0 _ = _
  rw [happend, readFunctionsFrom_group (groupBody?_append hbody cs), haction]
  show (action :: ·) <$> readFunctionsFrom (0 + byteLength body + 2) cs = _
  rw [Nat.add_assoc, readFunctionsFrom_add, map_eq_ok]
  exact ⟨calls, mapError_eq_ok.mpr hcalls, rfl⟩

theorem groupFails_nil {rest : List Char} {e : LexError} (h : GroupFails [] rest e) :
    FunctionsFail rest e := by
  refine ⟨[], rest, rfl, ⟨[], ?_⟩, h⟩
  show readFunctionsFrom 0 [] = _
  rw [readFunctionsFrom]

theorem exists_of_readFunctionsFrom {start : Nat} {cs : List Char} {e : LexError}
    (h : readFunctionsFrom start cs = .error e) : ∃ e', e = e'.shift start ∧ FunctionsFail cs e' := by
  fun_induction readFunctionsFrom start cs with
  | case1 start => cases h
  | case2 start c rest hblank ih =>
      obtain ⟨e, rfl, hfails⟩ := ih h
      refine ⟨_, ?_, hfails.behind (isReadBefore_blank hblank)⟩
      rw [LexError.shift_shift, byteLength_of_isAsciiBlank hblank, Nat.add_comm]
  | case3 start rest hopen =>
      cases h
      exact ⟨⟨.unclosedAngle, 0⟩, by simp [LexError.shift], groupFails_nil (.unclosed hopen)⟩
  | case4 start rest body after hbody _ inner haction =>
      obtain rfl := eq_append_of_groupBody? hbody
      cases h
      have hrelays := (actionFails_of_readAction haction).pointsInto.relays_shift ['<'] ('>' :: after)
      refine ⟨_, ?_, groupFails_nil (.action hbody haction hrelays)⟩
      rw [LexError.shift_shift, Nat.add_comm start]
      rfl
  | case5 start rest body after hbody _ action haction _ ih =>
      obtain rfl := eq_append_of_groupBody? hbody
      obtain ⟨e, rfl, hfails⟩ := ih (map_eq_error.mp h)
      have hbehind := hfails.behind (isReadBefore_group hbody haction)
      have happend : '<' :: (body ++ ['>']) ++ after = '<' :: (body ++ '>' :: after) := by simp
      rw [happend] at hbehind
      refine ⟨_, ?_, hbehind⟩
      rw [LexError.shift_shift]
      congr 1
      simp
      omega
  | case6 start c rest hblank hangle =>
      cases h
      have hexpected : GroupFails [] (c :: rest) ⟨.expectedAngle, 0⟩ :=
        .expected (by simpa using hblank) hangle
      exact ⟨⟨.expectedAngle, 0⟩, by simp [LexError.shift], groupFails_nil hexpected⟩

/-- A function list is refused for its first group that fails. -/
theorem functionsFail_of_readFunctions {cs : List Char} {e : LexError}
    (h : readFunctions cs = .error e) : FunctionsFail cs e := by
  obtain ⟨e', rfl, hfails⟩ := exists_of_readFunctionsFrom h
  exact hfails

theorem FunctionsFail.pointsInto {cs : List Char} {e : LexError} (h : FunctionsFail cs e) :
    e.PointsInto cs := by
  obtain ⟨before, rest, rfl, -, hfails⟩ := h
  cases hfails with
  | expected hblank hangle => exact LexError.Blames.pointsInto ⟨_, rfl, rfl⟩
  | unclosed hopen => exact LexError.Blames.pointsInto ⟨_, rfl, rfl⟩
  | action hbody haction hrelays => simpa using hrelays.pointsInto

end LogRules.Invocation

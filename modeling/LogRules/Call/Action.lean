import LogRules.Call.Reader
import LogRules.Text.Blank

/-! # Actions and function lists

An action is a call, or an assignment `@target:*CALL(…)` or `@target:text`; the last one assigns
the text as it is. A function list is a sequence of actions in angle brackets with white space
between them. A closing bracket inside of a quoted constant does not close the group. -/

namespace LogRules.Invocation

/-- Reads what follows the at-sign of an assignment, which stands at byte `offset`. -/
def readAssignment (offset : Nat) (cs : List Char) : Except LexError Invocation :=
  let name := cs.takeWhile (· != ':')
  let target := String.ofList name
  let start := offset + Text.byteLength name + 2
  match cs.dropWhile (· != ':') with
  | [] => .error ⟨.unterminatedTarget, offset⟩
  | [_] => .error ⟨.emptyAction, start⟩
  | _ :: '*' :: call =>
    match readCall call with
    | .ok inv => .ok { inv with target }
    | .error e => .error (e.shift (start + 1))
  | _ :: body => .ok ⟨target, constantFunction, [.constant (String.ofList body)]⟩

/-- Reads one action. White space in front is skipped, and the star before a call may be left out
when no target is named. -/
def readAction (cs : List Char) : Except LexError Invocation :=
  let body := Text.trimStart cs
  let offset := Text.byteLength cs - Text.byteLength body
  match body with
  | '@' :: rest => readAssignment offset rest
  | '*' :: call => (readCall call).mapError (·.shift (offset + 1))
  | _ => (readCall body).mapError (·.shift offset)

/-- The text of a group up to the bracket that closes it, and what follows the bracket. The flag
says whether the text starts inside of a quoted constant. -/
def groupBody? : Bool → List Char → Option (List Char × List Char)
  | _, [] => none
  | true, '\\' :: c :: rest =>
    (groupBody? true rest).map fun (body, after) => ('\\' :: c :: body, after)
  | quoted, '\'' :: rest =>
    (groupBody? (!quoted) rest).map fun (body, after) => ('\'' :: body, after)
  | false, '>' :: rest => some ([], rest)
  | quoted, c :: rest => (groupBody? quoted rest).map fun (body, after) => (c :: body, after)

/-- The closing bracket ends the body. -/
theorem eq_append_of_groupBody? {quoted : Bool} {cs body after : List Char}
    (h : groupBody? quoted cs = some (body, after)) : cs = body ++ '>' :: after := by
  fun_induction groupBody? quoted cs generalizing body with
  | case1 => simp at h
  | case4 rest =>
    obtain ⟨rfl, rfl⟩ := Prod.mk.inj (Option.some.inj h)
    rfl
  | _ =>
    rename_i ih
    obtain ⟨⟨body', after'⟩, hrest, hpair⟩ := Option.map_eq_some_iff.1 h
    obtain ⟨rfl, rfl⟩ := Prod.mk.inj hpair
    rw [ih hrest]
    rfl

/-- Reads a function list from byte `offset` on. -/
def readFunctionsFrom (offset : Nat) : List Char → Except LexError (List Invocation)
  | [] => .ok []
  | c :: rest =>
    if Text.isAsciiBlank c then readFunctionsFrom (offset + 1) rest
    else if c = '<' then
      match h : groupBody? false rest with
      | none => .error ⟨.unclosedAngle, offset⟩
      | some (body, after) =>
        have : after.length < rest.length := by
          rw [eq_append_of_groupBody? h]
          simp
          omega
        match readAction body with
        | .error e => .error (e.shift (offset + 1))
        | .ok action =>
          (action :: ·) <$> readFunctionsFrom (offset + Text.byteLength body + 2) after
    else .error ⟨.expectedAngle, offset⟩
termination_by cs => cs.length
decreasing_by all_goals simp only [List.length_cons]; omega

/-- Reads a function list. -/
def readFunctions (cs : List Char) : Except LexError (List Invocation) := readFunctionsFrom 0 cs

end LogRules.Invocation

import LogRules.Json.Reader
import LogRules.Proofs.Json.Lexing

/-! # Decoding of written values

`decode?` reads any value from its text, with the members of its objects in order. A value without numbers is
what its text decodes to (`decode?_compact`). -/

namespace LogRules.Json

namespace Reader

variable {α β : Type}

/-- Reads at most `bound` members, in order. -/
def namedValues (r : Reader α) : Nat → Bool → Reader (List (String × α))
  | 0, _ => fail .malformed
  | bound + 1, first => do
    match ← nextName first with
    | none => return []
    | some name =>
      colon
      let a ← r
      return (name, a) :: (← namedValues r bound false)

/-- Reads an object with any members. -/
def object (r : Reader α) : Reader (List (String × α)) := do
  match ← get with
  | .openBrace :: rest =>
    set rest
    namedValues r rest.length true
  | _ => mismatch

/-- Reads any value that is nested less deep than `depth`. Of the numbers only integers are read. -/
def value : Nat → Reader Json
  | 0 => fail .malformed
  | depth + 1 => do
    match ← get with
    | .null :: rest => set rest; return .null
    | .bool b :: rest => set rest; return .bool b
    | .number (.integer n) :: rest => set rest; return .ofInt n
    | .string (.ok s) :: rest => set rest; return .string s
    | .openBracket :: _ => return .array (← list (value depth))
    | .openBrace :: _ => return .object (← object (value depth))
    | _ => mismatch

theorem bind_of_ok {x : Reader α} {f : α → Reader β} {tokens rest : List Token} {a : α}
    (h : x tokens = .ok (a, rest)) : (x >>= f) tokens = f a rest := by
  show Except.bind (x tokens) _ = _
  rw [h]
  rfl

/-- What stands before an element or a member. -/
def separator (first : Bool) : List Token := if first then [] else [.comma]

/-! ### Arrays -/

theorem nextElement_value (first : Bool) {t : Token} (hend : t ≠ .closeBracket) (hcomma : t ≠ .comma)
    (rest : List Token) : nextElement first (separator first ++ t :: rest) = .ok (true, t :: rest) := by
  cases first <;> cases t <;> first | rfl | contradiction

theorem nextElement_end (first : Bool) (rest : List Token) :
    nextElement first (.closeBracket :: rest) = .ok (false, .closeBracket :: rest) := rfl

/-- The tokens of a value start with one that starts a value. -/
theorem exists_cons_ofValue {v : Json} (h : NumberFree v) :
    ∃ t tokens, Token.ofValue v = t :: tokens ∧ t ≠ .closeBracket ∧ t ≠ .comma := by
  cases h with
  | null => exact ⟨_, _, rfl, nofun, nofun⟩
  | bool b => exact ⟨_, _, rfl, nofun, nofun⟩
  | string s => exact ⟨_, _, rfl, nofun, nofun⟩
  | array _ => exact ⟨_, _, rfl, nofun, nofun⟩
  | object _ => exact ⟨_, _, rfl, nofun, nofun⟩

/-- The reader takes a value from its tokens. -/
def Takes (r : Reader Json) (v : Json) : Prop := ∀ rest, r (Token.ofValue v ++ rest) = .ok (v, rest)

theorem elements_ofElements {r : Reader Json} {l : List Json} (hfree : ∀ v ∈ l, NumberFree v)
    (htakes : ∀ v ∈ l, Takes r v) {bound : Nat} (hbound : l.length ≤ bound) (first : Bool)
    (rest : List Token) :
    elements r bound first (Token.ofElements first l ++ .closeBracket :: rest) =
      .ok (l, .closeBracket :: rest) := by
  induction l generalizing bound first with
  | nil =>
      cases bound with
      | zero => rfl
      | succ bound => exact bind_of_ok (nextElement_end first rest)
  | cons v l ih =>
      obtain ⟨bound, rfl⟩ := Nat.exists_eq_add_of_le' (Nat.le_of_add_left_le hbound)
      obtain ⟨t, tokens, htokens, hend, hcomma⟩ := exists_cons_ofValue (hfree v List.mem_cons_self)
      obtain ⟨hv, hl⟩ := List.forall_mem_cons.mp htakes
      have ih := ih (fun w hw => hfree w (List.mem_cons_of_mem v hw)) hl (Nat.le_of_succ_le_succ hbound) false
      have hcut : Token.ofElements first (v :: l) ++ .closeBracket :: rest =
          separator first ++ (Token.ofValue v ++ (Token.ofElements false l ++ .closeBracket :: rest)) := by
        simp [Token.ofElements, separator]
      have hnext := nextElement_value first hend hcomma
        (tokens ++ (Token.ofElements false l ++ .closeBracket :: rest))
      rw [← List.cons_append, ← htokens] at hnext
      rw [hcut]
      refine (bind_of_ok hnext).trans ((bind_of_ok (hv _)).trans ?_)
      exact bind_of_ok ih

theorem length_le_ofElements {l : List Json} (hfree : ∀ v ∈ l, NumberFree v) (first : Bool) :
    l.length ≤ (Token.ofElements first l).length := by
  induction l generalizing first with
  | nil => exact Nat.zero_le _
  | cons v l ih =>
      obtain ⟨hv, hl⟩ := List.forall_mem_cons.mp hfree
      obtain ⟨t, tokens, htokens, -, -⟩ := exists_cons_ofValue hv
      have ih := ih hl false
      simp only [Token.ofElements, htokens, List.length_append, List.length_cons]
      omega

/-- The tokens of an array hold those of its elements. -/
theorem length_ofElement_le {l : List Json} {v : Json} (hv : v ∈ l) (first : Bool) :
    (Token.ofValue v).length ≤ (Token.ofElements first l).length := by
  induction l generalizing first with
  | nil => cases hv
  | cons w l ih =>
      simp only [Token.ofElements, List.length_append]
      rcases List.mem_cons.mp hv with rfl | hv
      · omega
      · have ih := ih hv false
        omega

theorem list_openBracket (r : Reader α) (tokens : List Token) :
    list r (.openBracket :: tokens) =
      (elements r tokens.length true >>= fun l => endArray >>= fun _ => pure l) tokens := rfl

/-- An array is read from its tokens. -/
theorem list_ofValue {r : Reader Json} {l : List Json} (hfree : ∀ v ∈ l, NumberFree v)
    (htakes : ∀ v ∈ l, Takes r v) (rest : List Token) :
    list r (Token.ofValue (.array l) ++ rest) = .ok (l, rest) := by
  have hcut : Token.ofValue (.array l) ++ rest =
      .openBracket :: (Token.ofElements true l ++ .closeBracket :: rest) := by
    simp [Token.ofValue]
  have hbound : l.length ≤ (Token.ofElements true l ++ Token.closeBracket :: rest).length := by
    have hlength := length_le_ofElements hfree true
    rw [List.length_append]
    omega
  rw [hcut, list_openBracket]
  exact bind_of_ok (elements_ofElements hfree htakes hbound true rest)

/-! ### Objects -/

theorem nextName_name (first : Bool) (name : String) (rest : List Token) :
    nextName first (separator first ++ .string (.ok name) :: rest) = .ok (some name, rest) := by
  cases first <;> rfl

theorem nextName_end (first : Bool) (rest : List Token) :
    nextName first (.closeBrace :: rest) = .ok (none, rest) := rfl

theorem colon_colon (rest : List Token) : colon (.colon :: rest) = .ok ((), rest) := rfl

theorem namedValues_ofMembers {r : Reader Json} {members : List (String × Json)}
    (htakes : ∀ m ∈ members, Takes r m.2) {bound : Nat} (hbound : members.length < bound) (first : Bool)
    (rest : List Token) :
    namedValues r bound first (Token.ofMembers first members ++ .closeBrace :: rest) =
      .ok (members, rest) := by
  induction members generalizing bound first with
  | nil =>
      obtain ⟨bound, rfl⟩ := Nat.exists_eq_add_of_lt hbound
      exact bind_of_ok (nextName_end first rest)
  | cons m members ih =>
      obtain ⟨bound, rfl⟩ := Nat.exists_eq_add_of_lt hbound
      obtain ⟨hm, hmembers⟩ := List.forall_mem_cons.mp htakes
      have ih := ih hmembers (Nat.lt_of_succ_lt_succ hbound) false
      have hcut : Token.ofMembers first (m :: members) ++ .closeBrace :: rest =
          separator first ++ .string (.ok m.1) :: .colon ::
            (Token.ofValue m.2 ++ (Token.ofMembers false members ++ .closeBrace :: rest)) := by
        simp [Token.ofMembers, separator]
      rw [hcut]
      refine (bind_of_ok (nextName_name first m.1 _)).trans ?_
      refine (bind_of_ok (colon_colon _)).trans ((bind_of_ok (hm _)).trans ?_)
      exact bind_of_ok ih

theorem length_le_ofMembers (first : Bool) (members : List (String × Json)) :
    members.length ≤ (Token.ofMembers first members).length := by
  induction members generalizing first with
  | nil => exact Nat.zero_le _
  | cons m members ih =>
      have ih := ih false
      simp only [Token.ofMembers, List.length_append, List.length_cons]
      omega

/-- The tokens of an object hold those of its members. -/
theorem length_ofMember_le {members : List (String × Json)} {m : String × Json} (hm : m ∈ members)
    (first : Bool) : (Token.ofValue m.2).length ≤ (Token.ofMembers first members).length := by
  induction members generalizing first with
  | nil => cases hm
  | cons n members ih =>
      simp only [Token.ofMembers, List.length_append, List.length_cons]
      rcases List.mem_cons.mp hm with rfl | hm
      · omega
      · have ih := ih hm false
        omega

/-- An object is read from its tokens. -/
theorem object_ofValue {r : Reader Json} {members : List (String × Json)}
    (htakes : ∀ m ∈ members, Takes r m.2) (rest : List Token) :
    object r (Token.ofValue (.object members) ++ rest) = .ok (members, rest) := by
  have hcut : Token.ofValue (.object members) ++ rest =
      .openBrace :: (Token.ofMembers true members ++ .closeBrace :: rest) := by
    simp [Token.ofValue]
  have hbound : members.length < (Token.ofMembers true members ++ Token.closeBrace :: rest).length := by
    have hlength := length_le_ofMembers true members
    rw [List.length_append, List.length_cons]
    omega
  rw [hcut]
  exact namedValues_ofMembers htakes hbound true rest

/-! ### Values -/

theorem value_openBracket (depth : Nat) (tokens : List Token) :
    value (depth + 1) (.openBracket :: tokens) =
      (list (value depth) >>= fun l => pure (.array l)) (.openBracket :: tokens) := rfl

theorem value_openBrace (depth : Nat) (tokens : List Token) :
    value (depth + 1) (.openBrace :: tokens) =
      (object (value depth) >>= fun members => pure (.object members)) (.openBrace :: tokens) := rfl

/-- A value is read from its tokens. -/
theorem takes_value {v : Json} (h : NumberFree v) {depth : Nat} (hdepth : (Token.ofValue v).length ≤ depth) :
    Takes (value depth) v := by
  induction h generalizing depth with
  | null =>
      obtain ⟨depth, rfl⟩ := Nat.exists_eq_add_of_le' hdepth
      exact fun rest => rfl
  | bool b =>
      obtain ⟨depth, rfl⟩ := Nat.exists_eq_add_of_le' hdepth
      exact fun rest => rfl
  | string s =>
      obtain ⟨depth, rfl⟩ := Nat.exists_eq_add_of_le' hdepth
      exact fun rest => rfl
  | @array l hfree ih =>
      simp only [Token.ofValue, List.length_append, List.length_cons] at hdepth
      obtain ⟨depth, rfl⟩ := Nat.exists_eq_add_of_le' (Nat.le_of_add_left_le hdepth)
      have htakes : ∀ v ∈ l, Takes (value depth) v := by
        intro v hv
        have hlength := length_ofElement_le hv true
        exact ih v hv (by omega)
      intro rest
      have hlist := list_ofValue hfree htakes rest
      exact (value_openBracket depth _).trans (bind_of_ok hlist)
  | @object members hfree ih =>
      simp only [Token.ofValue, List.length_append, List.length_cons] at hdepth
      obtain ⟨depth, rfl⟩ := Nat.exists_eq_add_of_le' (Nat.le_of_add_left_le hdepth)
      have htakes : ∀ m ∈ members, Takes (value depth) m.2 := by
        intro m hm
        have hlength := length_ofMember_le hm true
        exact ih m hm (by omega)
      intro rest
      have hobject := object_ofValue htakes rest
      exact (value_openBrace depth _).trans (bind_of_ok hobject)

end Reader

/-- The value of a text that is JSON, with integers as its numbers. -/
def decode? (text : String) : Option Json :=
  let tokens := Token.ofText text
  (Reader.run (Reader.value tokens.length) tokens).toOption

/-- A value is decoded from its text. -/
theorem decode?_compact {v : Json} (h : NumberFree v) : decode? v.compact = some v := by
  have htakes := Reader.takes_value h (Nat.le_refl _) []
  rw [List.append_nil] at htakes
  simp only [decode?, ofText_compact h, Reader.run, htakes]
  rfl

end LogRules.Json

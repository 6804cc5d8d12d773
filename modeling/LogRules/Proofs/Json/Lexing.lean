import LogRules.Json.Token
import Mathlib.Data.List.Forall2
import Mathlib.Tactic.SplitIfs

/-! # Tokens of written values

A value without numbers is cut into its tokens again when its text is read (`ofText_compact`), and its text
stands on one line (`newline_not_mem_compact`). -/

namespace LogRules.Json

/-- No number is part of the value. -/
inductive NumberFree : Json → Prop
  | null : NumberFree .null
  | bool (b : Bool) : NumberFree (.bool b)
  | string (s : String) : NumberFree (.string s)
  | array {elements : List Json} (h : ∀ v ∈ elements, NumberFree v) : NumberFree (.array elements)
  | object {members : List (String × Json)} (h : ∀ m ∈ members, NumberFree m.2) :
      NumberFree (.object members)

/-! ### Characters of a string -/

/-- A control character is written with two digits behind two zeros. -/
theorem exists_controlEscape {c : Char} (h : c.toNat < 0x20) :
    ∃ d e, controlEscape c = ['\\', 'u', '0', '0', d, e] ∧ d ≠ '\n' ∧ e ≠ '\n' ∧
      Token.hexNumber? ['0', '0', d, e] = some c.toNat := by
  have hall : ∀ n < 0x20, controlEscape (Char.ofNat n) =
      ['\\', 'u', '0', '0', Nat.digitChar (n / 16), Nat.digitChar (n % 16)] ∧
        Nat.digitChar (n / 16) ≠ '\n' ∧ Nat.digitChar (n % 16) ≠ '\n' ∧
        Token.hexNumber? ['0', '0', Nat.digitChar (n / 16), Nat.digitChar (n % 16)] = some n := by
    decide
  have hc := hall c.toNat h
  rw [Char.ofNat_toNat] at hc
  exact ⟨_, _, hc⟩

/-- The ways in which a character of a string is written: behind a backslash, by its number, or as it is. -/
inductive Escaped (c : Char) : List Char → Prop
  | letter {letter : Char} (hunit : letter ≠ 'u') (hline : letter ≠ '\n')
      (hescape : Token.simpleEscape? letter = some c) : Escaped c ['\\', letter]
  | unit {d e : Char} (hd : d ≠ '\n') (he : e ≠ '\n') (hcontrol : c.toNat < 0x20)
      (hnumber : Token.hexNumber? ['0', '0', d, e] = some c.toNat) :
      Escaped c ['\\', 'u', '0', '0', d, e]
  | plain (hcontrol : ¬ c.toNat < 0x20) (hquote : c ≠ '"') (hslash : c ≠ '\\') : Escaped c [c]

theorem escaped_escapedChar (c : Char) : Escaped c (escapedChar c) := by
  unfold escapedChar
  split_ifs with hquote hslash hb ht hn hf hr hcontrol
  · subst hquote
    exact .letter (by decide) (by decide) (by decide)
  · subst hslash
    exact .letter (by decide) (by decide) (by decide)
  · subst hb
    exact .letter (by decide) (by decide) (by decide)
  · subst ht
    exact .letter (by decide) (by decide) (by decide)
  · subst hn
    exact .letter (by decide) (by decide) (by decide)
  · subst hf
    exact .letter (by decide) (by decide) (by decide)
  · subst hr
    exact .letter (by decide) (by decide) (by decide)
  · obtain ⟨d, e, hescape, hd, he, hnumber⟩ := exists_controlEscape hcontrol
    rw [hescape]
    exact .unit hd he hcontrol hnumber
  · exact .plain hcontrol hquote hslash

theorem Escaped.newline_not_mem {c : Char} {cs : List Char} (h : Escaped c cs) : '\n' ∉ cs := by
  cases h with
  | letter hunit hline hescape => simp [hline.symm]
  | unit hd he hcontrol hnumber => simp [hd.symm, he.symm]
  | plain hcontrol hquote hslash =>
      rw [List.mem_singleton]
      rintro rfl
      exact hcontrol (by decide)

namespace Token

/-! ### Tokens of a string -/

/-- A written character is read again. -/
theorem lexString_escaped {c : Char} {cs : List Char} (h : Escaped c cs) (read rest : List Char) :
    lexString ⟨.ok read, none⟩ (cs ++ rest) = lexString ⟨.ok (c :: read), none⟩ rest := by
  cases h with
  | letter hunit _ hescape =>
      simp only [List.cons_append, List.nil_append]
      rw [lexString, hescape]
      · rfl
      · exact fun _ _ _ _ _ hu => absurd hu hunit
      · exact hunit
  | unit _ _ hcontrol hnumber =>
      have hpush : Pending.pushUnit ⟨.ok read, none⟩ c.toNat = ⟨.ok (c :: read), none⟩ := by
        have hhigh : ¬ (0xD800 ≤ c.toNat ∧ c.toNat ≤ 0xDBFF) := by omega
        have hlow : ¬ (0xDC00 ≤ c.toNat ∧ c.toNat ≤ 0xDFFF) := by omega
        simp [Pending.pushUnit, hhigh, hlow, Functor.map, Except.map]
      simp only [List.cons_append, List.nil_append]
      rw [lexString, hnumber]
      exact congrArg (lexString · rest) hpush
  | plain hcontrol hquote hslash =>
      rw [List.singleton_append, lexString, if_neg hcontrol]
      · rfl
      · exact hquote
      · exact fun hc => absurd hc hslash
      · exact fun _ _ _ _ _ hc => absurd hc hslash
      · exact fun _ hc => absurd hc hslash
      · exact fun _ _ hc => absurd hc hslash

/-- A written string is read up to its quote. -/
theorem lexString_flatMap (cs read rest : List Char) :
    lexString ⟨.ok read, none⟩ (cs.flatMap escapedChar ++ '"' :: rest) =
      (.string (.ok (String.ofList (read.reverse ++ cs))), rest) := by
  induction cs generalizing read with
  | nil => simp [lexString, Pending.finish, Except.map]
  | cons c cs ih =>
      rw [List.flatMap_cons, List.append_assoc, lexString_escaped (escaped_escapedChar c), ih]
      simp

/-! ### Texts and their tokens -/

/-- The text is cut into these tokens, whatever follows it. -/
def Lexes (cs : List Char) (tokens : List Token) : Prop :=
  tokens.length ≤ cs.length ∧
    ∀ bound rest, lexUpTo (bound + tokens.length) (cs ++ rest) = tokens ++ lexUpTo bound rest

theorem Lexes.nil : Lexes [] [] := ⟨Nat.le_refl _, fun _ _ => rfl⟩

theorem Lexes.append {cs ds : List Char} {ts us : List Token} (hs : Lexes cs ts) (hd : Lexes ds us) :
    Lexes (cs ++ ds) (ts ++ us) := by
  refine ⟨?_, fun bound rest => ?_⟩
  · rw [List.length_append, List.length_append]
    exact Nat.add_le_add hs.1 hd.1
  · rw [List.length_append, Nat.add_comm ts.length, ← Nat.add_assoc, List.append_assoc, hs.2, hd.2,
      List.append_assoc]

/-- A text of one token. -/
theorem Lexes.one {c : Char} {cs : List Char} {token : Token} (hgap : isGap c = false)
    (h : ∀ rest, lexOne c (cs ++ rest) = (token, rest)) : Lexes (c :: cs) [token] := by
  refine ⟨by simp, fun bound rest => ?_⟩
  simp [lexUpTo, hgap, h rest]

theorem lexWord_append (token : Token) (word rest : List Char) :
    lexWord token word (word ++ rest) = (token, rest) := by
  induction word with
  | nil => rfl
  | cons w word ih => simp [lexWord, ih]

theorem lexes_stringText (s : String) : Lexes (stringText s).toList [.string (.ok s)] := by
  rw [stringText, String.toList_ofList, List.cons_append]
  refine .one (by decide) fun rest => ?_
  have hstring := lexString_flatMap s.toList [] rest
  rw [List.reverse_nil, List.nil_append, String.ofList_toList] at hstring
  rw [List.append_assoc, List.singleton_append]
  exact hstring

theorem lexes_comma : Lexes [','] [.comma] := .one (by decide) fun _ => rfl

theorem lexes_bool (b : Bool) : Lexes (compact (.bool b)).toList [.bool b] := by
  cases b with
  | true => exact .one (by decide) fun rest => lexWord_append (.bool true) "rue".toList rest
  | false => exact .one (by decide) fun rest => lexWord_append (.bool false) "alse".toList rest

/-! ### Arrays and objects -/

/-- Parts with commas between them. -/
theorem lexes_intercalate {texts : List (List Char)} {tokens : List (List Token)}
    (h : List.Forall₂ Lexes texts tokens) :
    Lexes (List.intercalate [','] texts) (List.intercalate [.comma] tokens) := by
  induction h with
  | nil => exact .nil
  | @cons cs ts texts tokens hpart hparts ih =>
      cases hparts with
      | nil => simpa using hpart
      | cons _ _ =>
          rw [List.intercalate_cons_cons, List.intercalate_cons_cons]
          exact (hpart.append lexes_comma).append ih

theorem ofElements_true (elements : List Json) :
    ofElements true elements = List.intercalate [.comma] (elements.map ofValue) := by
  induction elements with
  | nil => rfl
  | cons v rest ih =>
      cases rest with
      | nil => simp [ofElements]
      | cons w rest =>
          rw [List.map_cons, List.map_cons, List.intercalate_cons_cons, ← List.map_cons, ← ih]
          simp [ofElements]

/-- The tokens of a member. -/
def ofMember (m : String × Json) : List Token := .string (.ok m.1) :: .colon :: ofValue m.2

theorem ofMembers_true (members : List (String × Json)) :
    ofMembers true members = List.intercalate [.comma] (members.map ofMember) := by
  induction members with
  | nil => rfl
  | cons m rest ih =>
      cases rest with
      | nil => simp [ofMembers, ofMember]
      | cons n rest =>
          rw [List.map_cons, List.map_cons, List.intercalate_cons_cons, ← List.map_cons, ← ih]
          simp [ofMembers, ofMember]

end Token

/-- The text of a member. -/
def memberText (m : String × Json) : String := stringText m.1 ++ ":" ++ compact m.2

theorem compactElements_eq (elements : List Json) : compactElements elements = elements.map compact := by
  induction elements with
  | nil => rfl
  | cons v rest ih => rw [compactElements, ih, List.map_cons]

theorem compactMembers_eq (members : List (String × Json)) :
    compactMembers members = members.map memberText := by
  induction members with
  | nil => rfl
  | cons m rest ih => rw [compactMembers, ih, List.map_cons, memberText]

theorem toList_compact_array (elements : List Json) :
    (compact (.array elements)).toList =
      ['['] ++ List.intercalate [','] (elements.map fun v => (compact v).toList) ++ [']'] := by
  simp [compact, compactElements_eq, String.toList_intercalate, Function.comp_def]

theorem toList_compact_object (members : List (String × Json)) :
    (compact (.object members)).toList =
      ['\x7b'] ++ List.intercalate [','] (members.map fun m => (memberText m).toList) ++ ['\x7d'] := by
  simp [compact, compactMembers_eq, String.toList_intercalate, Function.comp_def]

/-- The text of a value is cut into its tokens. -/
theorem lexes_compact {v : Json} (h : NumberFree v) : Token.Lexes v.compact.toList (Token.ofValue v) := by
  induction h with
  | null => exact .one (by decide) fun rest => Token.lexWord_append .null "ull".toList rest
  | bool b => exact Token.lexes_bool b
  | string s => exact Token.lexes_stringText s
  | @array elements _ ih =>
      have hparts : List.Forall₂ Token.Lexes (elements.map fun v => v.compact.toList)
          (elements.map Token.ofValue) := by
        rw [List.forall₂_map_left_iff, List.forall₂_map_right_iff, List.forall₂_same]
        exact ih
      have hopen : Token.Lexes ['['] [.openBracket] := .one (by decide) fun _ => rfl
      have hclose : Token.Lexes [']'] [.closeBracket] := .one (by decide) fun _ => rfl
      rw [toList_compact_array, Token.ofValue, Token.ofElements_true]
      exact (hopen.append (Token.lexes_intercalate hparts)).append hclose
  | @object members _ ih =>
      have hcolon : Token.Lexes [':'] [.colon] := .one (by decide) fun _ => rfl
      have hparts : List.Forall₂ Token.Lexes (members.map fun m => (memberText m).toList)
          (members.map Token.ofMember) := by
        rw [List.forall₂_map_left_iff, List.forall₂_map_right_iff, List.forall₂_same]
        intro m hm
        rw [memberText, String.toList_append, String.toList_append]
        exact ((Token.lexes_stringText m.1).append hcolon).append (ih m hm)
      have hopen : Token.Lexes ['\x7b'] [.openBrace] := .one (by decide) fun _ => rfl
      have hclose : Token.Lexes ['\x7d'] [.closeBrace] := .one (by decide) fun _ => rfl
      rw [toList_compact_object, Token.ofValue, Token.ofMembers_true]
      exact (hopen.append (Token.lexes_intercalate hparts)).append hclose

/-- Reading the text of a value yields the tokens of the value. -/
theorem ofText_compact {v : Json} (h : NumberFree v) : Token.ofText v.compact = Token.ofValue v := by
  obtain ⟨hle, hlexes⟩ := lexes_compact h
  obtain ⟨bound, hbound⟩ := Nat.exists_eq_add_of_le' hle
  have hnil : Token.lexUpTo bound [] = [] := by cases bound <;> rfl
  have htokens := hlexes bound []
  rw [List.append_nil, hnil, List.append_nil] at htokens
  rw [Token.ofText, ← String.length_toList, hbound, htokens]

/-! ### One line -/

theorem newline_not_mem_stringText (s : String) : '\n' ∉ (stringText s).toList := by
  have hbody : '\n' ∉ s.toList.flatMap escapedChar := by
    intro hmem
    obtain ⟨c, -, hc⟩ := List.mem_flatMap.mp hmem
    exact (escaped_escapedChar c).newline_not_mem hc
  rw [stringText, String.toList_ofList]
  simpa using hbody

theorem newline_not_mem_intercalate {texts : List (List Char)} (h : ∀ text ∈ texts, '\n' ∉ text) :
    '\n' ∉ List.intercalate [','] texts := by
  induction texts with
  | nil => exact List.not_mem_nil
  | cons text texts ih =>
      obtain ⟨htext, hrest⟩ := List.forall_mem_cons.mp h
      cases texts with
      | nil => simpa using htext
      | cons _ _ =>
          rw [List.intercalate_cons_cons, List.append_assoc, List.mem_append, not_or]
          refine ⟨htext, ?_⟩
          simpa using ih hrest

/-- The text of a value stands on one line. -/
theorem newline_not_mem_compact {v : Json} (h : NumberFree v) : '\n' ∉ v.compact.toList := by
  induction h with
  | null => decide
  | bool b => cases b <;> decide
  | string s => exact newline_not_mem_stringText s
  | array _ ih =>
      rw [toList_compact_array]
      simpa using newline_not_mem_intercalate (List.forall_mem_map.mpr ih)
  | object _ ih =>
      have hmember (m : String × Json) (hm : '\n' ∉ m.2.compact.toList) : '\n' ∉ (memberText m).toList := by
        rw [memberText, String.toList_append, String.toList_append]
        simpa [newline_not_mem_stringText] using hm
      rw [toList_compact_object]
      simpa using newline_not_mem_intercalate (List.forall_mem_map.mpr fun m hm => hmember m (ih m hm))

end LogRules.Json

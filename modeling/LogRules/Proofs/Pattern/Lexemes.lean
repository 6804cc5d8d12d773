import LogRules.Pattern.Lexeme
import LogRules.Proofs.Result
import Mathlib.Data.List.Chain
import Mathlib.Data.List.TakeWhile

/-! # Lexemes and the text they are written in

A value is `WellFormed` when it has a written form, and values are `Separated` when no two constants are
side by side. Such values are read back from their plain text (`readPlain_plainText`), everything that is
read is of this kind (`wellFormed_of_readPlain`), and its source text is the text of the source with the
long form `<!payload:>` of a bare payload tag shortened (`shortenTags_of_readPlain`). -/

namespace LogRules

/-- The value has a written form in patterns. -/
def Value.WellFormed : Value → Prop
  | .constant text => text ≠ ""
  | .field name => isFieldName name = true
  | .payload alias? => ∀ name ∈ alias?, isFieldName name = true

instance : DecidablePred Value.WellFormed := fun v =>
  match v with
  | .constant text => inferInstanceAs (Decidable (text ≠ ""))
  | .field name => inferInstanceAs (Decidable (isFieldName name = true))
  | .payload none => isTrue fun _ h => nomatch h
  | .payload (some name) => decidable_of_iff (isFieldName name = true) (by simp [Value.WellFormed])

namespace Pattern

/-! ### Texts -/

theorem length_lt_angle (rest : List Char) : rest.length < ('<' :: rest).length := by
  rw [List.length_cons]
  omega

theorem length_lt_angles (rest : List Char) : rest.length < ('<' :: '<' :: rest).length := by
  rw [List.length_cons, List.length_cons]
  omega

theorem length_lt_of_afterWord? {rest after : List Char}
    (h : afterWord? "!payload:>".toList rest = some after) : after.length < ('<' :: rest).length := by
  rw [eq_append_of_afterWord? h]
  simp
  omega

theorem length_lt_cons (c : Char) (rest : List Char) : rest.length < (c :: rest).length := by
  rw [List.length_cons]
  omega

/-- The source with the long form `<!payload:>` of a bare payload tag shortened to `<!payload>`. A
doubled angle bracket begins no tag. -/
def shortenTags : List Char → List Char
  | [] => []
  | '<' :: '<' :: rest => '<' :: '<' :: shortenTags rest
  | '<' :: rest =>
    match _h : afterWord? "!payload:>".toList rest with
    | some after => "<!payload>".toList ++ shortenTags after
    | none => '<' :: shortenTags rest
  | c :: rest => c :: shortenTags rest
termination_by cs => cs.length
decreasing_by
  · exact length_lt_angles rest
  · exact length_lt_of_afterWord? _h
  · exact length_lt_angle rest
  · exact length_lt_cons c rest

/-- Plain text as it is written outside of groups. -/
def doubleBraces (cs : List Char) : List Char :=
  cs.flatMap fun c => if c = '{' then ['{', '{'] else [c]

/-- A value in text where braces have no meaning. -/
def plainValue : Value → List Char
  | .constant text => text.toList.flatMap fun c => if c = '<' then ['<', '<'] else [c]
  | v => renderValue v

/-- Values in text where braces have no meaning. -/
def plainText (vs : List Value) : List Char := vs.flatMap plainValue

/-- No two constants are side by side. -/
def Separated (vs : List Value) : Prop :=
  vs.IsChain fun a b => ¬ (a.isConstant = true ∧ b.isConstant = true)

instance : DecidablePred Separated := fun vs =>
  inferInstanceAs (Decidable (vs.IsChain fun a b => ¬ (a.isConstant = true ∧ b.isConstant = true)))

theorem shortenTags_cons {c : Char} (hc : c ≠ '<') (rest : List Char) :
    shortenTags (c :: rest) = c :: shortenTags rest := by
  rw [shortenTags]
  · intro after heq
    exact absurd heq hc
  · exact hc

theorem shortenTags_angle {rest : List Char} (hangle : rest.head? ≠ some '<')
    (hafter : afterWord? "!payload:>".toList rest = none) :
    shortenTags ('<' :: rest) = '<' :: shortenTags rest := by
  rw [shortenTags]
  · split
    · next after heq =>
        rw [hafter] at heq
        cases heq
    · rfl
  · rintro after rfl
    exact hangle rfl

theorem shortenTags_long (rest : List Char) :
    shortenTags ("<!payload:>".toList ++ rest) = "<!payload>".toList ++ shortenTags rest := by
  have hafter : afterWord? "!payload:>".toList ("!payload:>".toList ++ rest) = some rest := rfl
  show shortenTags ('<' :: ("!payload:>".toList ++ rest)) = _
  rw [shortenTags]
  · split
    · next after heq =>
        rw [hafter] at heq
        cases heq
        rfl
    · next heq =>
        rw [hafter] at heq
        cases heq
  · intro after heq
    cases heq

theorem shortenTags_append {cs : List Char} (h : '<' ∉ cs) (rest : List Char) :
    shortenTags (cs ++ rest) = cs ++ shortenTags rest := by
  induction cs with
  | nil => rfl
  | cons c cs ih =>
      have hc : c ≠ '<' := fun heq => h (heq ▸ List.mem_cons_self)
      have hcs : '<' ∉ cs := fun hmem => h (List.mem_cons_of_mem _ hmem)
      rw [List.cons_append, shortenTags_cons hc, ih hcs, List.cons_append]

theorem doubleBraces_append (cs ds : List Char) :
    doubleBraces (cs ++ ds) = doubleBraces cs ++ doubleBraces ds := by
  simp [doubleBraces]

theorem doubleBraces_of_not_mem {cs : List Char} (h : '{' ∉ cs) : doubleBraces cs = cs := by
  induction cs with
  | nil => rfl
  | cons c cs ih =>
      have hc : c ≠ '{' := fun heq => h (heq ▸ List.mem_cons_self)
      have hcs : '{' ∉ cs := fun hmem => h (List.mem_cons_of_mem _ hmem)
      have ih := ih hcs
      simp only [doubleBraces, List.flatMap_cons, if_neg hc] at ih ⊢
      rw [ih, List.singleton_append]

/-! ### Names and tags -/

theorem isFieldName_iff {s : String} :
    isFieldName s = true ↔ s.toList ≠ [] ∧ ∀ c ∈ s.toList, isFieldChar c = true := by
  simp [isFieldName, List.all_eq_true]

/-- A field character has no meaning of its own in a pattern. -/
theorem isFieldChar_ne {c d : Char} (hc : isFieldChar c = true) (hd : isFieldChar d = false) :
    c ≠ d := by
  rintro rfl
  rw [hc] at hd
  cases hd

theorem not_mem_of_isFieldChar {cs : List Char} {d : Char} (h : ∀ c ∈ cs, isFieldChar c = true)
    (hd : isFieldChar d = false) : d ∉ cs := by
  intro hmem
  exact isFieldChar_ne (h d hmem) hd rfl

theorem closedName?_eq_some_iff {cs name rest : List Char} :
    closedName? cs = some (name, rest) ↔
      cs = name ++ '>' :: rest ∧ ∀ c ∈ name, isFieldChar c = true := by
  constructor
  · intro h
    refine ⟨eq_append_of_closedName? h, ?_⟩
    simp only [closedName?] at h
    split at h
    · obtain ⟨rfl, -⟩ := Prod.mk.inj (Option.some.inj h)
      intro c hc
      exact List.mem_takeWhile_imp hc
    · cases h
  · rintro ⟨rfl, hname⟩
    have hstop : isFieldChar '>' = false := rfl
    have htake : (name ++ '>' :: rest).takeWhile isFieldChar = name := by
      rw [List.takeWhile_append_of_pos hname, List.takeWhile_cons_of_neg (by simp [hstop]),
        List.append_nil]
    have hdrop : (name ++ '>' :: rest).dropWhile isFieldChar = '>' :: rest := by
      rw [List.dropWhile_append_of_pos hname, List.dropWhile_cons_of_neg (by simp [hstop])]
    rw [closedName?, hdrop]
    simp only [htake]

/-- What stands between the brackets of a tag. A bare payload tag has two forms. -/
inductive TagBody : Value → List Char → Prop
  | field {name : String} (h : isFieldName name = true) : TagBody (.field name) name.toList
  | bare : TagBody (.payload none) "!payload".toList
  | bareLong : TagBody (.payload none) "!payload:".toList
  | aliased {name : String} (h : isFieldName name = true) :
      TagBody (.payload (some name)) ("!payload:".toList ++ name.toList)

theorem TagBody.wellFormed {v : Value} {body : List Char} (h : TagBody v body) :
    v.WellFormed ∧ ¬ v.isConstant = true := by
  cases h with
  | field h => exact ⟨h, by simp [Value.isConstant, Value.constant?]⟩
  | bare => exact ⟨(fun _ hmem => nomatch hmem), by simp [Value.isConstant, Value.constant?]⟩
  | bareLong => exact ⟨(fun _ hmem => nomatch hmem), by simp [Value.isConstant, Value.constant?]⟩
  | aliased h =>
      refine ⟨?_, by simp [Value.isConstant, Value.constant?]⟩
      rintro name ⟨⟩
      exact h

theorem afterWord?_append (word rest : List Char) : afterWord? word (word ++ rest) = some rest := by
  induction word with
  | nil => rfl
  | cons w word ih => rw [List.cons_append, afterWord?, if_pos rfl, ih]

theorem payloadTag?_bare (rest : List Char) :
    payloadTag? ("!payload".toList ++ '>' :: rest) = some (.payload none, rest) := by
  simp only [payloadTag?, afterWord?_append]

theorem payloadTag?_colon (rest : List Char) :
    payloadTag? ("!payload".toList ++ ':' :: rest) = (closedName? rest).map fun (name, rest) =>
      (.payload (if name.isEmpty then none else some (String.ofList name)), rest) := by
  simp only [payloadTag?, afterWord?_append]

theorem isFieldName_ofList {name : List Char} (hne : name ≠ [])
    (hchars : ∀ c ∈ name, isFieldChar c = true) : isFieldName (String.ofList name) = true := by
  rw [isFieldName_iff, String.toList_ofList]
  exact ⟨hne, hchars⟩

theorem exists_of_payloadTag? {cs rest : List Char} {v : Value}
    (h : payloadTag? cs = some (v, rest)) : ∃ body, TagBody v body ∧ cs = body ++ '>' :: rest := by
  unfold payloadTag? at h
  split at h
  · next after heq =>
      obtain ⟨rfl, rfl⟩ := Prod.mk.inj (Option.some.inj h)
      exact ⟨_, .bare, eq_append_of_afterWord? heq⟩
  · next after heq =>
      obtain ⟨⟨name, rest'⟩, hname, hpair⟩ := Option.map_eq_some_iff.mp h
      obtain ⟨rfl, rfl⟩ := Prod.mk.inj hpair
      obtain ⟨rfl, hchars⟩ := closedName?_eq_some_iff.mp hname
      rw [eq_append_of_afterWord? heq]
      cases name with
      | nil => exact ⟨_, .bareLong, rfl⟩
      | cons c name =>
          exact ⟨_, .aliased (isFieldName_ofList (List.cons_ne_nil c name) hchars), by simp⟩
  · cases h

theorem exists_of_fieldTag? {cs rest : List Char} {v : Value} (h : fieldTag? cs = some (v, rest)) :
    ∃ body, TagBody v body ∧ cs = body ++ '>' :: rest := by
  unfold fieldTag? at h
  split at h
  · cases h
  · next name rest' hne hname =>
      obtain ⟨rfl, rfl⟩ := Prod.mk.inj (Option.some.inj h)
      obtain ⟨rfl, hchars⟩ := closedName?_eq_some_iff.mp hname
      exact ⟨_, .field (isFieldName_ofList hne hchars), by simp⟩
  · cases h

/-- A name is no payload tag, since it does not start with an exclamation mark. -/
theorem tag?_of_isFieldName {name : String} (h : isFieldName name = true) (rest : List Char) :
    tag? (name.toList ++ '>' :: rest) = some (.field name, rest) := by
  obtain ⟨hne, hchars⟩ := isFieldName_iff.mp h
  have hclosed : closedName? (name.toList ++ '>' :: rest) = some (name.toList, rest) :=
    closedName?_eq_some_iff.mpr ⟨rfl, hchars⟩
  obtain ⟨c, cs, hname⟩ := List.exists_cons_of_ne_nil hne
  have hc : c ≠ '!' := isFieldChar_ne (hchars c (hname ▸ List.mem_cons_self)) rfl
  have htag : tag? (name.toList ++ '>' :: rest) = fieldTag? (name.toList ++ '>' :: rest) := by
    rw [hname, List.cons_append, tag?]
    intro tail heq
    exact hc (List.cons.inj heq).1
  rw [htag, fieldTag?, hclosed]
  rw [hname]
  simp only
  rw [← hname, String.ofList_toList]

theorem tag?_of_tagBody {v : Value} {body : List Char} (h : TagBody v body) (rest : List Char) :
    tag? (body ++ '>' :: rest) = some (v, rest) := by
  cases h with
  | field h => exact tag?_of_isFieldName h rest
  | bare => exact payloadTag?_bare rest
  | bareLong => exact payloadTag?_colon ('>' :: rest)
  | @aliased name h =>
      obtain ⟨hne, hchars⟩ := isFieldName_iff.mp h
      have hclosed : closedName? (name.toList ++ '>' :: rest) = some (name.toList, rest) :=
        closedName?_eq_some_iff.mpr ⟨rfl, hchars⟩
      have htag : tag? ("!payload:".toList ++ name.toList ++ '>' :: rest) =
          payloadTag? ("!payload".toList ++ ':' :: (name.toList ++ '>' :: rest)) := by
        rw [List.append_assoc]
        rfl
      rw [htag, payloadTag?_colon, hclosed, Option.map_some]
      simp [hne]

/-- A tag is its body and the closing bracket. -/
theorem tag?_eq_some_iff {cs rest : List Char} {v : Value} :
    tag? cs = some (v, rest) ↔ ∃ body, TagBody v body ∧ cs = body ++ '>' :: rest := by
  constructor
  · intro h
    unfold tag? at h
    split at h
    · exact exists_of_payloadTag? h
    · exact exists_of_fieldTag? h
  · rintro ⟨body, hbody, rfl⟩
    exact tag?_of_tagBody hbody rest

/-- The canonical body of a tag is what its source text has between the brackets. -/
theorem renderValue_of_tag {v : Value} (hv : v.WellFormed) (htag : ¬ v.isConstant = true) :
    ∃ body, TagBody v body ∧ renderValue v = '<' :: (body ++ ['>']) := by
  cases v with
  | constant text => exact absurd rfl htag
  | field name => exact ⟨_, .field hv, rfl⟩
  | payload alias? =>
      cases alias? with
      | none => exact ⟨_, .bare, rfl⟩
      | some name =>
          refine ⟨_, .aliased (hv name rfl), ?_⟩
          simp [renderValue, Value.payloadTag]

/-- No bracket stands in the body of a tag. -/
theorem TagBody.not_mem {v : Value} {body : List Char} (h : TagBody v body) :
    '<' ∉ body ∧ '{' ∉ body := by
  cases h with
  | field h =>
      have hchars := (isFieldName_iff.mp h).2
      exact ⟨not_mem_of_isFieldChar hchars rfl, not_mem_of_isFieldChar hchars rfl⟩
  | bare => exact ⟨by decide, by decide⟩
  | bareLong => exact ⟨by decide, by decide⟩
  | aliased h =>
      have hchars := (isFieldName_iff.mp h).2
      constructor
      · rw [List.mem_append, not_or]
        exact ⟨by decide, not_mem_of_isFieldChar hchars rfl⟩
      · rw [List.mem_append, not_or]
        exact ⟨by decide, not_mem_of_isFieldChar hchars rfl⟩

/-- Shortening turns a tag into its source text. -/
theorem shortenTags_tag {v : Value} {body : List Char} (h : TagBody v body) (rest : List Char) :
    shortenTags ('<' :: (body ++ '>' :: rest)) = renderValue v ++ shortenTags rest := by
  have hbody : shortenTags (body ++ '>' :: rest) = body ++ '>' :: shortenTags rest := by
    rw [shortenTags_append h.not_mem.1, shortenTags_cons (by decide)]
  cases h with
  | @field name h =>
      obtain ⟨hne, hchars⟩ := isFieldName_iff.mp h
      obtain ⟨c, cs, hname⟩ := List.exists_cons_of_ne_nil hne
      have hc : isFieldChar c = true := hchars c (hname ▸ List.mem_cons_self)
      have hangle : (name.toList ++ '>' :: rest).head? ≠ some '<' := by
        rw [hname]
        exact fun heq => isFieldChar_ne hc rfl (Option.some.inj heq)
      have hafter : afterWord? "!payload:>".toList (name.toList ++ '>' :: rest) = none := by
        rw [hname]
        exact if_neg (Ne.symm (isFieldChar_ne hc rfl))
      rw [shortenTags_angle hangle hafter, hbody]
      simp [renderValue]
  | bare =>
      rw [shortenTags_angle (by simp) rfl, hbody]
      simp [renderValue, Value.payloadTag]
  | bareLong => exact shortenTags_long rest
  | @aliased name h =>
      obtain ⟨hne, hchars⟩ := isFieldName_iff.mp h
      obtain ⟨c, cs, hname⟩ := List.exists_cons_of_ne_nil hne
      have hc : c ≠ '>' := isFieldChar_ne (hchars c (hname ▸ List.mem_cons_self)) rfl
      have hafter : afterWord? "!payload:>".toList
          ("!payload:".toList ++ name.toList ++ '>' :: rest) = none := by
        rw [hname]
        exact if_neg hc.symm
      rw [shortenTags_angle (by simp) hafter, hbody]
      simp [renderValue, Value.payloadTag]

/-! ### Lexemes -/

/-- The lexeme has a written form. -/
def Lexeme.WellFormed : Lexeme → Prop
  | char _ => True
  | tag v => v.WellFormed ∧ ¬ v.isConstant = true

/-- A lexeme in text where braces have no meaning. -/
def Lexeme.plain : Lexeme → List Char
  | char c => if c = '<' then ['<', '<'] else [c]
  | tag v => renderValue v

/-- The source text of a lexeme outside of groups. -/
def Lexeme.source : Lexeme → List Char
  | char c => constantChar c
  | tag v => renderValue v

theorem lexemes_tag {v : Value} {body : List Char} (h : TagBody v body) (rest : List Char) :
    lexemes ('<' :: (body ++ '>' :: rest)) = (.tag v :: ·) <$> lexemes rest := by
  have htag : tag? (body ++ '>' :: rest) = some (v, rest) := tag?_of_tagBody h rest
  rw [lexemes]
  · split
    · next v' after heq =>
        rw [htag] at heq
        obtain ⟨rfl, rfl⟩ := Prod.mk.inj (Option.some.inj heq)
        rfl
    · next heq =>
        rw [htag] at heq
        cases heq
  · intro after heq
    cases body with
    | nil => cases heq
    | cons c body =>
        obtain ⟨rfl, -⟩ := List.cons.inj heq
        exact h.not_mem.1 List.mem_cons_self

theorem lexemes_char {c : Char} (hc : c ≠ '<') (rest : List Char) :
    lexemes (c :: rest) = (.char c :: ·) <$> lexemes rest := by
  rw [lexemes]
  · intro after heq
    exact absurd heq hc
  · exact hc

/-- What is written is read again. -/
theorem lexemes_plain {ls : List Lexeme} (h : ∀ l ∈ ls, l.WellFormed) :
    lexemes (ls.flatMap Lexeme.plain) = .ok ls := by
  induction ls with
  | nil => rw [List.flatMap_nil, lexemes]
  | cons l ls ih =>
      have hl := h l List.mem_cons_self
      have ih := ih fun l' hl' => h l' (List.mem_cons_of_mem _ hl')
      rw [List.flatMap_cons]
      cases l with
      | char c =>
          by_cases hc : c = '<'
          · subst hc
            have hplain : (Lexeme.char '<').plain = ['<', '<'] := rfl
            rw [hplain, List.cons_append, List.cons_append, List.nil_append, lexemes, ih]
            rfl
          · have hplain : (Lexeme.char c).plain = [c] := if_neg hc
            rw [hplain, List.singleton_append, lexemes_char hc, ih]
            rfl
      | tag v =>
          obtain ⟨body, hbody, hrender⟩ := renderValue_of_tag hl.1 hl.2
          have hplain : (Lexeme.tag v).plain ++ ls.flatMap Lexeme.plain =
              '<' :: (body ++ '>' :: ls.flatMap Lexeme.plain) := by
            rw [Lexeme.plain, hrender]
            simp
          rw [hplain, lexemes_tag hbody, ih]
          rfl

/-- The grammar of texts: characters, doubled angle brackets and tags. -/
inductive Lexes : List Char → List Lexeme → Prop
  | nil : Lexes [] []
  | angle {cs : List Char} {ls : List Lexeme} (h : Lexes cs ls) :
      Lexes ('<' :: '<' :: cs) (.char '<' :: ls)
  | char {c : Char} {cs : List Char} {ls : List Lexeme} (hc : c ≠ '<') (h : Lexes cs ls) :
      Lexes (c :: cs) (.char c :: ls)
  | tag {v : Value} {body cs : List Char} {ls : List Lexeme} (hbody : TagBody v body)
      (h : Lexes cs ls) : Lexes ('<' :: (body ++ '>' :: cs)) (.tag v :: ls)

theorem lexes_of_lexemes {cs : List Char} {ls : List Lexeme} (h : lexemes cs = .ok ls) :
    Lexes cs ls := by
  induction cs using lexemes.induct generalizing ls with
  | case1 =>
      rw [lexemes] at h
      cases h
      exact .nil
  | case2 cs ih =>
      rw [lexemes] at h
      obtain ⟨ls', hls, rfl⟩ := map_eq_ok.mp h
      exact .angle (ih hls)
  | case3 cs hangle v after htag _ ih =>
      obtain ⟨body, hbody, rfl⟩ := tag?_eq_some_iff.mp htag
      rw [lexemes_tag hbody] at h
      obtain ⟨ls', hls, rfl⟩ := map_eq_ok.mp h
      exact .tag hbody (ih hls)
  | case4 cs hangle htag =>
      rw [lexemes] at h
      · split at h
        · next heq =>
            rw [htag] at heq
            cases heq
        · cases h
      · exact hangle
  | case5 c cs _ hc ih =>
      rw [lexemes_char hc] at h
      obtain ⟨ls', hls, rfl⟩ := map_eq_ok.mp h
      exact .char hc (ih hls)

/-- A lexeme that is read is well formed, and its characters stand in the text. -/
theorem Lexes.wellFormed {cs : List Char} {ls : List Lexeme} (h : Lexes cs ls) :
    (∀ l ∈ ls, l.WellFormed) ∧ ∀ c, .char c ∈ ls → c ∈ cs := by
  induction h with
  | nil => exact ⟨(fun _ hmem => nomatch hmem), fun _ hmem => nomatch hmem⟩
  | @angle cs ls _ ih =>
      refine ⟨List.forall_mem_cons.mpr ⟨trivial, ih.1⟩, fun c hmem => ?_⟩
      rcases List.mem_cons.mp hmem with heq | hmem
      · cases heq
        exact List.mem_cons_self
      · exact List.mem_cons_of_mem _ (List.mem_cons_of_mem _ (ih.2 c hmem))
  | @char d cs ls _ _ ih =>
      refine ⟨List.forall_mem_cons.mpr ⟨trivial, ih.1⟩, fun c hmem => ?_⟩
      rcases List.mem_cons.mp hmem with heq | hmem
      · cases heq
        exact List.mem_cons_self
      · exact List.mem_cons_of_mem _ (ih.2 c hmem)
  | @tag v body cs ls hbody _ ih =>
      refine ⟨List.forall_mem_cons.mpr ⟨hbody.wellFormed, ih.1⟩, fun c hmem => ?_⟩
      rcases List.mem_cons.mp hmem with heq | hmem
      · cases heq
      · have hcs := ih.2 c hmem
        simp [hcs]

/-- Reading a text keeps it up to the long form of a tag. -/
theorem shortenTags_of_lexes {cs : List Char} {ls : List Lexeme} (h : Lexes cs ls)
    (rest : List Char) :
    shortenTags (doubleBraces cs ++ rest) = ls.flatMap Lexeme.source ++ shortenTags rest := by
  induction h with
  | nil => rfl
  | @angle cs ls _ ih =>
      have hbraces : doubleBraces ('<' :: '<' :: cs) = '<' :: '<' :: doubleBraces cs := rfl
      rw [hbraces, List.cons_append, List.cons_append, shortenTags, ih]
      rfl
  | @char c cs ls hc _ ih =>
      have hbraces : doubleBraces (c :: cs) = constantChar c ++ doubleBraces cs := by
        by_cases hbrace : c = '{' <;> simp [doubleBraces, constantChar, hc, hbrace]
      have hangle : '<' ∉ constantChar c := by
        unfold constantChar
        split <;> simp [Ne.symm hc]
      rw [hbraces, List.append_assoc, shortenTags_append hangle, ih]
      simp [Lexeme.source]
  | @tag v body cs ls hbody _ ih =>
      have hbraces : doubleBraces ('<' :: (body ++ '>' :: cs)) ++ rest =
          '<' :: (body ++ '>' :: (doubleBraces cs ++ rest)) := by
        have happend : '<' :: (body ++ '>' :: cs) = ['<'] ++ (body ++ (['>'] ++ cs)) := rfl
        rw [happend, doubleBraces_append, doubleBraces_append, doubleBraces_append,
          doubleBraces_of_not_mem hbody.not_mem.2]
        simp [doubleBraces]
      rw [hbraces, shortenTags_tag hbody, ih]
      simp [Lexeme.source]

/-! ### Values -/

/-- The lexemes of a value. -/
def valueLexemes : Value → List Lexeme
  | .constant text => text.toList.map .char
  | v => [.tag v]

theorem flatMap_valueLexemes_plain (vs : List Value) :
    (vs.flatMap valueLexemes).flatMap Lexeme.plain = plainText vs := by
  induction vs with
  | nil => rfl
  | cons v vs ih =>
      rw [List.flatMap_cons, List.flatMap_append, ih]
      cases v <;> simp [valueLexemes, plainText, plainValue, Lexeme.plain, List.flatMap_map]

theorem flatMap_valueLexemes_source (vs : List Value) :
    (vs.flatMap valueLexemes).flatMap Lexeme.source = renderItems (vs.map .value) := by
  induction vs with
  | nil => rfl
  | cons v vs ih =>
      rw [List.flatMap_cons, List.flatMap_append, ih, List.map_cons, renderItems, renderItem]
      cases v <;> simp [valueLexemes, renderValue, Lexeme.source, List.flatMap_map]

theorem runAndValues_chars (cs : List Char) (ls : List Lexeme) :
    runAndValues (cs.map .char ++ ls) = (cs ++ (runAndValues ls).1, (runAndValues ls).2) := by
  induction cs with
  | nil => rfl
  | cons c cs ih => rw [List.map_cons, List.cons_append, runAndValues, ih, List.cons_append]

theorem ofLexemes_eq (ls : List Lexeme) :
    ofLexemes ls = behindRun (runAndValues ls).1 (runAndValues ls).2 := rfl

/-- The run in front is empty unless a constant comes first. -/
theorem ofLexemes_values {vs : List Value} (hvs : ∀ v ∈ vs, v.WellFormed) (hsep : Separated vs) :
    ofLexemes (vs.flatMap valueLexemes) = vs ∧
      ((∀ v ∈ vs.head?, ¬ v.isConstant = true) → (runAndValues (vs.flatMap valueLexemes)).1 = []) := by
  induction vs with
  | nil => exact ⟨rfl, fun _ => rfl⟩
  | cons v vs ih =>
      have hv := hvs v List.mem_cons_self
      obtain ⟨hread, hrun⟩ := ih (fun w hw => hvs w (List.mem_cons_of_mem _ hw)) hsep.tail
      rw [List.flatMap_cons]
      by_cases hconstant : v.isConstant = true
      · obtain ⟨text, rfl⟩ : ∃ text, v = .constant text := by
          cases v <;> simp_all [Value.isConstant, Value.constant?]
        have hrun := hrun fun w hw hw' => (List.isChain_cons.mp hsep).1 w hw ⟨hconstant, hw'⟩
        refine ⟨?_, fun h => absurd hconstant (h _ rfl)⟩
        have htext : text.toList ≠ [] := fun hnil => hv (String.toList_eq_nil_iff.mp hnil)
        obtain ⟨c, cs, hcs⟩ := List.exists_cons_of_ne_nil htext
        rw [ofLexemes_eq, hrun] at hread
        rw [ofLexemes_eq, valueLexemes, runAndValues_chars, hrun, List.append_nil, hcs]
        have hbehind : behindRun [] (runAndValues (vs.flatMap valueLexemes)).2 =
            (runAndValues (vs.flatMap valueLexemes)).2 := rfl
        rw [hbehind] at hread
        show Value.constant (String.ofList (c :: cs)) :: _ = _
        rw [hread, ← hcs, String.ofList_toList]
      · have hlexemes : valueLexemes v = [.tag v] := by
          cases v with
          | constant text => exact absurd rfl hconstant
          | _ => rfl
        rw [hlexemes, List.singleton_append]
        exact ⟨congrArg (v :: ·) hread, fun _ => rfl⟩

/-- Values behind a run give the lexemes back. -/
theorem flatMap_ofLexemes {ls : List Lexeme} (h : ∀ l ∈ ls, l.WellFormed) :
    (ofLexemes ls).flatMap valueLexemes = ls := by
  have hbehind : ∀ (run : List Char) (values : List Value),
      (behindRun run values).flatMap valueLexemes =
        run.map .char ++ values.flatMap valueLexemes := by
    intro run values
    cases run with
    | nil => rfl
    | cons c run => simp [behindRun, valueLexemes]
  rw [ofLexemes_eq, hbehind]
  induction ls with
  | nil => rfl
  | cons l ls ih =>
      have hl := h l List.mem_cons_self
      have ih := ih fun l' hl' => h l' (List.mem_cons_of_mem _ hl')
      cases l with
      | char c =>
          rw [runAndValues, List.map_cons, List.cons_append, ih]
      | tag v =>
          have hlexemes : valueLexemes v = [.tag v] := by
            cases v with
            | constant text => exact absurd rfl hl.2
            | _ => rfl
          rw [runAndValues, List.map_nil, List.nil_append, List.flatMap_cons, hbehind, ih, hlexemes,
            List.singleton_append]

/-- Values that are read have a written form, and no two constants are side by side. -/
theorem wellFormed_ofLexemes {ls : List Lexeme} (h : ∀ l ∈ ls, l.WellFormed) :
    (∀ v ∈ ofLexemes ls, v.WellFormed) ∧ Separated (ofLexemes ls) := by
  have hbehind : ∀ (run : List Char) (values : List Value), (∀ v ∈ values, v.WellFormed) →
      Separated values → (∀ v ∈ values.head?, ¬ v.isConstant = true) →
        (∀ v ∈ behindRun run values, v.WellFormed) ∧ Separated (behindRun run values) := by
    intro run values hvalues hsep hhead
    cases run with
    | nil => exact ⟨hvalues, hsep⟩
    | cons c run =>
        refine ⟨List.forall_mem_cons.mpr ⟨?_, hvalues⟩, List.isChain_cons.mpr ⟨?_, hsep⟩⟩
        · intro hempty
          simpa using congrArg String.toList hempty
        · exact fun w hw hboth => hhead w hw hboth.2
  have hvalues : (∀ v ∈ (runAndValues ls).2, v.WellFormed) ∧ Separated (runAndValues ls).2 ∧
      ∀ v ∈ (runAndValues ls).2.head?, ¬ v.isConstant = true := by
    induction ls with
    | nil => exact ⟨(fun _ hmem => nomatch hmem), .nil, fun _ hmem => nomatch hmem⟩
    | cons l ls ih =>
        obtain ⟨hvalues, hsep, hhead⟩ := ih fun l' hl' => h l' (List.mem_cons_of_mem _ hl')
        cases l with
        | char c => exact ⟨hvalues, hsep, hhead⟩
        | tag v =>
            obtain ⟨hv, htag⟩ := h _ List.mem_cons_self
            obtain ⟨hvalues', hsep'⟩ := hbehind (runAndValues ls).1 _ hvalues hsep hhead
            refine ⟨List.forall_mem_cons.mpr ⟨hv, hvalues'⟩, List.isChain_cons.mpr ⟨?_, hsep'⟩, ?_⟩
            · exact fun w _ hboth => htag hboth.1
            · rintro w ⟨⟩
              exact htag
  obtain ⟨hvalues, hsep, hhead⟩ := hvalues
  exact hbehind _ _ hvalues hsep hhead

/-! ### Plain text -/

/-- Values are read from their plain text. -/
theorem readPlain_plainText {vs : List Value} (hvs : ∀ v ∈ vs, v.WellFormed)
    (hsep : Separated vs) : readPlain (plainText vs) = .ok (vs.map .value) := by
  have hls : ∀ l ∈ vs.flatMap valueLexemes, l.WellFormed := by
    intro l hl
    obtain ⟨v, hv, hl⟩ := List.mem_flatMap.mp hl
    have hv := hvs v hv
    cases v with
    | constant text =>
        obtain ⟨c, -, rfl⟩ := List.mem_map.mp hl
        trivial
    | field name =>
        cases List.mem_singleton.mp hl
        exact ⟨hv, by simp [Value.isConstant, Value.constant?]⟩
    | payload alias? =>
        cases List.mem_singleton.mp hl
        exact ⟨hv, by simp [Value.isConstant, Value.constant?]⟩
  unfold readPlain
  rw [← flatMap_valueLexemes_plain, lexemes_plain hls]
  simp only [(ofLexemes_values hvs hsep).1]

/-- What is read from plain text. -/
theorem exists_of_readPlain {cs : List Char} {p : Pattern} (h : readPlain cs = .ok p) :
    ∃ vs : List Value, p = vs.map .value ∧ (∀ v ∈ vs, v.WellFormed) ∧ Separated vs ∧
      (∀ text, .constant text ∈ vs → ∀ c ∈ text.toList, c ∈ cs) ∧ (cs ≠ [] → vs ≠ []) ∧
      ∀ rest, shortenTags (doubleBraces cs ++ rest) = renderItems p ++ shortenTags rest := by
  unfold readPlain at h
  split at h
  · next ls hlexemes =>
      cases h
      have hlexes := lexes_of_lexemes hlexemes
      obtain ⟨hls, hchars⟩ := hlexes.wellFormed
      obtain ⟨hvs, hsep⟩ := wellFormed_ofLexemes hls
      have hback := flatMap_ofLexemes hls
      refine ⟨ofLexemes ls, rfl, hvs, hsep, ?_, ?_, ?_⟩
      · intro text htext c hc
        refine hchars c ?_
        rw [← hback]
        exact List.mem_flatMap.mpr ⟨_, htext, List.mem_map_of_mem hc⟩
      · intro hcs hnil
        rw [hnil] at hback
        cases hback
        cases hlexes
        exact hcs rfl
      · intro rest
        rw [shortenTags_of_lexes hlexes, ← flatMap_valueLexemes_source, hback]
  · cases h

end Pattern

end LogRules

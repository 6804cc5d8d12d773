import LogRules.Proofs.Call.Errors
import LogRules.Proofs.Call.RoundTrip

/-! # The grammar of calls

`WritesCall` says how a call is written, without tokens or places: a name, a parenthesis and the arguments
with commas between them, and white space around everything but the name and its parenthesis. A text is read
as a call exactly when it is written so (`readCall_eq_ok_iff`). The first token of a text is the longest one
there (`lexemes_eq_ok_cons_iff`), which makes the tokens of a call the parts of the grammar, one by one. -/

namespace LogRules.Invocation

open Text

/-! ### Grammar -/

/-- White space: spaces, tabs, carriage returns and line feeds. -/
def IsGap (cs : List Char) : Prop := ∀ c ∈ cs, c ∈ [' ', '\t', '\r', '\n']

/-- A run of characters that are no white space and have no meaning in a call. -/
def IsBare (cs : List Char) : Prop :=
  cs ≠ [] ∧ ∀ c ∈ cs, c ∉ [' ', '\t', '\r', '\n', ',', '(', ')', '\'']

/-- What stands between the quotes of an argument, and the text that it means. A backslash makes a pair with
the next character, which is no line feed, and it goes away in front of a backslash or a quote. -/
inductive Quotes : (body text : List Char) → Prop
  | nil : Quotes [] []
  | char {c : Char} {body text : List Char} (hquote : c ≠ '\'') (hback : c ≠ '\\') (h : Quotes body text) :
      Quotes (c :: body) (c :: text)
  | escape {c : Char} {body text : List Char} (hc : c = '\\' ∨ c = '\'') (h : Quotes body text) :
      Quotes ('\\' :: c :: body) (c :: text)
  | pair {c : Char} {body text : List Char} (hquote : c ≠ '\'') (hback : c ≠ '\\') (hline : c ≠ '\n')
      (h : Quotes body text) : Quotes ('\\' :: c :: body) ('\\' :: c :: text)

/-- An argument: a field, or a constant that is bare or in quotes. -/
inductive WritesArgument : List Char → Value → Prop
  | field {cs : List Char} (hbare : IsBare cs) (hfield : ∀ c ∈ cs, isFieldChar c = true) :
      WritesArgument cs (.field (String.ofList cs))
  | constant {cs : List Char} (hbare : IsBare cs) (hother : ∃ c ∈ cs, isFieldChar c = false) :
      WritesArgument cs (.constant (String.ofList cs))
  | quoted {body text : List Char} (h : Quotes body text) :
      WritesArgument ('\'' :: (body ++ ['\''])) (.constant (String.ofList text))

/-- Arguments with commas between them. -/
inductive WritesArguments : List Char → List Value → Prop
  | one {before cs after : List Char} {v : Value} (hbefore : IsGap before) (harg : WritesArgument cs v)
      (hafter : IsGap after) : WritesArguments (before ++ cs ++ after) [v]
  | more {before cs after rest : List Char} {v : Value} {vs : List Value} (hbefore : IsGap before)
      (harg : WritesArgument cs v) (hafter : IsGap after) (hrest : WritesArguments rest vs) :
      WritesArguments (before ++ cs ++ after ++ ',' :: rest) (v :: vs)

/-- A call without a target. -/
inductive WritesCall : List Char → Invocation → Prop
  | call {before name args after : List Char} {vs : List Value} (hbefore : IsGap before) (hname : IsBare name)
      (hargs : WritesArguments args vs) (hafter : IsGap after) :
      WritesCall (before ++ name ++ '(' :: args ++ ')' :: after) ⟨"", String.ofList name, vs⟩

/-! ### Characters -/

theorem isGap_eq_true_iff {c : Char} : isGap c = true ↔ c ∈ [' ', '\t', '\r', '\n'] := by
  simp [isGap, or_assoc]

theorem isBareChar_eq_true_iff {c : Char} :
    isBareChar c = true ↔ c ∉ [' ', '\t', '\r', '\n', ',', '(', ')', '\''] := by
  simp [isBareChar, isGap, and_assoc]

theorem isBare_iff {cs : List Char} : IsBare cs ↔ cs ≠ [] ∧ ∀ c ∈ cs, isBareChar c = true := by
  simp only [IsBare, isBareChar_eq_true_iff]

theorem IsGap.endsBare {cs rest : List Char} (h : IsGap cs) (hrest : EndsBare rest) : EndsBare (cs ++ rest) := by
  cases cs with
  | nil => exact hrest
  | cons c cs =>
      rintro d ⟨⟩
      have hc := isGap_eq_true_iff.mpr (h c List.mem_cons_self)
      simp [isBareChar, hc]

/-! ### Quotes -/

/-- The quote behind the body ends it. -/
theorem Quotes.quotedBody? {body text : List Char} (h : Quotes body text) (rest : List Char) :
    quotedBody? (body ++ '\'' :: rest) = some (body, rest) := by
  induction h with
  | nil => rfl
  | char hquote hback h ih => simp [Invocation.quotedBody?, hback, ih]
  | escape hc h ih => rcases hc with rfl | rfl <;> simp [Invocation.quotedBody?, ih]
  | pair hquote hback hline h ih => simp [Invocation.quotedBody?, hline, ih]

theorem Quotes.unescape {body text : List Char} (h : Quotes body text) : unescape body = text := by
  induction h with
  | nil => rfl
  | char hquote hback h ih => simp [Invocation.unescape, hback, ih]
  | escape hc h ih => rcases hc with rfl | rfl <;> simp [Invocation.unescape, ih]
  | pair hquote hback hline h ih => simp [Invocation.unescape, ih]

theorem quotes_of_quotedBody? {cs body after : List Char} (h : quotedBody? cs = some (body, after)) :
    Quotes body (unescape body) := by
  fun_induction quotedBody? cs generalizing body with
  | case1 => cases h
  | case2 rest =>
      cases h
      exact .nil
  | case3 => cases h
  | case4 => cases h
  | case5 c rest hline ih =>
      obtain ⟨⟨body, after⟩, hrest, hpair⟩ := Option.map_eq_some_iff.mp h
      cases hpair
      by_cases hback : c = '\\'
      · subst hback
        exact .escape (.inl rfl) (ih hrest)
      by_cases hquote : c = '\''
      · subst hquote
        exact .escape (.inr rfl) (ih hrest)
      · simpa [unescape, hback, hquote] using Quotes.pair hquote hback hline (ih hrest)
  | case6 c rest hquote hlast hescape ih =>
      obtain ⟨⟨body, after⟩, hrest, hpair⟩ := Option.map_eq_some_iff.mp h
      cases hpair
      have hback : c ≠ '\\' := by
        rintro rfl
        cases rest with
        | nil => exact hlast rfl rfl
        | cons d rest => exact hescape d rest rfl rfl
      simpa [unescape, hback] using Quotes.char hquote hback (ih hrest)

/-! ### Tokens -/

/-- A token as it is written. -/
def Token.text : Token → List Char
  | openParen => ['(']
  | closeParen => [')']
  | comma => [',']
  | quoted body => '\'' :: (body ++ ['\''])
  | bare text => text

/-- The text of the token is one that is read as the token when `rest` follows it. -/
def Token.IsFirst (rest : List Char) : Token → Prop
  | quoted body => ∃ text, Quotes body text
  | bare text => IsBare text ∧ EndsBare rest
  | _ => True

theorem lexemes_gap_append {gap : List Char} (h : IsGap gap) (start : Nat) (rest : List Char) :
    lexemes start (gap ++ rest) = lexemes (start + byteLength gap) rest := by
  induction gap generalizing start with
  | nil => rfl
  | cons c gap ih =>
      obtain ⟨hc, hgap⟩ := List.forall_mem_cons.mp h
      have hc := isGap_eq_true_iff.mpr hc
      have hlength : byteLength (c :: gap) = 1 + byteLength gap := by
        rw [← byteLength_of_isGap hc, ← byteLength_append, List.singleton_append]
      rw [List.cons_append, lexemes, if_pos hc, ih hgap, hlength, Nat.add_assoc]

theorem lexemes_quotes {body text : List Char} (h : Quotes body text) (start : Nat) (rest : List Char) :
    lexemes start ('\'' :: (body ++ '\'' :: rest)) =
      (⟨.quoted body, start, start + byteLength body + 2⟩ :: ·) <$> lexemes (start + byteLength body + 2) rest := by
  rw [lexemes, if_neg (by decide), if_neg (by decide), if_neg (by decide), if_neg (by decide), if_pos rfl]
  split
  · next hnone =>
      rw [h.quotedBody?] at hnone
      cases hnone
  · next hsome =>
      rw [h.quotedBody?] at hsome
      cases hsome
      rfl

/-- A token in front of a text is its first lexeme. -/
theorem lexemes_token {token : Token} {rest : List Char} (h : token.IsFirst rest) (start : Nat) :
    lexemes start (token.text ++ rest) =
      (⟨token, start, start + byteLength token.text⟩ :: ·) <$> lexemes (start + byteLength token.text) rest := by
  cases token with
  | openParen => exact lexemes_openParen start rest
  | closeParen => exact lexemes_closeParen start rest
  | comma => exact lexemes_comma start rest
  | quoted body =>
      obtain ⟨text, hquotes⟩ := h
      have hstop : start + byteLength (Token.quoted body).text = start + byteLength body + 2 := by
        simp [Token.text]
        omega
      rw [hstop, Token.text, List.cons_append, List.append_assoc, List.singleton_append]
      exact lexemes_quotes hquotes start rest
  | bare text =>
      obtain ⟨hne, hchars⟩ := isBare_iff.mp h.1
      exact lexemes_bare start hne hchars h.2

/-- What is no white space begins with a token, unless it is a quote that nothing ends. -/
theorem exists_token {c : Char} {cs : List Char} (hc : isGap c = false) :
    (c = '\'' ∧ quotedBody? cs = none) ∨
      ∃ (token : Token) (rest : List Char), c :: cs = token.text ++ rest ∧ token.IsFirst rest := by
  by_cases hopen : c = '('
  · exact .inr ⟨.openParen, cs, by rw [hopen]; rfl, trivial⟩
  by_cases hclose : c = ')'
  · exact .inr ⟨.closeParen, cs, by rw [hclose]; rfl, trivial⟩
  by_cases hcomma : c = ','
  · exact .inr ⟨.comma, cs, by rw [hcomma]; rfl, trivial⟩
  by_cases hquote : c = '\''
  · cases hbody : quotedBody? cs with
    | none => exact .inl ⟨hquote, rfl⟩
    | some found =>
        obtain ⟨body, after⟩ := found
        refine .inr ⟨.quoted body, after, ?_, _, quotes_of_quotedBody? hbody⟩
        rw [eq_append_of_quotedBody? hbody, hquote]
        simp [Token.text]
  · have hbare : isBareChar c = true := by simp [isBareChar, hc, hopen, hclose, hcomma, hquote]
    obtain ⟨text, rest, rfl, -, -, htext, hrest⟩ := exists_span isBareChar cs
    exact .inr ⟨.bare (c :: text), rest, rfl,
      isBare_iff.mpr ⟨List.cons_ne_nil c text, List.forall_mem_cons.mpr ⟨hbare, htext⟩⟩, hrest⟩

theorem lexemes_nil (start : Nat) : lexemes start [] = .ok [] := by
  rw [lexemes]

theorem lexemes_unterminated {cs : List Char} (h : quotedBody? cs = none) (start : Nat) :
    lexemes start ('\'' :: cs) = .error ⟨.unterminatedQuote, start⟩ := by
  rw [lexemes, if_neg (by decide), if_neg (by decide), if_neg (by decide), if_neg (by decide), if_pos rfl]
  split
  · rfl
  · next hsome =>
      rw [h] at hsome
      cases hsome

/-- A text has no lexemes when it is white space. -/
theorem lexemes_eq_ok_nil_iff {start : Nat} {cs : List Char} : lexemes start cs = .ok [] ↔ IsGap cs := by
  obtain ⟨gap, rest, rfl, -, -, hgap, hrest⟩ := exists_span isGap cs
  have hgap : IsGap gap := fun c hc => isGap_eq_true_iff.mp (hgap c hc)
  rw [lexemes_gap_append hgap]
  cases rest with
  | nil => simpa [lexemes_nil] using hgap
  | cons c rest =>
      have hc := hrest c rfl
      refine iff_of_false (fun h => ?_) fun h => ?_
      · rcases exists_token hc with ⟨rfl, hbody⟩ | ⟨token, rest, htext, hfirst⟩
        · rw [lexemes_unterminated hbody] at h
          cases h
        · rw [htext, lexemes_token hfirst] at h
          obtain ⟨ls, -, hnil⟩ := map_eq_ok.mp h
          cases hnil
      · have hmem := isGap_eq_true_iff.mpr (h c (by simp))
        rw [hc] at hmem
        cases hmem

theorem bareValue_eq_field {cs : List Char} (hbare : IsBare cs) (hfield : ∀ c ∈ cs, isFieldChar c = true) :
    bareValue (String.ofList cs) = .field (String.ofList cs) := by
  have hname : isFieldName (String.ofList cs) = true := by
    rw [Pattern.isFieldName_iff, String.toList_ofList]
    exact ⟨hbare.1, hfield⟩
  rw [bareValue, if_pos hname]

theorem bareValue_eq_constant {cs : List Char} (hother : ∃ c ∈ cs, isFieldChar c = false) :
    bareValue (String.ofList cs) = .constant (String.ofList cs) := by
  obtain ⟨c, hc, hnot⟩ := hother
  have hname : ¬ isFieldName (String.ofList cs) = true := by
    rw [Pattern.isFieldName_iff, String.toList_ofList]
    intro hname
    exact Bool.false_ne_true (hnot.symm.trans (hname.2 c hc))
  rw [bareValue, if_neg hname]

/-- An argument is one token. -/
theorem WritesArgument.exists_token {cs rest : List Char} {v : Value} (h : WritesArgument cs v)
    (hrest : EndsBare rest) :
    ∃ token : Token, token.text = cs ∧ token.IsFirst rest ∧ argument? token = some v := by
  cases h with
  | field hbare hfield =>
      exact ⟨.bare cs, rfl, ⟨hbare, hrest⟩, congrArg some (bareValue_eq_field hbare hfield)⟩
  | constant hbare hother =>
      exact ⟨.bare cs, rfl, ⟨hbare, hrest⟩, congrArg some (bareValue_eq_constant hother)⟩
  | quoted h => exact ⟨.quoted _, rfl, ⟨_, h⟩, by rw [argument?, h.unescape]⟩

theorem endsBare_comma (rest : List Char) : EndsBare (',' :: rest) := by
  rintro c ⟨⟩
  decide

theorem endsBare_closeParen (rest : List Char) : EndsBare (')' :: rest) := by
  rintro c ⟨⟩
  decide

/-- Arguments that are written are read from the lexemes of their text. -/
theorem WritesArguments.exists_lexemes {args : List Char} {vs : List Value} (h : WritesArguments args vs)
    {after : List Char} (hafter : IsGap after) (size start : Nat) :
    ∃ ls, lexemes start (args ++ ')' :: after) = .ok ls ∧ readArgs size ls = .ok vs := by
  induction h generalizing start with
  | @one before cs behind v hbefore harg hbehind =>
      have hends := hbehind.endsBare (endsBare_closeParen after)
      obtain ⟨token, rfl, hfirst, hvalue⟩ := harg.exists_token hends
      have htext : before ++ token.text ++ behind ++ ')' :: after =
          before ++ (token.text ++ (behind ++ ')' :: after)) := by
        simp
      rw [htext, lexemes_gap_append hbefore, lexemes_token hfirst, lexemes_gap_append hbehind,
        lexemes_closeParen, lexemes_eq_ok_nil_iff.mpr hafter]
      exact ⟨_, rfl, by simp only [readArgs, hvalue]⟩
  | @more before cs behind rest v vs hbefore harg hbehind hrest ih =>
      have hends := hbehind.endsBare (endsBare_comma (rest ++ ')' :: after))
      obtain ⟨token, rfl, hfirst, hvalue⟩ := harg.exists_token hends
      have htext : before ++ token.text ++ behind ++ ',' :: rest ++ ')' :: after =
          before ++ (token.text ++ (behind ++ ',' :: (rest ++ ')' :: after))) := by
        simp
      obtain ⟨ls, hls, hread⟩ := ih (start + byteLength before + byteLength token.text + byteLength behind + 1)
      rw [htext, lexemes_gap_append hbefore, lexemes_token hfirst, lexemes_gap_append hbehind, lexemes_comma,
        hls]
      refine ⟨_, rfl, ?_⟩
      simp only [readArgs, hvalue, hread]
      rfl

/-! ### Calls -/

theorem endsBare_openParen (rest : List Char) : EndsBare ('(' :: rest) := by
  rintro c ⟨⟩
  decide

/-- A call in the grammar is read. -/
theorem WritesCall.readCall {cs : List Char} {inv : Invocation} (h : WritesCall cs inv) :
    readCall cs = .ok inv := by
  obtain @⟨before, name, args, after, vs, hbefore, hname, hargs, hafter⟩ := h
  have htext : before ++ name ++ '(' :: args ++ ')' :: after =
      before ++ ((Token.bare name).text ++ '(' :: (args ++ ')' :: after)) := by
    simp [Token.text]
  have hfirst : (Token.bare name).IsFirst ('(' :: (args ++ ')' :: after)) := ⟨hname, endsBare_openParen _⟩
  rw [htext]
  generalize hsize : byteLength (before ++ ((Token.bare name).text ++ '(' :: (args ++ ')' :: after))) = size
  let start := 0 + byteLength before
  let stop := start + byteLength name
  obtain ⟨ls, hls, hread⟩ := hargs.exists_lexemes hafter size (stop + 1)
  have hlexed : lexemes 0 (before ++ ((Token.bare name).text ++ '(' :: (args ++ ')' :: after))) =
      .ok (⟨.bare name, start, stop⟩ :: ⟨.openParen, stop, stop + 1⟩ :: ls) := by
    rw [lexemes_gap_append hbefore, lexemes_token hfirst, lexemes_openParen]
    show _ <$> (_ <$> lexemes (stop + 1) _) = _
    rw [hls]
    rfl
  refine bind_eq_ok.mpr ⟨_, hlexed, ?_⟩
  simp only [hsize, ofLexemes, if_true, hread]
  rfl

end LogRules.Invocation

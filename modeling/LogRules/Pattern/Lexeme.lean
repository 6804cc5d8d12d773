import LogRules.LexError
import LogRules.Pattern.Basic
import LogRules.Text.Utf8

/-! # Pattern text without groups

Pattern text is a sequence of lexemes: characters, and tags in angle brackets. A doubled bracket
`<<` is the character `<`; `<name>` is a field, and `<!payload>` or `<!payload:alias>` a payload
marker. Neighbouring characters form one constant, so a pattern that was read never holds two
constants side by side. -/

namespace LogRules.Pattern

/-- One unit of pattern text. -/
inductive Lexeme where
  | char (c : Char)
  | tag (v : Value)
  deriving DecidableEq, Repr

/-- What follows a word at the front of a text; `none` when the word does not stand there. -/
def afterWord? : List Char → List Char → Option (List Char)
  | [], cs => some cs
  | w :: word, c :: cs => if w = c then afterWord? word cs else none
  | _ :: _, [] => none

theorem eq_append_of_afterWord? {word cs rest : List Char} (h : afterWord? word cs = some rest) :
    cs = word ++ rest := by
  induction word generalizing cs with
  | nil => exact Option.some.inj h
  | cons w word ih =>
    cases cs with
    | nil => simp [afterWord?] at h
    | cons c cs =>
      simp only [afterWord?] at h
      split at h
      · next heq => rw [heq, ih h, List.cons_append]
      · simp at h

/-- A name in front of a closing bracket, with what follows the bracket. The name may be empty. -/
def closedName? (cs : List Char) : Option (List Char × List Char) :=
  match cs.dropWhile isFieldChar with
  | '>' :: rest => some (cs.takeWhile isFieldChar, rest)
  | _ => none

theorem eq_append_of_closedName? {cs name rest : List Char}
    (h : closedName? cs = some (name, rest)) : cs = name ++ '>' :: rest := by
  simp only [closedName?] at h
  split at h
  · next after heq =>
    obtain ⟨rfl, rfl⟩ := Prod.mk.inj (Option.some.inj h)
    rw [← heq, List.takeWhile_append_dropWhile]
  · simp at h

/-- The inside of a payload tag: the alias, and what follows the closing bracket. -/
def payloadTag? (cs : List Char) : Option (Value × List Char) :=
  match afterWord? "!payload".toList cs with
  | some ('>' :: rest) => some (.payload none, rest)
  | some (':' :: rest) => (closedName? rest).map fun (name, rest) =>
      (.payload (if name.isEmpty then none else some (String.ofList name)), rest)
  | _ => none

/-- The inside of a field tag: the name, and what follows the closing bracket. -/
def fieldTag? (cs : List Char) : Option (Value × List Char) :=
  match closedName? cs with
  | some ([], _) => none
  | some (name, rest) => some (.field (String.ofList name), rest)
  | none => none

/-- Reads a tag after its opening bracket: its value, and what follows its closing bracket. -/
def tag? (cs : List Char) : Option (Value × List Char) :=
  match cs with
  | '!' :: _ => payloadTag? cs
  | _ => fieldTag? cs

/-- A tag ends before the end of the text that it was read from. -/
theorem length_lt_of_tag? {cs rest : List Char} {v : Value} (h : tag? cs = some (v, rest)) :
    rest.length < cs.length := by
  simp only [tag?] at h
  split at h
  · simp only [payloadTag?] at h
    split at h
    · next after heq =>
      obtain ⟨-, rfl⟩ := Prod.mk.inj (Option.some.inj h)
      rw [eq_append_of_afterWord? heq]
      simp
      omega
    · next after heq =>
      obtain ⟨⟨name, rest'⟩, hname, hpair⟩ := Option.map_eq_some_iff.1 h
      obtain ⟨-, rfl⟩ := Prod.mk.inj hpair
      rw [eq_append_of_afterWord? heq, eq_append_of_closedName? hname]
      simp
      omega
    · simp at h
  · simp only [fieldTag?] at h
    split at h
    · simp at h
    · next name rest' _ heq =>
      obtain ⟨-, rfl⟩ := Prod.mk.inj (Option.some.inj h)
      rw [eq_append_of_closedName? heq]
      simp
      omega
    · simp at h

/-- The text from the first character that cannot continue a tag, given the text after the opening
bracket. A tag that is closed but means nothing is refused from its first character on. -/
def tagFault (cs : List Char) : List Char :=
  let body := match cs with
    | '!' :: rest => rest
    | _ => cs
  match body.dropWhile fun c => isFieldChar c || c == ':' with
  | '>' :: _ => cs
  | stop => stop

/-- The lexemes of a text. The error is the rest of the text, from the character that no tag
allows. -/
def lexemes : List Char → Except (List Char) (List Lexeme)
  | [] => .ok []
  | '<' :: '<' :: rest => (.char '<' :: ·) <$> lexemes rest
  | '<' :: rest =>
    match h : tag? rest with
    | some (v, after) =>
      have : after.length < rest.length := length_lt_of_tag? h
      (.tag v :: ·) <$> lexemes after
    | none => .error (tagFault rest)
  | c :: rest => (.char c :: ·) <$> lexemes rest
termination_by cs => cs.length
decreasing_by all_goals simp only [List.length_cons]; omega

/-- Values behind a run of characters. The run is one constant, unless it is empty. -/
def behindRun : List Char → List Value → List Value
  | [], values => values
  | run, values => .constant (String.ofList run) :: values

/-- The run of characters at the front of lexemes, and the values behind it. -/
def runAndValues : List Lexeme → List Char × List Value
  | [] => ([], [])
  | .char c :: rest =>
    let (run, values) := runAndValues rest
    (c :: run, values)
  | .tag v :: rest =>
    let (run, values) := runAndValues rest
    ([], v :: behindRun run values)

/-- The values of lexemes: every run of characters is one constant. -/
def ofLexemes (ls : List Lexeme) : List Value :=
  let (run, values) := runAndValues ls
  behindRun run values

/-- Reads pattern text in which braces have no meaning. -/
def readPlain (cs : List Char) : Except LexError Pattern :=
  match lexemes cs with
  | .ok ls => .ok ((ofLexemes ls).map .value)
  | .error rest => .error ⟨.malformedTag, Text.byteLength cs - Text.byteLength rest⟩

end LogRules.Pattern

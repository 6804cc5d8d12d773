import LogRules.Proofs.Text.Decimal
import LogRules.Time.Layout
import Mathlib.Data.List.DropRight

/-! # Dates in front of more text

Items read the front of a text and leave the rest (`readFront?`). What stands behind a space does not change
what they read and is left as well, except that white space at the end takes the space too
(`readFront?_append`). So items that read all of a text still do in front of white space and other items
(`readItems?_append_append`). -/

namespace LogRules.Time.Layout

/-- Reads items from the front of a text. -/
def readFront? (c : Components) : List LayoutItem → List Char → Option (Components × List Char)
  | [], cs => some (c, cs)
  | item :: rest, cs => do
    let (c, cs) ← readItem? c item cs
    readFront? c rest cs

theorem readFront?_cons_eq_some_iff {c c' : Components} {item : LayoutItem} {items : List LayoutItem}
    {cs rest : List Char} :
    readFront? c (item :: items) cs = some (c', rest) ↔
      ∃ d middle, readItem? c item cs = some (d, middle) ∧ readFront? d items middle = some (c', rest) := by
  simp only [readFront?, Option.bind_eq_bind, Option.bind_eq_some_iff, Prod.exists]

/-- Items in front of others are read from the front of the text. -/
theorem readItems?_append (c : Components) (items more : List LayoutItem) (cs : List Char) :
    readItems? c (items ++ more) cs = (readFront? c items cs).bind fun (d, rest) => readItems? d more rest := by
  induction items generalizing c cs with
  | nil => rfl
  | cons item rest ih =>
      rw [List.cons_append, readItems?, readFront?]
      cases readItem? c item cs with
      | none => rfl
      | some read => exact ih _ _

/-- All of a text is read when its front is and nothing is left. -/
theorem readItems?_eq_some_iff {c c' : Components} {items : List LayoutItem} {cs : List Char} :
    readItems? c items cs = some c' ↔ readFront? c items cs = some (c', []) := by
  have happend := readItems?_append c items [] cs
  rw [List.append_nil] at happend
  rw [happend, Option.bind_eq_some_iff]
  constructor
  · rintro ⟨⟨d, rest⟩, hfront, h⟩
    cases rest with
    | nil =>
        cases h
        exact hfront
    | cons => cases h
  · intro h
    exact ⟨_, h, rfl⟩

/-- A value is read, and then the component is set to it. -/
theorem readValue_eq_some_iff {c c' : Components} {component : Component} {rest : List Char}
    {read? : Option (Int × List Char)} :
    (do
      let (value, rest) ← read?
      return (← c.set? component value, rest)) = some (c', rest) ↔
      ∃ value, read? = some (value, rest) ∧ c.set? component value = some c' := by
  simp only [Option.bind_eq_bind, Option.bind_eq_some_iff, Option.pure_def, Option.some.injEq, Prod.mk.injEq,
    Prod.exists]
  constructor
  · rintro ⟨value, _, hvalue, _, hset, rfl, rfl⟩
    exact ⟨value, hvalue, hset⟩
  · rintro ⟨value, hvalue, hset⟩
    exact ⟨value, rest, hvalue, c', hset, rfl, rfl⟩

theorem readItem?_number_eq_some_iff {c c' : Components} {component : Component} {cs rest : List Char} :
    readItem? c (.number component) cs = some (c', rest) ↔
      ∃ value, number? component (Text.trimStart cs) = some (value, rest) ∧ c.set? component value = some c' :=
  readValue_eq_some_iff

theorem readItem?_monthName_eq_some_iff {c c' : Components} {long : Bool} {cs rest : List Char} :
    readItem? c (.monthName long) cs = some (c', rest) ↔
      ∃ value, monthName? long cs 1 monthNames = some (value, rest) ∧ c.set? .month value = some c' :=
  readValue_eq_some_iff

/-- A year without a sign has four digits or less. -/
theorem number?_year_of_ne {c : Char} (hminus : c ≠ '-') (hplus : c ≠ '+') (cs : List Char) :
    number? .year (c :: cs) = digits? (some 4) (c :: cs) := by
  simp only [number?]
  split
  · next heq => exact absurd (List.cons.inj heq).1 hminus
  · next heq => exact absurd (List.cons.inj heq).1 hplus
  · rfl

/-! ### Text behind a space -/

/-- The text is empty or starts with a space. -/
def StartsBlank (cs : List Char) : Prop := ∀ c, cs.head? = some c → c = ' '

theorem startsBlank_nil : StartsBlank [] := fun _ h => nomatch h

theorem startsBlank_cons (cs : List Char) : StartsBlank (' ' :: cs) := fun _ h => (Option.some.inj h).symm

/-- An empty text has no characters of a kind in front, and a space is none of it. -/
theorem StartsBlank.takeWhile {tail : List Char} (h : StartsBlank tail) {p : Char → Bool}
    (hp : p ' ' = false) : tail.takeWhile p = [] := by
  cases tail with
  | nil => rfl
  | cons c rest =>
      cases h c rfl
      rw [List.takeWhile_cons_of_neg (by simp [hp])]

section Behind

variable {tail : List Char} (htail : StartsBlank tail)

include htail

/-- Digits end at a space. -/
theorem digits?_append (width? : Option Nat) (cs : List Char) :
    digits? width? (cs ++ tail) = (digits? width? cs).map fun (n, rest) => (n, rest ++ tail) := by
  have hrun : (cs ++ tail).takeWhile Char.isDigit = cs.takeWhile Char.isDigit := by
    rw [List.takeWhile_append]
    split
    · next hall =>
        rw [htail.takeWhile (by decide), List.append_nil, (List.takeWhile_prefix _).eq_of_length hall]
    · rfl
  have hdrop : ∀ n, n ≤ (cs.takeWhile Char.isDigit).length → (cs ++ tail).drop n = cs.drop n ++ tail :=
    fun n hn => List.drop_append_of_le_length (hn.trans (List.takeWhile_prefix _).length_le)
  unfold digits?
  rw [hrun]
  cases width? with
  | none =>
      simp only [hdrop _ (Nat.le_refl _)]
      split <;> rfl
  | some width =>
      simp only [hdrop _ (List.take_prefix width (cs.takeWhile Char.isDigit)).length_le]
      split <;> rfl

theorem number?_append (component : Component) (cs : List Char) :
    number? component (cs ++ tail) = (number? component cs).map fun (n, rest) => (n, rest ++ tail) := by
  cases component with
  | year =>
      cases cs with
      | nil =>
          -- a space is no sign
          cases tail with
          | nil => rfl
          | cons c rest =>
              cases htail c rfl
              rfl
      | cons c rest =>
          by_cases hminus : c = '-'
          · subst hminus
            simp only [List.cons_append, number?, digits?_append htail, Option.map_map]
            rfl
          · by_cases hplus : c = '+'
            · subst hplus
              exact digits?_append htail none rest
            · rw [number?_year_of_ne hminus hplus, List.cons_append, number?_year_of_ne hminus hplus]
              exact digits?_append htail (some 4) (c :: rest)
  | dayOfYear => exact digits?_append htail (some 3) cs
  | timestamp => exact digits?_append htail none cs
  | yearOfCentury | month | day | hour | halfDayHour | minute | second => exact digits?_append htail (some 2) cs

/-- A text without spaces stands in front of a space or not at all. -/
theorem takeText?_append {text : String} (htext : ' ' ∉ text.toList) (cs : List Char) :
    takeText? text (cs ++ tail) = (takeText? text cs).map (· ++ tail) := by
  unfold takeText?
  rcases Nat.lt_or_ge cs.length text.length with hshort | hlong
  · have hcs : (cs.take text.length).map Char.toLower ≠ text.toList := by
      intro h
      have hlength := congrArg List.length h
      rw [List.length_map, List.length_take, String.length_toList] at hlength
      omega
    have hmore : ((cs ++ tail).take text.length).map Char.toLower ≠ text.toList := by
      cases tail with
      | nil => rwa [List.append_nil]
      | cons c rest =>
          -- the space is among the characters that are looked at
          cases htail c rfl
          intro h
          refine htext (h ▸ List.mem_map.mpr ⟨' ', ?_, by decide⟩)
          obtain ⟨n, hn⟩ := Nat.exists_eq_add_of_lt hshort
          rw [hn, List.take_append, Nat.add_assoc, Nat.add_sub_cancel_left]
          simp
    rw [if_neg hcs, if_neg hmore]
    rfl
  · rw [List.take_append_of_le_length hlong, List.drop_append_of_le_length hlong]
    split <;> rfl

theorem monthName?_append (names : List (String × String))
    (hnames : ∀ name ∈ names, ' ' ∉ name.1.toList ∧ ' ' ∉ name.2.toList) (long : Bool) (cs : List Char)
    (number : Nat) :
    monthName? long (cs ++ tail) number names =
      (monthName? long cs number names).map fun (n, rest) => (n, rest ++ tail) := by
  induction names generalizing number with
  | nil => rfl
  | cons name names ih =>
      rw [List.forall_mem_cons] at hnames
      rw [monthName?, monthName?, takeText?_append htail hnames.1.1]
      cases takeText? name.1 cs with
      | none => exact ih hnames.2 (number + 1)
      | some rest =>
          cases long with
          | false => rfl
          | true =>
              simp only [Option.map_some, takeText?_append htail hnames.1.2, if_true]
              cases takeText? name.2 rest <;> rfl

/-- An item reads the same in front of a space. White space at the end of the text goes on behind it. -/
theorem readItem?_append {c c' : Components} {item : LayoutItem} {cs rest : List Char}
    (h : readItem? c item cs = some (c', rest)) :
    readItem? c item (cs ++ tail) = some (c', rest ++ tail) ∨
      rest = [] ∧ readItem? c item (cs ++ tail) = some (c', Text.trimStart tail) := by
  have hskip : ∀ {component value behind}, number? component (Text.trimStart cs) = some (value, behind) →
      number? component (Text.trimStart (cs ++ tail)) = some (value, behind ++ tail) := by
    intro component value behind hnumber
    have hne : ¬ (Text.trimStart cs).isEmpty := by
      intro hempty
      rw [List.isEmpty_iff.mp hempty] at hnumber
      cases component <;> cases hnumber
    have htrim : Text.trimStart (cs ++ tail) = Text.trimStart cs ++ tail :=
      (List.dropWhile_append ..).trans (if_neg hne)
    rw [htrim, number?_append htail, hnumber]
    rfl
  cases item with
  | char expected =>
      cases cs with
      | nil => cases h
      | cons d behind =>
          rw [readItem?, Option.ite_none_right_eq_some] at h
          obtain ⟨rfl, heq⟩ := h
          cases heq
          exact .inl (if_pos rfl)
  | blank =>
      cases h
      rw [readItem?, Text.trimStart, List.dropWhile_append]
      split
      · next hempty => exact .inr ⟨List.isEmpty_iff.mp hempty, rfl⟩
      · exact .inl rfl
  | number component =>
      obtain ⟨value, hvalue, hset⟩ := readItem?_number_eq_some_iff.mp h
      exact .inl (readItem?_number_eq_some_iff.mpr ⟨value, hskip hvalue, hset⟩)
  | monthName long =>
      obtain ⟨value, hvalue, hset⟩ := readItem?_monthName_eq_some_iff.mp h
      have hname := monthName?_append htail monthNames (by decide) long cs 1
      rw [hvalue] at hname
      exact .inl (readItem?_monthName_eq_some_iff.mpr ⟨value, hname, hset⟩)
  | halfDay =>
      left
      rw [readItem?] at h ⊢
      rw [takeText?_append htail (by decide), takeText?_append htail (by decide)]
      split at h
      · next hrest =>
          obtain ⟨d, hd, heq⟩ := Option.map_eq_some_iff.mp h
          cases heq
          simp [hrest, hd]
      · next ham hpm =>
          obtain ⟨d, hd, heq⟩ := Option.map_eq_some_iff.mp h
          cases heq
          simp [ham, hpm, hd]
      · cases h

end Behind

/-! ### All items -/

theorem trimStart_trimStart (cs : List Char) : Text.trimStart (Text.trimStart cs) = Text.trimStart cs :=
  List.dropWhile_idempotent ..

/-- Only white space is read from an empty text. -/
theorem readFront?_nil {c c' : Components} {items : List LayoutItem} {rest : List Char}
    (h : readFront? c items [] = some (c', rest)) : c' = c ∧ rest = [] ∧ ∀ item ∈ items, item = .blank := by
  induction items with
  | nil =>
      cases h
      exact ⟨rfl, rfl, by simp⟩
  | cons item items ih =>
      obtain ⟨d, middle, hitem, hitems⟩ := readFront?_cons_eq_some_iff.mp h
      cases item with
      | blank =>
          cases hitem
          obtain ⟨hc, hrest, hall⟩ := ih hitems
          exact ⟨hc, hrest, List.forall_mem_cons.mpr ⟨rfl, hall⟩⟩
      | number component => cases component <;> cases hitem
      | char | monthName | halfDay => cases hitem

theorem readFront?_blanks {items : List LayoutItem} (h : ∀ item ∈ items, item = .blank) (c : Components)
    (cs : List Char) : readFront? c items (Text.trimStart cs) = some (c, Text.trimStart cs) := by
  induction items with
  | nil => rfl
  | cons item items ih =>
      rw [List.forall_mem_cons] at h
      obtain ⟨rfl, hitems⟩ := h
      exact readFront?_cons_eq_some_iff.mpr
        ⟨c, Text.trimStart cs, by rw [readItem?, trimStart_trimStart], ih hitems⟩

/-- Items read the same in front of a space. White space at the end of the items goes on behind it. -/
theorem readFront?_append {tail : List Char} (htail : StartsBlank tail) {c c' : Components}
    {items : List LayoutItem} {cs rest : List Char} (h : readFront? c items cs = some (c', rest)) :
    readFront? c items (cs ++ tail) = some (c', rest ++ tail) ∨
      rest = [] ∧ readFront? c items (cs ++ tail) = some (c', Text.trimStart tail) := by
  induction items generalizing c cs with
  | nil =>
      cases h
      exact .inl rfl
  | cons item items ih =>
      obtain ⟨d, middle, hitem, hitems⟩ := readFront?_cons_eq_some_iff.mp h
      rcases readItem?_append htail hitem with hread | ⟨rfl, hread⟩
      · simp only [readFront?, hread, Option.bind_eq_bind, Option.bind_some]
        exact ih hitems
      · -- nothing but white space is left to read
        obtain ⟨rfl, rfl, hblank⟩ := readFront?_nil hitems
        exact .inr ⟨rfl, readFront?_cons_eq_some_iff.mpr ⟨_, _, hread, readFront?_blanks hblank _ _⟩⟩

/-- Items that read all of a text read it in front of white space as well. -/
theorem readItems?_append_append {c c' : Components} {items more : List LayoutItem} {cs tail : List Char}
    (h : readItems? c items cs = some c') (htail : StartsBlank tail) :
    readItems? c (items ++ .blank :: more) (cs ++ tail) = readItems? c' (.blank :: more) tail := by
  have htrim : readItems? c' (.blank :: more) (Text.trimStart tail) = readItems? c' (.blank :: more) tail := by
    rw [readItems?, readItems?, readItem?, readItem?, trimStart_trimStart]
  rw [readItems?_append]
  rcases readFront?_append htail (readItems?_eq_some_iff.mp h) with hfront | ⟨-, hfront⟩
  · rw [hfront]
    rfl
  · rw [hfront]
    exact htrim

end LogRules.Time.Layout

import LogRules.Text.Blank
import LogRules.Time.Components
import LogRules.TimeFormat

/-! # Layouts of dates

A layout is the form in which a date format is read: characters, white space and components. What a
format does not name is filled in: the layout and the text get the same ending, with the year that
is assumed, the first month, the first day, and the time 00:00. -/

namespace LogRules.Time

/-- An item of a layout. -/
inductive LayoutItem where
  | char (c : Char)
  /-- Any amount of white space. -/
  | blank
  | number (component : Component)
  /-- The first three letters of the name of a month, and the rest of it if that may follow. -/
  | monthName (long : Bool)
  /-- `am` or `pm`. -/
  | halfDay
  deriving DecidableEq, Repr, Inhabited

/-- A layout with the text that completes the input. -/
structure Layout where
  items : List LayoutItem
  /-- The items that the format does not have. -/
  suffix : List LayoutItem
  /-- What is read by these items. -/
  suffixText : String
  /-- The format is about a timestamp, which is universal time. -/
  isTimestamp : Bool
  deriving DecidableEq, Repr, Inhabited

namespace Layout

/-! ### Layout of a format -/

/-- Hour, minute and second with colons. -/
def clock : List LayoutItem :=
  [.number .hour, .char ':', .number .minute, .char ':', .number .second]

/-- The items of a specifier; `none` when it has no meaning in a date. -/
def specItems? (twelveHours : Bool) : Char → Option (List LayoutItem)
  | 'C' => some ([.number .month, .char '/', .number .day, .char '/', .number .yearOfCentury,
      .blank] ++ clock)
  | 'R' => some [.monthName true]
  | 'B' => some [.monthName false]
  | 'M' | 'G' => some [.number .month]
  | 'D' | 'F' => some [.number .day]
  | 'H' | 'N' => some [.number .hour]
  | 'I' => some [.number (if twelveHours then .halfDayHour else .hour)]
  | 'T' | 'U' => some [.number .minute]
  | 'J' => some [.number .dayOfYear]
  | 'P' | 'Q' => some [.halfDay]
  | 'S' | 'O' => some [.number .second]
  | 'Y' => some [.number .yearOfCentury]
  | 'W' => some [.number .year]
  | 'Z' => some clock
  | 'X' => some [.number .timestamp]
  | _ => none

/-- The items of a literal. -/
def literalItems (text : String) : List LayoutItem :=
  text.toList.map fun c => if Text.isBlank c then .blank else .char c

/-- The items of a format, with white space between specifiers that have nothing between them, or
the first specifier without a meaning. -/
def formatItems (twelveHours : Bool) (afterSpec : Bool) :
    TimeFormat → Except Char (List LayoutItem)
  | [] => .ok []
  | .literal text :: rest => (literalItems text ++ ·) <$> formatItems twelveHours false rest
  | .spec c :: rest =>
    match specItems? twelveHours c with
    | none => .error c
    | some items =>
      ((if afterSpec then [.blank] else []) ++ items ++ ·) <$> formatItems twelveHours true rest

/-- A specifier with one of these letters occurs in a format. -/
def hasSpec (letters : String) (f : TimeFormat) : Bool :=
  f.any fun
    | .spec c => letters.toList.contains c
    | .literal _ => false

/-- Items that a format lacks, and the text to read them from. -/
abbrev Completion := List LayoutItem × String

/-- What a format without a timestamp lacks. -/
def completions (year : Int) (f : TimeFormat) : List Completion :=
  (if hasSpec "CYW" f then [] else [([.blank, .number .year], " " ++ toString year)])
    ++ (if hasSpec "CRBMGJ" f then [] else [([.blank, .number .month], " 01")])
    ++ (if hasSpec "CDFJ" f then [] else [([.blank, .number .day], " 01")])
    ++ (if !hasSpec "CHNIZ" f then
          [([.blank, .number .hour, .char ':', .number .minute], " 00:00")]
        else if !hasSpec "CTUZ" f then [([.blank, .number .minute], " 00")]
        else [])

/-- The layout of a format, or its first specifier without a meaning. -/
def ofFormat (year : Int) (f : TimeFormat) : Except Char Layout := do
  let items ← formatItems (hasSpec "PQ" f) false f
  let isTimestamp := hasSpec "X" f
  let missing := if isTimestamp then [] else completions year f
  return { items, suffix := missing.flatMap Prod.fst
           suffixText := String.join (missing.map Prod.snd), isTimestamp }

/-! ### Reading dates -/

/-- Reads between one digit and `width` digits; no width means any number of them. -/
def digits? (width? : Option Nat) (cs : List Char) : Option (Int × List Char) :=
  let run := cs.takeWhile Char.isDigit
  let digits := match width? with
    | none => run
    | some width => run.take width
  let value := Text.digitsValue digits
  if digits.isEmpty || 0x8000000000000000 ≤ value then none
  else some (value, cs.drop digits.length)

/-- Reads the number of a component. A year of more than four digits needs a sign. -/
def number? (component : Component) (cs : List Char) : Option (Int × List Char) :=
  match component with
  | .year =>
    match cs with
    | '-' :: rest => (digits? none rest).map fun (n, rest) => (-n, rest)
    | '+' :: rest => digits? none rest
    | _ => digits? (some 4) cs
  | .dayOfYear => digits? (some 3) cs
  | .timestamp => digits? none cs
  | _ => digits? (some 2) cs

/-- The names of the months in lower case: three letters and the rest. -/
def monthNames : List (String × String) := [
  ("jan", "uary"), ("feb", "ruary"), ("mar", "ch"), ("apr", "il"), ("may", ""), ("jun", "e"),
  ("jul", "y"), ("aug", "ust"), ("sep", "tember"), ("oct", "ober"), ("nov", "ember"),
  ("dec", "ember")]

/-- Takes a text in lower case from the front of characters in any case. -/
def takeText? (text : String) (cs : List Char) : Option (List Char) :=
  if (cs.take text.length).map Char.toLower = text.toList then some (cs.drop text.length)
  else none

/-- Reads the name of a month, the first of them numbered `number`. -/
def monthName? (long : Bool) (cs : List Char) :
    (number : Nat) → List (String × String) → Option (Int × List Char)
  | _, [] => none
  | number, (short, more) :: names =>
    match takeText? short cs with
    | none => monthName? long cs (number + 1) names
    | some rest =>
      some (number, if long then (takeText? more rest).getD rest else rest)

/-- Reads an item. -/
def readItem? (c : Components) (item : LayoutItem) (cs : List Char) :
    Option (Components × List Char) :=
  match item with
  | .char expected =>
    match cs with
    | d :: rest => if d = expected then some (c, rest) else none
    | [] => none
  | .blank => some (c, Text.trimStart cs)
  | .number component => do
    let (value, rest) ← number? component (Text.trimStart cs)
    return (← c.set? component value, rest)
  | .monthName long => do
    let (value, rest) ← monthName? long cs 1 monthNames
    return (← c.set? .month value, rest)
  | .halfDay =>
    match takeText? "am" cs, takeText? "pm" cs with
    | some rest, _ => (c.setAfternoon? false).map (·, rest)
    | none, some rest => (c.setAfternoon? true).map (·, rest)
    | none, none => none

/-- Reads items, and nothing after them. -/
def readItems? (c : Components) : List LayoutItem → List Char → Option Components
  | [], cs => if cs.isEmpty then some c else none
  | item :: rest, cs => do
    let (c, cs) ← readItem? c item cs
    readItems? c rest cs

/-- Reads a date. -/
def read? (layout : Layout) (input : String) : Option Moment := do
  let c ← readItems? {} (layout.items ++ layout.suffix)
    (input.toList ++ layout.suffixText.toList)
  c.resolve?

/-- Reads a date of local time and writes it with the offset. A timestamp is universal time and
becomes local. The moment has to be in range in universal time. -/
def convert? (layout : Layout) (offset : Offset) (input : String) : Option String := do
  let m ← layout.read? input
  if layout.isTimestamp then return (m.shift offset.seconds).render offset
  else if isYear (m.shift (-offset.seconds)).date.year then return m.render offset
  else none

end Layout

end LogRules.Time

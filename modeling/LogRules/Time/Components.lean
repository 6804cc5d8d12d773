import LogRules.Time.Moment

/-! # Components of dates

The components of a date come one by one and in any order. A component that comes twice has to come
with the same value, and all of them have to fit the moment that they name together. -/

namespace LogRules.Time

/-- A component that is written as a number. -/
inductive Component where
  | year
  /-- The last two digits of a year from 1970 to 2069. -/
  | yearOfCentury
  | month
  | day
  | dayOfYear
  | hour
  /-- An hour from 1 to 12. -/
  | halfDayHour
  | minute
  | second
  /-- Seconds from the start of 1970. -/
  | timestamp
  deriving DecidableEq, Repr, Inhabited

/-- The components that are known of a date. -/
structure Components where
  year? : Option Int := none
  yearOfCentury? : Option Nat := none
  month? : Option Nat := none
  day? : Option Nat := none
  dayOfYear? : Option Nat := none
  /-- The time is after noon. -/
  afternoon? : Option Bool := none
  /-- The hours from midnight or noon. -/
  halfDayHour? : Option Nat := none
  minute? : Option Nat := none
  second? : Option Nat := none
  timestamp? : Option Int := none
  deriving DecidableEq, Repr, Inhabited

namespace Components

/-- Adds a value to what is known of a component; `none` when it is known to be another one. -/
def agree {α : Type} [DecidableEq α] (known? : Option α) (value : α) : Option (Option α) :=
  match known? with
  | none => some (some value)
  | some known => if known = value then some known? else none

/-- Adds the value of a component that lies between two bounds. -/
def agreeWithin (low high : Nat) (known? : Option Nat) (value : Int) : Option (Option Nat) :=
  if (low : Int) ≤ value && value ≤ high then agree known? value.toNat else none

/-- Adds the half of the day. -/
def setAfternoon? (c : Components) (afternoon : Bool) : Option Components := do
  return { c with afternoon? := ← agree c.afternoon? afternoon }

/-- Adds the hours from midnight or noon. -/
def setHalfDayHour? (c : Components) (hour : Nat) : Option Components := do
  return { c with halfDayHour? := ← agree c.halfDayHour? hour }

/-- Adds the value of a component. -/
def set? (c : Components) (component : Component) (value : Int) : Option Components :=
  match component with
  | .year => do
    if value < -0x80000000 || 0x80000000 ≤ value then none
    return { c with year? := ← agree c.year? value }
  | .yearOfCentury => do
    return { c with yearOfCentury? := ← agreeWithin 0 99 c.yearOfCentury? value }
  | .month => do return { c with month? := ← agreeWithin 1 12 c.month? value }
  | .day => do return { c with day? := ← agreeWithin 1 31 c.day? value }
  | .dayOfYear => do return { c with dayOfYear? := ← agreeWithin 1 366 c.dayOfYear? value }
  | .hour => do
    if 0 ≤ value && value ≤ 23 then
      (← c.setAfternoon? (12 ≤ value)).setHalfDayHour? (value.toNat % 12)
    else none
  | .halfDayHour =>
    if 1 ≤ value && value ≤ 12 then c.setHalfDayHour? (value.toNat % 12) else none
  | .minute => do return { c with minute? := ← agreeWithin 0 59 c.minute? value }
  | .second => do return { c with second? := ← agreeWithin 0 60 c.second? value }
  | .timestamp => do return { c with timestamp? := ← agree c.timestamp? value }

/-! ### The moment -/

/-- A part of a moment that is looked for. -/
inductive Found (α : Type) where
  | found (value : α)
  | missing
  /-- The components contradict each other. -/
  | impossible
  deriving DecidableEq, Repr

/-- The year. Two digits alone mean a year from 1970 to 2069; beside a full year they are its last
digits, and the year is not negative. -/
def year (c : Components) : Found Int :=
  match c.year?, c.yearOfCentury? with
  | none, none => .missing
  | some y, none => .found y
  | none, some r => .found (if r < 70 then 2000 + r else 1900 + r)
  | some y, some r => if 0 ≤ y && y % 100 == r then .found y else .impossible

/-- The date, from the month and the day or else from the day of the year. -/
def date (c : Components) : Found Date :=
  match c.year with
  | .impossible => .impossible
  | .missing => .missing
  | .found y =>
    match c.month?, c.day?, c.dayOfYear? with
    | some month, some day, _ =>
      match Date.ofMonthDay? y month day with
      | none => .impossible
      | some d => if c.dayOfYear?.all (· == d.ordinal) then .found d else .impossible
    | _, _, some ordinal =>
      match Date.ofOrdinal? y ordinal with
      | none => .impossible
      | some d =>
        if c.month?.all (· == d.month) && c.day?.all (· == d.day) then .found d else .impossible
    | _, _, none => .missing

/-- The time of day: hour, minute and second. Seconds may be missing. -/
def time? (c : Components) : Option (Nat × Nat × Nat) := do
  let afternoon ← c.afternoon?
  let hour ← c.halfDayHour?
  let minute ← c.minute?
  return (if afternoon then 12 + hour else hour, minute, c.second?.getD 0)

/-- The moment of the date and the time of day. -/
def moment? (c : Components) : Option Moment :=
  match c.date, c.time? with
  | .found d, some (hour, minute, second) => some ⟨d, hour, minute, second⟩
  | _, _ => none

/-- The components may name a moment with this timestamp. A leap second has two. -/
def fitsTimestamp (c : Components) (m : Moment) : Bool :=
  c.timestamp?.all fun t => t == m.seconds || (m.isLeap && t == m.seconds + 1)

/-- The moment of a timestamp, which all components have to fit. -/
def ofTimestamp? (c : Components) (timestamp : Int) : Option Moment := do
  let m := Moment.ofSeconds timestamp
  if !isYear m.date.year then none
  let (m, c) ←
    if c.second? = some 60 then
      if m.second = 59 then some (m, c)
      else if m.second = 0 then some (.ofSeconds (timestamp - 1), c)
      else none
    else (c.set? .second m.second).map (m, ·)
  let c ← c.set? .year m.date.year
  let c ← c.set? .dayOfYear m.date.ordinal
  let c ← c.set? .hour m.hour
  let c ← c.set? .minute m.minute
  c.moment?

/-- The moment that the components name. -/
def resolve? (c : Components) : Option Moment :=
  match c.date, c.moment? with
  | .impossible, _ => none
  | _, some m => if c.fitsTimestamp m then some m else none
  | _, none => c.timestamp?.bind c.ofTimestamp?

end Components

end LogRules.Time

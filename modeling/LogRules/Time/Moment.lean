import LogRules.Text.Decimal
import LogRules.Time.Date
import LogRules.Time.Offset

/-! # Dates with a time of day

A moment is a date with a time of day, in local or universal time. Second 60 is a leap second: it
has the number of the second before it. `render` writes a moment with the offset of its local time,
as RFC 3339 says. -/

namespace LogRules.Time

/-- A date with a time of day. -/
structure Moment where
  date : Date
  hour : Nat
  minute : Nat
  /-- The second, 60 for a leap second. -/
  second : Nat
  deriving DecidableEq, Repr, Inhabited

namespace Moment

/-- The moment is a leap second. -/
def isLeap (m : Moment) : Bool := m.second == 60

/-- The number of seconds from the start of 1970. -/
def seconds (m : Moment) : Int :=
  m.date.dayNumber * 86400 + (m.hour * 3600 + m.minute * 60 + min m.second 59 : Nat)

/-- The moment of a number of seconds. -/
def ofSeconds (n : Int) : Moment :=
  let time := (Int.fmod n 86400).toNat
  ⟨.ofDayNumber (Int.fdiv n 86400), time / 3600, time / 60 % 60, time % 60⟩

/-- The moment some seconds later. A leap second stays one. -/
def shift (m : Moment) (n : Int) : Moment :=
  let later := ofSeconds (m.seconds + n)
  if m.isLeap then { later with second := later.second + 1 } else later

/-- The year, with a sign unless it has four digits and none is needed. -/
def yearText (year : Int) : String :=
  if 0 ≤ year && year ≤ 9999 then Text.padded 4 year.toNat
  else (if year < 0 then "-" else "+") ++ Text.padded 4 year.natAbs

/-- The text of a moment of local time. -/
def render (m : Moment) (offset : Offset) : String :=
  yearText m.date.year ++ "-" ++ Text.padded 2 m.date.month ++ "-" ++ Text.padded 2 m.date.day
    ++ "T" ++ Text.padded 2 m.hour ++ ":" ++ Text.padded 2 m.minute ++ ":"
    ++ Text.padded 2 m.second ++ offset.render

end Moment

end LogRules.Time

/-! # The calendar

Dates of the Gregorian calendar, extended to the past and with a year zero. A date is known by its
month and day, by its place in the year, and by its day number, which counts days from the first
day of 1970. -/

namespace LogRules.Time

/-- A calendar date. -/
structure Date where
  year : Int
  month : Nat
  day : Nat
  deriving DecidableEq, Repr, Inhabited

/-- The year has 366 days. -/
def isLeapYear (year : Int) : Bool :=
  year % 4 == 0 && (year % 100 != 0 || year % 400 == 0)

/-- The numbers of days of the months of a year. -/
def monthLengths (year : Int) : List Nat :=
  [31, if isLeapYear year then 29 else 28, 31, 30, 31, 30, 31, 31, 30, 31, 30, 31]

/-- The years that dates may have. -/
def isYear (year : Int) : Bool := -262143 ≤ year && year ≤ 262142

namespace Date

/-- The date of a month and a day, if there is one. -/
def ofMonthDay? (year : Int) (month day : Nat) : Option Date := do
  if !isYear year || month = 0 then none
  let length ← (monthLengths year)[month - 1]?
  if day = 0 || length < day then none else some ⟨year, month, day⟩

/-- The month and the day at a place, counted from one, in months that start with `month`. -/
def monthDayAt? (month : Nat) : List Nat → Nat → Option (Nat × Nat)
  | [], _ => none
  | length :: rest, place =>
    if place ≤ length then some (month, place) else monthDayAt? (month + 1) rest (place - length)

/-- The date at a place of a year, counted from one. -/
def atPlace? (year : Int) (place : Nat) : Option Date :=
  if place = 0 then none
  else (monthDayAt? 1 (monthLengths year) place).map fun (month, day) => ⟨year, month, day⟩

/-- The date at a place of a year that dates may have. -/
def ofOrdinal? (year : Int) (ordinal : Nat) : Option Date :=
  if isYear year then atPlace? year ordinal else none

/-- The place of a date in its year, counted from one. -/
def ordinal (d : Date) : Nat := ((monthLengths d.year).take (d.month - 1)).foldl (· + ·) d.day

/-- The number of days before a year, counted from the first day of 1970. -/
def daysBefore (year : Int) : Int :=
  let last := year - 1
  365 * year + Int.fdiv last 4 - Int.fdiv last 100 + Int.fdiv last 400 - 719527

/-- The day number of a date. -/
def dayNumber (d : Date) : Int := daysBefore d.year + d.ordinal - 1

/-- The year that holds a day number. Four hundred years have 146097 days, which gives the year up
to one. -/
def yearOf (number : Int) : Int :=
  let guess := Int.fdiv ((number + 719528) * 400) 146097
  if number < daysBefore guess then guess - 1
  else if daysBefore (guess + 1) ≤ number then guess + 1
  else guess

/-- The date of a day number. -/
def ofDayNumber (number : Int) : Date :=
  let year := yearOf number
  (atPlace? year (number - daysBefore year + 1).toNat).getD ⟨year, 1, 1⟩

end Date

end LogRules.Time

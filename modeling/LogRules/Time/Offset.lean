import LogRules.Text.Decimal

/-! # Offsets of local time

The offset of a time zone is a number of seconds east of universal time, less than a day. In text
it is `UTC`, `Z`, or a sign with two digits of hours and two of minutes; colons may stand between
them and mean nothing. -/

namespace LogRules.Time

/-- An offset from universal time. -/
structure Offset where
  /-- Seconds to the east. -/
  seconds : Int
  deriving DecidableEq, Repr, Inhabited

namespace Offset

/-- Universal time. -/
def utc : Offset := ⟨0⟩

/-- The offset of hours and minutes. -/
def ofParts? (negative : Bool) (hours minutes : Nat) : Option Offset :=
  if 24 ≤ hours || 60 ≤ minutes then none
  else
    let seconds : Int := hours * 3600 + minutes * 60
    some ⟨if negative then -seconds else seconds⟩

/-- Reads the hours and minutes after the sign. -/
def readDigits? (negative : Bool) (cs : List Char) : Option Offset :=
  let digits := cs.filter (· != ':')
  if digits.length = 4 then do
    let hours ← Text.natural? (digits.take 2)
    let minutes ← Text.natural? (digits.drop 2)
    ofParts? negative hours minutes
  else none

/-- Reads an offset. -/
def ofText? (s : String) : Option Offset :=
  if s.toLower = "utc" || s = "Z" then some utc
  else match s.toList with
    | '+' :: rest => readDigits? false rest
    | '-' :: rest => readDigits? true rest
    | _ => none

/-- The offset as a sign, hours and minutes. -/
def render (o : Offset) : String :=
  let minutes := o.seconds.natAbs / 60
  (if o.seconds < 0 then "-" else "+") ++ Text.padded 2 (minutes / 60) ++ ":"
    ++ Text.padded 2 (minutes % 60)

end Offset

end LogRules.Time

/-! # Decimal numbers

Numbers are runs of ASCII digits. Signed readers take one sign in front, and every reader refuses
a number outside of its range. -/

namespace LogRules.Text

/-- The value of an ASCII digit. -/
def digitValue (c : Char) : Nat := c.toNat - '0'.toNat

/-- The number written by a list of digits. -/
def digitsValue (cs : List Char) : Nat := cs.foldl (fun n c => n * 10 + digitValue c) 0

/-- Reads a non-empty run of digits and nothing else. -/
def natural? (cs : List Char) : Option Nat :=
  if !cs.isEmpty && cs.all Char.isDigit then some (digitsValue cs) else none

/-- Reads a natural number up to `max`; one plus sign may stand in front. -/
def bounded? (max : Nat) (cs : List Char) : Option Nat :=
  let digits := match cs with
    | '+' :: rest => rest
    | _ => cs
  (natural? digits).filter (· ≤ max)

/-- Reads a signed number of 64 bits; one sign may stand in front. -/
def int64? (cs : List Char) : Option Int :=
  let value : Option Int := match cs with
    | '-' :: rest => (natural? rest).map fun n => -(n : Int)
    | '+' :: rest => (natural? rest).map Int.ofNat
    | _ => (natural? cs).map Int.ofNat
  value.filter fun n => -0x8000000000000000 ≤ n && n < 0x8000000000000000

/-- The signed number of 64 bits that is congruent to `n` modulo 2^64. -/
def wrap64 (n : Int) : Int := Int.bmod n 0x10000000000000000

/-- Decimal text with at least `width` digits, filled with zeros in front. -/
def padded (width n : Nat) : String :=
  let digits := toString n
  String.ofList (List.replicate (width - digits.length) '0') ++ digits

end LogRules.Text

import LogRules.TimeFormat

/-! # Durations

A duration format is a list of multipliers, one for each number of the text: the number of seconds
that it counts. What stands between the numbers means nothing. Results end at the greatest number of
64 bits. -/

namespace LogRules.Time

/-- The greatest number of seconds. -/
def maxSeconds : Nat := 0x7FFFFFFFFFFFFFFF

/-- The seconds that a specifier counts, one number for each number that it reads; `none` when it
has no meaning in a duration. -/
def multipliers? : Char → Option (List Nat)
  | 'M' | 'G' => some [30 * 86400]
  | 'D' | 'J' | 'A' => some [86400]
  | 'F' | 'H' | 'I' | 'N' => some [3600]
  | 'T' | 'U' => some [60]
  | 'S' | 'O' => some [1]
  | 'Z' => some [3600, 60, 1]
  | _ => none

/-- The multipliers of a format, or its first specifier without a meaning. -/
def multipliersOf : TimeFormat → Except Char (List Nat)
  | [] => .ok []
  | .literal _ :: rest => multipliersOf rest
  | .spec c :: rest =>
    match multipliers? c with
    | none => .error c
    | some ms => (ms ++ ·) <$> multipliersOf rest

/-- The sum of two numbers, up to the greatest number. -/
def addCapped (a b : Nat) : Nat := min maxSeconds (a + b)

/-- The product of two numbers, up to the greatest number. -/
def mulCapped (a b : Nat) : Nat := min maxSeconds (a * b)

/-- Adds a digit to a number. -/
def addDigit (n : Nat) (c : Char) : Nat :=
  addCapped (mulCapped n 10) (c.toNat - '0'.toNat)

/-- The numbers of a text: `number?` is the one that is being read. -/
def numbersFrom (number? : Option Nat) : List Char → List Nat
  | [] => number?.toList
  | c :: rest =>
    if c.isDigit then numbersFrom (some (addDigit (number?.getD 0) c)) rest
    else number?.toList ++ numbersFrom none rest

/-- The numbers of a text. -/
def numbers (s : String) : List Nat := numbersFrom none s.toList

/-- The sum of multiplied numbers; `none` when there are too few numbers. -/
def totalFrom? (total : Nat) : List Nat → List Nat → Option Nat
  | [], _ => some total
  | _ :: _, [] => none
  | m :: ms, n :: ns => totalFrom? (addCapped total (mulCapped n m)) ms ns

/-- The seconds of a text by the first format that has no more multipliers than the text has
numbers. -/
def duration? (formats : List (List Nat)) (s : String) : Option Nat :=
  formats.findSome? fun ms => totalFrom? 0 ms (numbers s)

end LogRules.Time

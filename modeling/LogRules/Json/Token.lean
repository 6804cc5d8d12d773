import LogRules.Json.Basic
import LogRules.Text.Decimal
import LogRules.Text.Utf8

/-! # Tokens of JSON text

A text is cut into tokens up to its end or to the first place where no token can go on. There are
two ways to take a token: to read it, or to skip it without looking at its value. Skipping forgives
what only spoils the value: half of a surrogate pair, or a number beyond the range of a float. So a
token keeps the fault that only reading meets. -/

namespace LogRules.Json

/-- Why a text is refused. -/
inductive Fault where
  /-- The text is no JSON. -/
  | malformed
  /-- The text ends too early. -/
  | ended
  /-- A value is not of the kind that is asked for. -/
  | mismatch
  deriving DecidableEq, Repr, Inhabited

/-- The value of a number, as far as a reader of integers needs it. -/
inductive Numeral where
  | integer (n : Int)
  /-- A number with a fraction or an exponent, or negative zero. -/
  | fraction
  /-- A number beyond the range of a float. -/
  | tooLarge
  deriving DecidableEq, Repr, Inhabited

/-- A token of JSON text. -/
inductive Token where
  | openBrace
  | closeBrace
  | openBracket
  | closeBracket
  | comma
  | colon
  | null
  | bool (b : Bool)
  | number (n : Numeral)
  /-- A closed string, with its text or with the fault that reading meets. -/
  | string (text : Except Fault String)
  /-- A string that cannot be taken, with the faults of reading and of skipping. -/
  | brokenString (read skip : Fault)
  /-- Anything else that cannot be taken, with the faults of reading and of skipping. -/
  | broken (read skip : Fault)
  deriving Inhabited

namespace Token

/-- White space between tokens. -/
def isGap (c : Char) : Bool := c == ' ' || c == '\t' || c == '\n' || c == '\r'

/-! ### Numbers -/

/-- The number with 53 binary digits that is nearest to a number; of two that are equally near, the
one with an even last digit. -/
def nearestFloat (n : Nat) : Nat :=
  let unit := Nat.pow 2 (n.log2 - 52)
  let quotient := n / unit
  let twice := 2 * (n % unit)
  let isUp := unit < twice || (unit = twice && quotient % 2 = 1)
  (if isUp then quotient + 1 else quotient) * unit

/-- The number `significand · 10^exponent` is beyond the range of a float when it is computed as a
product of floats. Powers of ten are known up to 308. -/
def overflows (significand : Nat) (exponent : Int) : Bool :=
  if significand = 0 || exponent < 0 then false
  else if 308 < exponent then true
  else
    let product := nearestFloat significand * nearestFloat (Nat.pow 10 exponent.toNat)
    Nat.pow 2 1024 ≤ nearestFloat product

/-- The digits of a number as far as they fit 64 bits, and the power of ten that stands for the
others. -/
structure Decimal where
  significand : Nat
  scale : Int
  deriving DecidableEq, Repr, Inhabited

/-- Adds a digit that fits. -/
def addDigit? (n : Nat) (c : Char) : Option Nat :=
  let m := n * 10 + (c.toNat - '0'.toNat)
  if m < 0x10000000000000000 then some m else none

/-- Adds the digits in front of the point. Digits that do not fit only scale the number. -/
def Decimal.ofWhole : Nat → List Char → Decimal
  | n, [] => ⟨n, 0⟩
  | n, c :: rest =>
    match addDigit? n c with
    | some m => ofWhole m rest
    | none => ⟨n, (c :: rest).length⟩

/-- Adds the digits behind the point. Digits that do not fit are dropped. -/
def Decimal.addFraction (d : Decimal) : List Char → Decimal
  | [] => d
  | c :: rest =>
    match addDigit? d.significand c with
    | some m => addFraction ⟨m, d.scale - 1⟩ rest
    | none => d

/-- The number is beyond the range of a float, with a power of ten. -/
def Decimal.isTooLarge (d : Decimal) (exponent : Int) : Bool :=
  overflows d.significand (d.scale + exponent)

/-- Digits that are missing: the text ends there, or something else stands there. -/
def missingDigits (rest : List Char) : Token :=
  if rest.isEmpty then .broken .ended .malformed else .broken .malformed .malformed

/-- The value of an integer literal. -/
def integerValue (negative : Bool) (digits : List Char) : Numeral :=
  let n := Text.digitsValue digits
  if (Decimal.ofWhole 0 digits).isTooLarge 0 then .tooLarge
  else if negative && n == 0 then .fraction
  else .integer (if negative then -(n : Int) else n)

/-- The exponent of a number after its letter, with what follows it; `none` without digits. -/
def exponent? (cs : List Char) : Option (Int × List Char) :=
  let (negative, rest) := match cs with
    | '-' :: rest => (true, rest)
    | '+' :: rest => (false, rest)
    | _ => (false, cs)
  let digits := rest.takeWhile Char.isDigit
  if digits.isEmpty then none
  else
    let n : Int := Text.digitsValue digits
    some (if negative then -n else n, rest.dropWhile Char.isDigit)

/-- A number whose digits before the exponent are read. -/
def numberAfter (d : Decimal) (cs : List Char) : Token × List Char :=
  let value (exponent : Int) : Token :=
    .number (if d.isTooLarge exponent then .tooLarge else .fraction)
  let isLetter := match cs with
    | 'e' :: _ => true
    | 'E' :: _ => true
    | _ => false
  if isLetter then
    match exponent? cs.tail with
    | some (exponent, rest) => (value exponent, rest)
    | none =>
      let rest := match cs.tail with
        | '-' :: rest => rest
        | '+' :: rest => rest
        | rest => rest
      (missingDigits rest, [])
  else (value 0, cs)

/-- A number after its sign, with what follows it. -/
def lexNumber (negative : Bool) (cs : List Char) : Token × List Char :=
  let whole := cs.takeWhile Char.isDigit
  let rest := cs.dropWhile Char.isDigit
  if whole.isEmpty then (missingDigits cs, [])
  else if whole.length > 1 && whole.head? == some '0' then (.broken .malformed .malformed, [])
  else match rest with
    | '.' :: more =>
      let digits := more.takeWhile Char.isDigit
      let after := more.dropWhile Char.isDigit
      if digits.isEmpty then (missingDigits after, [])
      else numberAfter ((Decimal.ofWhole 0 whole).addFraction digits) after
    | 'e' :: _ => numberAfter (Decimal.ofWhole 0 whole) rest
    | 'E' :: _ => numberAfter (Decimal.ofWhole 0 whole) rest
    | _ => (.number (integerValue negative whole), rest)

/-! ### Strings -/

/-- The value of a hexadecimal digit. -/
def hexValue? (c : Char) : Option Nat :=
  if c.isDigit then some (c.toNat - '0'.toNat)
  else if 'a' ≤ c && c ≤ 'f' then some (c.toNat - 'a'.toNat + 10)
  else if 'A' ≤ c && c ≤ 'F' then some (c.toNat - 'A'.toNat + 10)
  else none

/-- The number written by four hexadecimal digits. -/
def hexNumber? (digits : List Char) : Option Nat :=
  digits.foldlM (fun n c => (hexValue? c).map (n * 16 + ·)) 0

/-- The character that a letter stands for after a backslash. -/
def simpleEscape? (c : Char) : Option Char :=
  if c = '"' || c = '\\' || c = '/' then some c
  else if c = 'b' then some '\x08'
  else if c = 'f' then some '\x0c'
  else if c = 'n' then some '\n'
  else if c = 'r' then some '\r'
  else if c = 't' then some '\t'
  else none

/-- The part of a string that is read: its characters in reverse, or the fault that was met, and
the first half of a surrogate pair that waits for the second. -/
structure Pending where
  text : Except Fault (List Char)
  high : Option Nat

namespace Pending

/-- Nothing is read yet. -/
def start : Pending := ⟨.ok [], none⟩

/-- Keeps the first fault. -/
def fail (p : Pending) : Pending := ⟨p.text.bind fun _ => .error .malformed, none⟩

/-- Adds a character. Half of a surrogate pair must not wait. -/
def push (p : Pending) (c : Char) : Pending :=
  match p.high with
  | some _ => p.fail
  | none => ⟨(c :: ·) <$> p.text, none⟩

/-- Adds a unit of UTF-16. -/
def pushUnit (p : Pending) (unit : Nat) : Pending :=
  let isHigh := 0xD800 ≤ unit && unit ≤ 0xDBFF
  let isLow := 0xDC00 ≤ unit && unit ≤ 0xDFFF
  match p.high with
  | some high =>
    if isLow then
      let c := Char.ofNat ((high - 0xD800) * 0x400 + (unit - 0xDC00) + 0x10000)
      ⟨(c :: ·) <$> p.text, none⟩
    else p.fail
  | none =>
    if isHigh then ⟨p.text, some unit⟩
    else if isLow then p.fail
    else ⟨(Char.ofNat unit :: ·) <$> p.text, none⟩

/-- The text of a string that is closed. -/
def finish (p : Pending) : Except Fault String :=
  match p.high with
  | some _ => p.fail.text.map fun cs => String.ofList cs.reverse
  | none => p.text.map fun cs => String.ofList cs.reverse

/-- The token of a string that breaks with a fault. -/
def broken (p : Pending) (fault : Fault) : Token :=
  .brokenString (match p.text with
    | .ok _ => fault
    | .error first => first) fault

end Pending

/-- A string after its opening quote, with what follows it. -/
def lexString (p : Pending) : List Char → Token × List Char
  | [] => (p.broken .ended, [])
  | '"' :: rest => (.string p.finish, rest)
  | ['\\'] => (p.broken .ended, [])
  | '\\' :: 'u' :: a :: b :: c :: d :: rest =>
    match hexNumber? [a, b, c, d] with
    | some unit => lexString (p.pushUnit unit) rest
    | none =>
      let isShort := Text.byteLength (a :: b :: c :: d :: rest) < 4
      (p.broken (if isShort then .ended else .malformed), [])
  | '\\' :: 'u' :: rest =>
    (p.broken (if Text.byteLength rest < 4 then .ended else .malformed), [])
  | '\\' :: c :: rest =>
    match simpleEscape? c with
    | some escaped => lexString (p.push escaped) rest
    | none => (p.broken .malformed, [])
  | c :: rest =>
    if c.toNat < 0x20 then (p.broken .malformed, []) else lexString (p.push c) rest

/-! ### All tokens -/

/-- The rest of a word such as `null`, with what follows it. -/
def lexWord (token : Token) : List Char → List Char → Token × List Char
  | [], rest => (token, rest)
  | _ :: _, [] => (.broken .ended .ended, [])
  | w :: word, c :: rest =>
    if w = c then lexWord token word rest else (.broken .malformed .malformed, [])

/-- The token that starts with a character, with what follows it. -/
def lexOne (c : Char) (rest : List Char) : Token × List Char :=
  if c = '\x7b' then (.openBrace, rest)
  else if c = '\x7d' then (.closeBrace, rest)
  else if c = '[' then (.openBracket, rest)
  else if c = ']' then (.closeBracket, rest)
  else if c = ',' then (.comma, rest)
  else if c = ':' then (.colon, rest)
  else if c = 'n' then lexWord .null "ull".toList rest
  else if c = 't' then lexWord (.bool true) "rue".toList rest
  else if c = 'f' then lexWord (.bool false) "alse".toList rest
  else if c = '"' then lexString .start rest
  else if c = '-' then lexNumber true rest
  else if c.isDigit then lexNumber false (c :: rest)
  else (.broken .malformed .malformed, [])

/-- The first tokens of a text, at most as many as `bound`. -/
def lexUpTo : Nat → List Char → List Token
  | 0, _ => []
  | _, [] => []
  | bound + 1, c :: rest =>
    if isGap c then lexUpTo bound rest
    else
      let (token, rest) := lexOne c rest
      token :: lexUpTo bound rest

/-- The tokens of a text. A token or a gap takes at least one character. -/
def ofText (text : String) : List Token := lexUpTo text.length text.toList

/-! ### Tokens of a value -/

/-- The token of a number literal. -/
def ofLiteral (literal : String) : Token :=
  match literal.toList with
  | '-' :: rest => (lexNumber true rest).1
  | cs => (lexNumber false cs).1

mutual
/-- The tokens of a value. -/
def ofValue : Json → List Token
  | .null => [.null]
  | .bool b => [.bool b]
  | .number literal => [ofLiteral literal]
  | .string s => [.string (.ok s)]
  | .array elements => .openBracket :: ofElements true elements ++ [.closeBracket]
  | .object members => .openBrace :: ofMembers true members ++ [.closeBrace]

/-- The tokens of elements; a comma stands before all but the first. -/
def ofElements (first : Bool) : List Json → List Token
  | [] => []
  | v :: rest => (if first then [] else [.comma]) ++ ofValue v ++ ofElements false rest

/-- The tokens of members; a comma stands before all but the first. -/
def ofMembers (first : Bool) : List (String × Json) → List Token
  | [] => []
  | (name, v) :: rest =>
    (if first then [] else [.comma]) ++ .string (.ok name) :: .colon :: ofValue v
      ++ ofMembers false rest
end

end Token

end LogRules.Json

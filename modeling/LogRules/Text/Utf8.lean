/-! # Text as bytes

`encode` writes a text in UTF-8 and `byteLength` counts its bytes. `decode` reads any bytes: every
longest run of bytes that begins a character and cannot be continued is replaced by one U+FFFD. -/

namespace LogRules.Text

/-- The number of bytes of a text in UTF-8. -/
def byteLength : List Char → Nat
  | [] => 0
  | c :: cs => c.utf8Size + byteLength cs

@[simp] theorem byteLength_nil : byteLength [] = 0 := rfl

@[simp] theorem byteLength_cons (c : Char) (cs : List Char) :
    byteLength (c :: cs) = c.utf8Size + byteLength cs := rfl

@[simp] theorem byteLength_append (cs ds : List Char) :
    byteLength (cs ++ ds) = byteLength cs + byteLength ds := by
  induction cs with
  | nil => simp
  | cons c cs ih => simp [ih, Nat.add_assoc]

/-- The bytes of a list of characters in UTF-8. -/
def encodeChars (cs : List Char) : List UInt8 := cs.flatMap String.utf8EncodeChar

/-- The bytes of a text in UTF-8. -/
def encode (s : String) : List UInt8 := encodeChars s.toList

@[simp] theorem encodeChars_append (cs ds : List Char) :
    encodeChars (cs ++ ds) = encodeChars cs ++ encodeChars ds := by
  simp [encodeChars]

theorem length_encodeChars (cs : List Char) : (encodeChars cs).length = byteLength cs := by
  induction cs with
  | nil => rfl
  | cons c cs ih =>
    simp only [encodeChars, List.flatMap_cons, List.length_append, String.length_utf8EncodeChar,
      byteLength_cons] at ih ⊢
    omega

/-! ### Reading bytes -/

/-- A byte that continues a character. -/
def isContinuation (b : UInt8) : Bool := 0x80 ≤ b && b ≤ 0xBF

/-- The byte `b` may follow the first byte `a` of a character of several bytes. This rules out
overlong forms, surrogates and code points above U+10FFFF. -/
def fitsSecond (a b : UInt8) : Bool :=
  if a = 0xE0 then 0xA0 ≤ b && b ≤ 0xBF
  else if a = 0xED then 0x80 ≤ b && b ≤ 0x9F
  else if a = 0xF0 then 0x90 ≤ b && b ≤ 0xBF
  else if a = 0xF4 then 0x80 ≤ b && b ≤ 0x8F
  else isContinuation b

/-- The bits that a continuation byte adds. -/
def continuationBits (b : UInt8) : Nat := b.toNat % 64

/-- The character that stands for bytes which are no text. -/
def replacement : Char := '\uFFFD'

/-- The first character of `a :: rest`, with the number of bytes it takes from `rest`. -/
def decodeFirst (a : UInt8) (rest : List UInt8) : Char × Nat :=
  if a < 0x80 then (Char.ofNat a.toNat, 0)
  else if a < 0xC2 || 0xF4 < a then (replacement, 0)
  else match rest with
    | [] => (replacement, 0)
    | b :: rest =>
      if !fitsSecond a b then (replacement, 0)
      else if a < 0xE0 then (Char.ofNat (a.toNat % 32 * 64 + continuationBits b), 1)
      else match rest with
        | [] => (replacement, 1)
        | c :: rest =>
          if !isContinuation c then (replacement, 1)
          else if a < 0xF0 then
            (Char.ofNat ((a.toNat % 16 * 64 + continuationBits b) * 64 + continuationBits c), 2)
          else match rest with
            | [] => (replacement, 2)
            | d :: _ =>
              if !isContinuation d then (replacement, 2)
              else
                let high := (a.toNat % 8 * 64 + continuationBits b) * 64 + continuationBits c
                (Char.ofNat (high * 64 + continuationBits d), 3)

/-- The characters of any bytes, with U+FFFD for what is no text. -/
def decodeChars : List UInt8 → List Char
  | [] => []
  | a :: rest =>
    let first := decodeFirst a rest
    first.1 :: decodeChars (rest.drop first.2)
termination_by bytes => bytes.length
decreasing_by simp only [List.length_cons, List.length_drop]; omega

/-- The text of any bytes, with U+FFFD for what is no text. -/
def decode (bytes : List UInt8) : String := String.ofList (decodeChars bytes)

/-- The text of bytes in UTF-8; `none` when they are no text. -/
def decode? (bytes : List UInt8) : Option String :=
  let text := decode bytes
  if encode text = bytes then some text else none

end LogRules.Text

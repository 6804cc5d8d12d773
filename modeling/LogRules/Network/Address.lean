import LogRules.Text.Decimal

/-! # Internet addresses

An address of version 4 is four decimal octets with dots between them, without needless zeros. An
address of version 6 is eight groups of hexadecimal digits with colons between them; two colons
stand for one run of zero groups, and the last two groups may be written as an address of
version 4. -/

namespace LogRules.Network

/-- An internet address. -/
inductive Address where
  | v4 (bits : BitVec 32)
  | v6 (bits : BitVec 128)
  deriving DecidableEq, Repr, Inhabited

/-! ### Numbers -/

/-- The value of a hexadecimal digit. -/
def hexValue (c : Char) : Nat :=
  if c.isDigit then c.toNat - '0'.toNat else (c.toLower.toNat - 'a'.toNat) + 10

/-- The character is a hexadecimal digit. -/
def isHexDigit (c : Char) : Bool :=
  c.isDigit || ('a' ≤ c && c ≤ 'f') || ('A' ≤ c && c ≤ 'F')

/-- Reads an octet: up to three digits, with no zero in front, up to 255. -/
def octet? (cs : List Char) : Option (Nat × List Char) :=
  let digits := cs.takeWhile Char.isDigit
  let value := Text.digitsValue digits
  if digits.isEmpty || 3 < digits.length || 255 < value then none
  else if digits.head? = some '0' && 1 < digits.length then none
  else some (value, cs.drop digits.length)

/-- Reads a group: up to four hexadecimal digits. -/
def group? (cs : List Char) : Option (Nat × List Char) :=
  let digits := cs.takeWhile isHexDigit
  if digits.isEmpty || 4 < digits.length then none
  else some (digits.foldl (fun n c => n * 16 + hexValue c) 0, cs.drop digits.length)

/-- Takes one character from the front. -/
def char? (c : Char) : List Char → Option (List Char)
  | d :: rest => if d = c then some rest else none
  | [] => none

/-! ### Version 4 -/

/-- Reads four octets as two groups. -/
def octets? (cs : List Char) : Option ((Nat × Nat) × List Char) := do
  let (a, cs) ← octet? cs
  let (b, cs) ← octet? (← char? '.' cs)
  let (c, cs) ← octet? (← char? '.' cs)
  let (d, cs) ← octet? (← char? '.' cs)
  return ((a * 256 + b, c * 256 + d), cs)

/-! ### Version 6 -/

/-- Some groups, and whether they end with an address of version 4. -/
structure Groups where
  groups : List Nat
  mixed : Bool
  deriving DecidableEq, Repr, Inhabited

/-- Reads at most `limit` groups. A colon stands in front of every group but the first. -/
def groups (first : Bool) : (limit : Nat) → List Char → Groups × List Char
  | 0, cs => (⟨[], false⟩, cs)
  | limit + 1, cs =>
    let start? := if first then some cs else char? ':' cs
    match if limit = 0 then none else start?.bind octets? with
    | some ((high, low), rest) => (⟨[high, low], true⟩, rest)
    | none =>
      match start?.bind group? with
      | none => (⟨[], false⟩, cs)
      | some (g, rest) =>
        let (more, rest) := groups false limit rest
        (⟨g :: more.groups, more.mixed⟩, rest)

/-- The number written by groups, the first one highest. -/
def groupsValue (gs : List Nat) : Nat := gs.foldl (fun n g => n * 65536 + g) 0

/-- Reads eight groups, some of them behind two colons. -/
def eightGroups? (cs : List Char) : Option (List Nat × List Char) :=
  let (head, rest) := groups true 8 cs
  if head.groups.length = 8 then some (head.groups, rest)
  else if head.mixed then none
  else do
    let rest ← char? ':' (← char? ':' rest)
    let (tail, rest) := groups true (7 - head.groups.length) rest
    let zeros := 8 - head.groups.length - tail.groups.length
    return (head.groups ++ List.replicate zeros 0 ++ tail.groups, rest)

namespace Address

/-- Reads an address and nothing else. -/
def ofText? (s : String) : Option Address :=
  match octets? s.toList with
  | some ((high, low), []) => some (.v4 (BitVec.ofNat 32 (high * 65536 + low)))
  | some (_, _ :: _) => none
  | none =>
    match eightGroups? s.toList with
    | some (gs, []) => some (.v6 (BitVec.ofNat 128 (groupsValue gs)))
    | _ => none

/-- The number of bits of an address. -/
def width : Address → Nat
  | v4 _ => 32
  | v6 _ => 128

end Address

end LogRules.Network

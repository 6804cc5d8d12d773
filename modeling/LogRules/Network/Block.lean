import LogRules.Network.Address
import LogRules.Text.Blank
import LogRules.Text.Split

/-! # Networks

A network is written as an address and the number of leading bits that its members share with it,
with a slash between them. Without a number it has one member. -/

namespace LogRules.Network

/-- Shifts to the left. A shift by the whole width or more overflows. -/
def shiftLeft? {w : Nat} (x : BitVec w) (n : Nat) : Option (BitVec w) :=
  if n < w then some (x <<< n) else none

/-- The mask of the first `count` of `w` bits. The shift overflows when no bit is left. -/
def mask (w count : Nat) : BitVec w := (shiftLeft? (BitVec.allOnes w) (w - count)).getD 0

/-- A network. -/
structure Block where
  address : Address
  /-- The number of bits that count. -/
  bits : Nat
  deriving DecidableEq, Repr, Inhabited

namespace Block

/-- The address is in the network. -/
def contains (block : Block) (address : Address) : Bool :=
  match block.address, address with
  | .v4 a, .v4 b => a &&& mask 32 block.bits == b &&& mask 32 block.bits
  | .v6 a, .v6 b => a &&& mask 128 block.bits == b &&& mask 128 block.bits
  | _, _ => false

/-- Reads a network. White space may stand around the address and the number. -/
def ofText? (s : String) : Option Block := do
  let (front, count?) := match Text.splitFirst? '/' s.toList with
    | some (front, count) => (front, some count)
    | none => (s.toList, none)
  let address ← Address.ofText? (String.ofList (Text.trim front))
  match count? with
  | none => return ⟨address, address.width⟩
  | some count =>
    let bits ← Text.bounded? 255 (Text.trim count)
    if address.width < bits then none else return ⟨address, bits⟩

end Block

end LogRules.Network

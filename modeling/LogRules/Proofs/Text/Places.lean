import LogRules.LexError
import LogRules.Text.Utf8

/-! # Places in a text

A place of a text is the byte offset of one of its characters, or of its end. An error blames what
stands behind its place. It relays the error of a piece of the text when it blames the same character, seen
from the whole text (`LexError.Relays`). -/

namespace LogRules

namespace Text

/-- The number is a place of a text whose first byte is at `start`. -/
def IsPlace (start : Nat) (cs : List Char) (n : Nat) : Prop :=
  ∃ before after, cs = before ++ after ∧ n = start + byteLength before

theorem isPlace_start (start : Nat) (cs : List Char) : IsPlace start cs start :=
  ⟨[], cs, rfl, rfl⟩

theorem isPlace_stop (start : Nat) (cs : List Char) : IsPlace start cs (start + byteLength cs) :=
  ⟨cs, [], (List.append_nil cs).symm, rfl⟩

/-- A place of the rest of a text. -/
theorem IsPlace.behind {start n : Nat} (front : List Char) {rest : List Char}
    (h : IsPlace (start + byteLength front) rest n) : IsPlace start (front ++ rest) n := by
  obtain ⟨before, after, rfl, rfl⟩ := h
  refine ⟨front ++ before, after, (List.append_assoc ..).symm, ?_⟩
  rw [byteLength_append, Nat.add_assoc]

/-- A place of the front of a text. -/
theorem IsPlace.append {start n : Nat} {cs : List Char} (h : IsPlace start cs n) (rest : List Char) :
    IsPlace start (cs ++ rest) n := by
  obtain ⟨before, after, rfl, rfl⟩ := h
  exact ⟨before, after ++ rest, List.append_assoc .., rfl⟩

/-- A character of ASCII takes one byte. -/
@[simp] theorem utf8Size_eq_one {c : Char} (h : c.toNat < 0x80) : c.utf8Size = 1 := by
  rw [Char.utf8Size_eq_one_iff, UInt32.le_iff_toNat_le]
  exact Nat.le_of_lt_succ h

end Text

namespace LexError

open Text

/-- The error blames `rest`, the end of the text: its first character, or the end of the text when
nothing is left. -/
def Blames (e : LexError) (cs rest : List Char) : Prop :=
  ∃ before, cs = before ++ rest ∧ e.offset = byteLength before

/-- The error points to a character of the text or to its end. -/
structure PointsInto (e : LexError) (cs : List Char) : Prop where
  offset_le : e.offset ≤ byteLength cs
  blames : ∃ rest, e.Blames cs rest

theorem Blames.pointsInto {e : LexError} {cs rest : List Char} (h : e.Blames cs rest) :
    e.PointsInto cs := by
  refine ⟨?_, rest, h⟩
  obtain ⟨before, rfl, hoffset⟩ := h
  rw [hoffset, byteLength_append]
  exact Nat.le_add_right _ _

theorem pointsInto_iff {e : LexError} {cs : List Char} : e.PointsInto cs ↔ IsPlace 0 cs e.offset := by
  constructor
  · rintro ⟨-, rest, before, hcs, hoffset⟩
    exact ⟨before, rest, hcs, by rw [hoffset, Nat.zero_add]⟩
  · rintro ⟨before, rest, hcs, hoffset⟩
    have hblames : e.Blames cs rest := ⟨before, hcs, by rw [hoffset, Nat.zero_add]⟩
    exact hblames.pointsInto

/-- The error of a text relays that of a piece of it: `front` stands before the piece, `after` behind it,
and `write` says how the piece is written. It has the same cause and blames the same character. -/
structure Relays (e inner : LexError) (write : List Char → List Char)
    (front piece after : List Char) : Prop where
  cause_eq : e.cause = inner.cause
  blames : ∃ rest, inner.Blames piece rest ∧
    e.Blames (front ++ write piece ++ after) (write rest ++ after)

theorem Relays.pointsInto {e inner : LexError} {write : List Char → List Char}
    {front piece after : List Char} (h : e.Relays inner write front piece after) :
    e.PointsInto (front ++ write piece ++ after) := by
  obtain ⟨rest, -, hblames⟩ := h.blames
  exact hblames.pointsInto

/-- The text stands behind another one. -/
theorem Relays.shift {e inner : LexError} {write : List Char → List Char}
    {front piece after : List Char} (h : e.Relays inner write front piece after)
    (before : List Char) :
    (e.shift (byteLength before)).Relays inner write (before ++ front) piece after := by
  obtain ⟨rest, hinner, place, hplace, hoffset⟩ := h.blames
  refine ⟨h.cause_eq, rest, hinner, before ++ place, ?_, ?_⟩
  · simp only [List.append_assoc] at hplace ⊢
    rw [hplace]
  · rw [LexError.shift, hoffset, byteLength_append, Nat.add_comm]

/-- An error in a piece that is written as it is. -/
theorem PointsInto.relays_shift {inner : LexError} {piece : List Char} (h : inner.PointsInto piece)
    (front after : List Char) :
    (inner.shift (byteLength front)).Relays inner id front piece after := by
  obtain ⟨rest, before, rfl, hoffset⟩ := h.blames
  refine ⟨rfl, rest, ⟨before, rfl, hoffset⟩, front ++ before, by simp, ?_⟩
  rw [LexError.shift, hoffset, byteLength_append, Nat.add_comm]

end LexError

end LogRules

import LogRules.Proofs.Text.Places
import Mathlib.Data.List.Basic

/-! # Texts in UTF-8

The bytes of a text are read back without a loss (`decodeChars_encodeChars`), so that no two texts have the
same bytes. The first byte of a character is no continuation byte, and all others are: bytes that are a text
fall into two texts in front of every byte that is no continuation byte (`IsText.of_append`). -/

namespace LogRules.Text

/-- The bytes are a text in UTF-8. -/
def IsText (bytes : List UInt8) : Prop := ∃ cs, bytes = encodeChars cs

theorem isText_encodeChars (cs : List Char) : IsText (encodeChars cs) := ⟨cs, rfl⟩

theorem isText_nil : IsText [] := ⟨[], rfl⟩

theorem IsText.append {x y : List UInt8} (hx : IsText x) (hy : IsText y) : IsText (x ++ y) := by
  obtain ⟨cs, rfl⟩ := hx
  obtain ⟨ds, rfl⟩ := hy
  exact ⟨cs ++ ds, (encodeChars_append cs ds).symm⟩

theorem encodeChars_cons (c : Char) (cs : List Char) :
    encodeChars (c :: cs) = String.utf8EncodeChar c ++ encodeChars cs := List.flatMap_cons

/-! ### Bytes of a character -/

theorem isContinuation_iff {b : UInt8} : isContinuation b = true ↔ 128 ≤ b.toNat ∧ b.toNat < 192 := by
  rw [isContinuation, Bool.and_eq_true, decide_eq_true_iff, decide_eq_true_iff, UInt8.le_iff_toNat_le,
    UInt8.le_iff_toNat_le]
  exact and_congr_right fun _ => Nat.lt_succ_iff.symm

/-- The byte continues a character with the last six bits of a number. -/
structure Continues (n : Nat) (b : UInt8) : Prop where
  toNat_eq : b.toNat = n % 64 + 128
  isContinuation : isContinuation b = true
  bits : continuationBits b = n % 64

theorem continues_ofNat (n : Nat) : Continues n (UInt8.ofNat (n % 64 + 128)) := by
  have hnat : (UInt8.ofNat (n % 64 + 128)).toNat = n % 64 + 128 := by
    rw [UInt8.toNat_ofNat']
    omega
  refine ⟨hnat, ?_, ?_⟩
  · rw [isContinuation_iff, hnat]
    omega
  · rw [continuationBits, hnat]
    omega

theorem not_isContinuation {a : UInt8} (h : a.toNat < 128 ∨ 192 ≤ a.toNat) : isContinuation a = false := by
  rw [Bool.eq_false_iff, Ne, isContinuation_iff]
  omega

/-- What may follow the first byte of a character, in numbers. -/
theorem fitsSecond_iff {a b : UInt8} :
    fitsSecond a b = true ↔ (128 ≤ b.toNat ∧ b.toNat < 192) ∧
      (a.toNat = 224 → 160 ≤ b.toNat) ∧ (a.toNat = 237 → b.toNat < 160) ∧
      (a.toNat = 240 → 144 ≤ b.toNat) ∧ (a.toNat = 244 → b.toNat < 144) := by
  rw [fitsSecond]
  simp only [isContinuation, ← UInt8.toNat_inj, UInt8.le_iff_toNat_le, UInt8.reduceToNat]
  repeat' split
  all_goals
    simp only [Bool.and_eq_true, decide_eq_true_iff]
    omega

/-- The bytes of a character: the first is no continuation byte, those behind it are, and in front of any
others they are read as the character. -/
structure Writes (c : Char) (a : UInt8) (tail : List UInt8) : Prop where
  first : isContinuation a = false
  others : ∀ b ∈ tail, isContinuation b = true
  reads : ∀ rest, decodeFirst a (tail ++ rest) = (c, tail.length)

theorem writes_one {n : Nat} (h : n ≤ 127) : Writes (Char.ofNat n) (UInt8.ofNat n) [] := by
  have ha : (UInt8.ofNat n).toNat = n := by
    rw [UInt8.toNat_ofNat']
    omega
  generalize UInt8.ofNat n = a at ha
  have hlt : a < 0x80 := by
    rw [UInt8.lt_iff_toNat_lt, ha]
    exact Nat.lt_succ_of_le h
  refine ⟨not_isContinuation (.inl (by omega)), nofun, fun rest => ?_⟩
  unfold decodeFirst
  rw [if_pos hlt, ha]
  rfl

/-- The first byte of a character of several bytes. -/
theorem isLead_of_le {a : UInt8} (hlow : 194 ≤ a.toNat) (hhigh : a.toNat ≤ 244) :
    ¬ a < 0x80 ∧ ¬ (decide (a < 0xC2) || decide (0xF4 < a)) = true := by
  simp [UInt8.lt_iff_toNat_lt]
  omega

theorem writes_two {n : Nat} (hlow : 127 < n) (hhigh : n ≤ 2047) :
    Writes (Char.ofNat n) (UInt8.ofNat (n / 64 % 32 + 192)) [UInt8.ofNat (n % 64 + 128)] := by
  have ha : (UInt8.ofNat (n / 64 % 32 + 192)).toNat = n / 64 + 192 := by
    rw [UInt8.toNat_ofNat']
    omega
  have hb := continues_ofNat n
  generalize UInt8.ofNat (n / 64 % 32 + 192) = a at ha
  generalize UInt8.ofNat (n % 64 + 128) = b at hb
  obtain ⟨hascii, hlead⟩ := isLead_of_le (a := a) (by omega) (by omega)
  have hfits : fitsSecond a b = true := by
    rw [fitsSecond_iff, hb.toNat_eq]
    omega
  have hlt : a < 0xE0 := by
    simp [UInt8.lt_iff_toNat_lt]
    omega
  have hbits : a.toNat % 32 * 64 + n % 64 = n := by omega
  refine ⟨not_isContinuation (.inr (by omega)), ?_, fun rest => ?_⟩
  · simp [hb.isContinuation]
  · simp [decodeFirst, hascii, hlead, hfits, hlt, hb.bits, hbits]

theorem writes_three {n : Nat} (hlow : 2047 < n) (hhigh : n ≤ 65535) (hvalid : n < 0xD800 ∨ 0xDFFF < n) :
    Writes (Char.ofNat n) (UInt8.ofNat (n / 4096 % 16 + 224))
      [UInt8.ofNat (n / 64 % 64 + 128), UInt8.ofNat (n % 64 + 128)] := by
  have ha : (UInt8.ofNat (n / 4096 % 16 + 224)).toNat = n / 4096 + 224 := by
    rw [UInt8.toNat_ofNat']
    omega
  have hb := continues_ofNat (n / 64)
  have hd := continues_ofNat n
  generalize UInt8.ofNat (n / 4096 % 16 + 224) = a at ha
  generalize UInt8.ofNat (n / 64 % 64 + 128) = b at hb
  generalize UInt8.ofNat (n % 64 + 128) = d at hd
  obtain ⟨hascii, hlead⟩ := isLead_of_le (a := a) (by omega) (by omega)
  -- no overlong form and no surrogate
  have hfits : fitsSecond a b = true := by
    rw [fitsSecond_iff, hb.toNat_eq]
    omega
  have hge : ¬ a < 0xE0 := by
    simp [UInt8.lt_iff_toNat_lt]
    omega
  have hlt : a < 0xF0 := by
    simp [UInt8.lt_iff_toNat_lt]
    omega
  have hbits : (a.toNat % 16 * 64 + n / 64 % 64) * 64 + n % 64 = n := by omega
  refine ⟨not_isContinuation (.inr (by omega)), ?_, fun rest => ?_⟩
  · simp [hb.isContinuation, hd.isContinuation]
  · simp [decodeFirst, hascii, hlead, hfits, hge, hlt, hd.isContinuation, hb.bits, hd.bits, hbits]

theorem writes_four {n : Nat} (hlow : 65535 < n) (hhigh : n < 0x110000) :
    Writes (Char.ofNat n) (UInt8.ofNat (n / 262144 % 8 + 240))
      [UInt8.ofNat (n / 4096 % 64 + 128), UInt8.ofNat (n / 64 % 64 + 128), UInt8.ofNat (n % 64 + 128)] := by
  have ha : (UInt8.ofNat (n / 262144 % 8 + 240)).toNat = n / 262144 + 240 := by
    rw [UInt8.toNat_ofNat']
    omega
  have hb := continues_ofNat (n / 4096)
  have hd := continues_ofNat (n / 64)
  have he := continues_ofNat n
  generalize UInt8.ofNat (n / 262144 % 8 + 240) = a at ha
  generalize UInt8.ofNat (n / 4096 % 64 + 128) = b at hb
  generalize UInt8.ofNat (n / 64 % 64 + 128) = d at hd
  generalize UInt8.ofNat (n % 64 + 128) = e at he
  obtain ⟨hascii, hlead⟩ := isLead_of_le (a := a) (by omega) (by omega)
  -- no overlong form and nothing above the last code point
  have hfits : fitsSecond a b = true := by
    rw [fitsSecond_iff, hb.toNat_eq]
    omega
  have hge : ¬ a < 0xE0 ∧ ¬ a < 0xF0 := by
    simp [UInt8.lt_iff_toNat_lt]
    omega
  have hbits : ((a.toNat % 8 * 64 + n / 4096 % 64) * 64 + n / 64 % 64) * 64 + n % 64 = n := by omega
  refine ⟨not_isContinuation (.inr (by omega)), ?_, fun rest => ?_⟩
  · simp [hb.isContinuation, hd.isContinuation, he.isContinuation]
  · simp [decodeFirst, hascii, hlead, hfits, hge, hd.isContinuation, he.isContinuation, hb.bits, hd.bits,
      he.bits, hbits]

/-- Every character is written by such bytes. -/
theorem exists_writes (c : Char) : ∃ a tail, String.utf8EncodeChar c = a :: tail ∧ Writes c a tail := by
  have hc : Char.ofNat c.val.toNat = c := Char.ofNat_toNat c
  have hvalid : c.val.toNat < 0xD800 ∨ (0xDFFF < c.val.toNat ∧ c.val.toNat < 0x110000) := c.valid
  unfold String.utf8EncodeChar
  generalize c.val.toNat = n at hc hvalid
  subst hc
  dsimp only
  split
  · next h => exact ⟨_, _, rfl, writes_one h⟩
  · split
    · next h => exact ⟨_, _, rfl, writes_two (by omega) h⟩
    · split
      · next h => exact ⟨_, _, rfl, writes_three (by omega) h (hvalid.imp_right And.left)⟩
      · exact ⟨_, _, rfl, writes_four (by omega) (by omega)⟩

/-! ### Reading back -/

theorem decodeChars_encodeChar_append (c : Char) (rest : List UInt8) :
    decodeChars (String.utf8EncodeChar c ++ rest) = c :: decodeChars rest := by
  obtain ⟨a, tail, hbytes, hwrites⟩ := exists_writes c
  rw [hbytes, List.cons_append, decodeChars, hwrites.reads rest, List.drop_left]

/-- The characters of a text are read back from its bytes. -/
theorem decodeChars_encodeChars (cs : List Char) : decodeChars (encodeChars cs) = cs := by
  induction cs with
  | nil => simp [encodeChars, decodeChars]
  | cons c cs ih => rw [encodeChars_cons, decodeChars_encodeChar_append, ih]

theorem encodeChars_injective {cs ds : List Char} (h : encodeChars cs = encodeChars ds) : cs = ds := by
  rw [← decodeChars_encodeChars cs, h, decodeChars_encodeChars]

/-- Nothing of a text is lost when its bytes are read. -/
theorem IsText.encode_decode {bytes : List UInt8} (h : IsText bytes) : encode (decode bytes) = bytes := by
  obtain ⟨cs, rfl⟩ := h
  rw [decode, decodeChars_encodeChars, encode, String.toList_ofList]

/-! ### Cutting a text -/

/-- What stands behind a text in a text is a text. -/
theorem IsText.of_append_left {x y : List UInt8} (hx : IsText x) (h : IsText (x ++ y)) : IsText y := by
  obtain ⟨cs, rfl⟩ := hx
  obtain ⟨ds, hds⟩ := h
  induction cs generalizing ds with
  | nil => exact ⟨ds, hds⟩
  | cons c cs ih =>
      cases ds with
      | nil =>
          obtain ⟨a, tail, hbytes, -⟩ := exists_writes c
          rw [encodeChars_cons, hbytes] at hds
          cases hds
      | cons d ds =>
          -- both sides start with the bytes of one character, which is read from them
          rw [encodeChars_cons, encodeChars_cons, List.append_assoc] at hds
          have hread := congrArg decodeChars hds
          rw [decodeChars_encodeChar_append, decodeChars_encodeChar_append] at hread
          obtain ⟨rfl, -⟩ := List.cons.inj hread
          exact ih ds (List.append_cancel_left hds)

/-- No text starts with a continuation byte. -/
theorem IsText.head?_eq {y : List UInt8} (h : IsText y) {b : UInt8} (hb : y.head? = some b) :
    isContinuation b = false := by
  obtain ⟨cs, rfl⟩ := h
  cases cs with
  | nil => cases hb
  | cons c cs =>
      obtain ⟨a, tail, hbytes, hwrites⟩ := exists_writes c
      rw [encodeChars_cons, hbytes] at hb
      obtain rfl := Option.some.inj hb
      exact hwrites.first

/-- A text falls into two texts in front of a byte that is no continuation byte. -/
theorem IsText.of_append {x y : List UInt8} (h : IsText (x ++ y))
    (hy : ∀ b, y.head? = some b → isContinuation b = false) : IsText x ∧ IsText y := by
  obtain ⟨cs, hcs⟩ := h
  induction cs generalizing x with
  | nil =>
      obtain ⟨rfl, rfl⟩ := List.append_eq_nil_iff.mp hcs
      exact ⟨isText_nil, isText_nil⟩
  | cons c cs ih =>
      obtain ⟨a, tail, hbytes, hwrites⟩ := exists_writes c
      cases x with
      | nil => exact ⟨isText_nil, c :: cs, hcs⟩
      | cons b x =>
          rw [encodeChars_cons, hbytes, List.cons_append, List.cons_append] at hcs
          obtain ⟨rfl, hrest⟩ := List.cons.inj hcs
          rcases List.append_eq_append_iff.mp hrest with ⟨z, htail, hz⟩ | ⟨z, hx, hz⟩
          · -- the cut is at the end of the character, since all its other bytes are continuation bytes
            cases z with
            | nil =>
                rw [List.append_nil] at htail
                have hc : b :: x = encodeChars [c] := by
                  rw [encodeChars_cons, hbytes, htail]
                  exact (List.append_nil _).symm
                exact ⟨⟨[c], hc⟩, cs, hz⟩
            | cons d z =>
                have hcontinues := hwrites.others d (htail ▸ List.mem_append_right x List.mem_cons_self)
                rw [hy d (by rw [hz]; rfl)] at hcontinues
                cases hcontinues
          · obtain ⟨⟨ds, hds⟩, hrest⟩ := ih hz.symm
            refine ⟨⟨c :: ds, ?_⟩, hrest⟩
            rw [encodeChars_cons, hbytes, ← hds, hx, List.cons_append]

/-- The places of a text are those at which its bytes are a text from there on. -/
theorem isPlace_iff {cs : List Char} {n : Nat} :
    IsPlace 0 cs n ↔ n ≤ (encodeChars cs).length ∧ IsText ((encodeChars cs).drop n) := by
  constructor
  · rintro ⟨before, after, rfl, rfl⟩
    rw [Nat.zero_add, ← length_encodeChars, encodeChars_append, List.length_append, List.drop_left]
    exact ⟨Nat.le_add_right _ _, isText_encodeChars after⟩
  · rintro ⟨hle, after, hafter⟩
    have hsplit : (encodeChars cs).take n ++ (encodeChars cs).drop n = encodeChars cs :=
      List.take_append_drop n _
    have htext : IsText ((encodeChars cs).take n ++ (encodeChars cs).drop n) := ⟨cs, hsplit⟩
    obtain ⟨before, hbefore⟩ := (htext.of_append fun b => IsText.head?_eq ⟨after, hafter⟩).1
    have hcs : encodeChars (before ++ after) = encodeChars cs := by
      rw [encodeChars_append, ← hbefore, ← hafter, hsplit]
    refine ⟨before, after, (encodeChars_injective hcs).symm, ?_⟩
    rw [Nat.zero_add, ← length_encodeChars, ← hbefore, List.length_take_of_le hle]

end LogRules.Text

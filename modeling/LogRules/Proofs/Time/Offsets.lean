import LogRules.Proofs.Processing.Dispatch
import LogRules.Proofs.Processing.Settings
import LogRules.Proofs.Text.Decimal

/-! # Texts of offsets

An offset is written as universal time or as a sign with four digits, two of hours and two of minutes.
`Writes` says so for any way to write the four digits down. The reader leaves out every colon behind the
sign before it counts the digits (`ofText?_eq_some_iff`), so it accepts more than the digits with one colon
between hours and minutes (`not_forall_oneColon`). A time zone that is not written so is what a
processor is refused for (`timezone_texts`). -/

namespace LogRules.Time.Offset

/-- Four digits as they are, or with a colon between the hours and the minutes. -/
inductive OneColon : List Char → List Char → Prop
  | without (h₁ h₂ m₁ m₂ : Char) : OneColon [h₁, h₂, m₁, m₂] [h₁, h₂, m₁, m₂]
  | between (h₁ h₂ m₁ m₂ : Char) : OneColon [h₁, h₂, ':', m₁, m₂] [h₁, h₂, m₁, m₂]

/-- Digits with any number of colons between and around them. -/
def AnyColons (clock digits : List Char) : Prop := clock.filter (· != ':') = digits

/-- The text stands for four digits, and they are less than 24 hours and less than 60 minutes; the number is
that of the seconds. -/
inductive WritesClock (Form : List Char → List Char → Prop) : List Char → Nat → Prop
  | mk {clock : List Char} {h₁ h₂ m₁ m₂ : Char} (form : Form clock [h₁, h₂, m₁, m₂])
      (digits : ∀ d ∈ [h₁, h₂, m₁, m₂], d.isDigit = true)
      (hours : 10 * Text.digitValue h₁ + Text.digitValue h₂ < 24)
      (minutes : 10 * Text.digitValue m₁ + Text.digitValue m₂ < 60) :
      WritesClock Form clock ((10 * Text.digitValue h₁ + Text.digitValue h₂) * 3600 +
        (10 * Text.digitValue m₁ + Text.digitValue m₂) * 60)

/-- The text writes an offset of so many seconds: universal time by its name in any letter case or by its
letter, or a sign and a clock time. -/
inductive Writes (Form : List Char → List Char → Prop) : List Char → Int → Prop
  | name {u t c : Char} (hu : u = 'U' ∨ u = 'u') (ht : t = 'T' ∨ t = 't') (hc : c = 'C' ∨ c = 'c') :
      Writes Form [u, t, c] 0
  | letter : Writes Form ['Z'] 0
  | east {clock : List Char} {seconds : Nat} (h : WritesClock Form clock seconds) :
      Writes Form ('+' :: clock) seconds
  | west {clock : List Char} {seconds : Nat} (h : WritesClock Form clock seconds) :
      Writes Form ('-' :: clock) (-seconds)

/-! ### Digits -/

theorem digitsValue_pair (a b : Char) :
    Text.digitsValue [a, b] = 10 * Text.digitValue a + Text.digitValue b := by
  simp [Text.digitsValue, Nat.mul_comm]

theorem natural?_pair_eq_some_iff {a b : Char} {n : Nat} :
    Text.natural? [a, b] = some n ↔
      a.isDigit = true ∧ b.isDigit = true ∧ 10 * Text.digitValue a + Text.digitValue b = n := by
  rw [Text.natural?_eq_some_iff, digitsValue_pair]
  simp [and_assoc]

/-- Digits are no colons. -/
theorem filter_colons {digits : List Char} (h : ∀ d ∈ digits, d.isDigit = true) :
    digits.filter (· != ':') = digits := by
  rw [List.filter_eq_self]
  intro d hd
  rw [bne_iff_ne]
  rintro rfl
  exact absurd (h _ hd) (by decide)

/-- The documented texts are among those with any colons. -/
theorem OneColon.anyColons {clock digits : List Char} (h : OneColon clock digits)
    (hdigits : ∀ d ∈ digits, d.isDigit = true) : AnyColons clock digits := by
  cases h with
  | without h₁ h₂ m₁ m₂ => exact filter_colons hdigits
  | between h₁ h₂ m₁ m₂ =>
      have hdrop : [h₁, h₂, ':', m₁, m₂].filter (· != ':') = [h₁, h₂, m₁, m₂].filter (· != ':') := by
        change ([h₁, h₂] ++ ':' :: [m₁, m₂]).filter (· != ':') = ([h₁, h₂] ++ [m₁, m₂]).filter (· != ':')
        simp only [List.filter_append]
        rfl
      exact hdrop.trans (filter_colons hdigits)

theorem WritesClock.anyColons {clock : List Char} {n : Nat} (h : WritesClock OneColon clock n) :
    WritesClock AnyColons clock n := by
  obtain ⟨form, digits, hours, minutes⟩ := h
  exact .mk (form.anyColons digits) digits hours minutes

theorem Writes.anyColons {cs : List Char} {n : Int} (h : Writes OneColon cs n) : Writes AnyColons cs n := by
  cases h with
  | name hu ht hc => exact .name hu ht hc
  | letter => exact .letter
  | east h => exact .east h.anyColons
  | west h => exact .west h.anyColons

/-! ### The reader -/

/-- A number with the sign that stands in front. -/
def signed (negative : Bool) (n : Nat) : Int := if negative then -n else n

theorem ofParts?_eq_some_iff {negative : Bool} {hours minutes : Nat} {o : Offset} :
    ofParts? negative hours minutes = some o ↔
      hours < 24 ∧ minutes < 60 ∧ o.seconds = signed negative (hours * 3600 + minutes * 60) := by
  obtain ⟨seconds⟩ := o
  unfold ofParts? signed
  by_cases h : 24 ≤ hours ∨ 60 ≤ minutes
  · simp only [h, Bool.or_eq_true, decide_eq_true_eq, if_true, reduceCtorEq, false_iff]
    omega
  · simp only [h, Bool.or_eq_true, decide_eq_true_eq, if_false, Option.some.injEq, Offset.mk.injEq]
    push_cast
    omega

/-- Behind a sign, the reader takes four digits and any colons. -/
theorem readDigits?_eq_some_iff {negative : Bool} {cs : List Char} {o : Offset} :
    readDigits? negative cs = some o ↔
      ∃ n, WritesClock AnyColons cs n ∧ o.seconds = signed negative n := by
  unfold readDigits?
  by_cases hlength : (cs.filter (· != ':')).length = 4
  · obtain ⟨h₁, h₂, m₁, m₂, hclock⟩ := List.length_eq_four.mp hlength
    simp only [hclock, List.length_cons, List.length_nil, Nat.zero_add, Nat.reduceAdd, if_true,
      Option.bind_eq_bind, Option.bind_eq_some_iff, List.take_succ_cons, List.take_zero,
      List.drop_succ_cons, List.drop_zero, natural?_pair_eq_some_iff, ofParts?_eq_some_iff]
    constructor
    · rintro ⟨_, ⟨hh₁, hh₂, rfl⟩, _, ⟨hm₁, hm₂, rfl⟩, hhours, hminutes, hseconds⟩
      exact ⟨_, .mk hclock (by simp [*]) hhours hminutes, hseconds⟩
    · rintro ⟨_, ⟨form, digits, hours, minutes⟩, hseconds⟩
      cases hclock.symm.trans form
      simp only [List.forall_mem_cons] at digits
      obtain ⟨hh₁, hh₂, hm₁, hm₂, -⟩ := digits
      exact ⟨_, ⟨hh₁, hh₂, rfl⟩, _, ⟨hm₁, hm₂, rfl⟩, hours, minutes, hseconds⟩
  · simp only [hlength, if_false, reduceCtorEq, false_iff]
    rintro ⟨_, ⟨form, -, -, -⟩, -⟩
    exact hlength (congrArg List.length form)

/-! ### Universal time -/

theorem toNat_toLower (c : Char) :
    c.toLower.toNat = if 65 ≤ c.toNat ∧ c.toNat ≤ 90 then c.toNat + 32 else c.toNat := by
  unfold Char.toLower
  split
  · next h =>
      have hupper : 65 ≤ c.toNat ∧ c.toNat ≤ 90 := h
      rw [if_pos hupper]
      change (c.val + 32).toNat = c.val.toNat + 32
      have hle : c.val.toNat ≤ 90 := hupper.2
      rw [UInt32.toNat_add]
      exact Nat.mod_eq_of_lt (by simp; omega)
  · next h =>
      have hupper : ¬(65 ≤ c.toNat ∧ c.toNat ≤ 90) := h
      rw [if_neg hupper]

/-- Two characters have this lower case: a letter of lower case itself and its upper case. -/
theorem toLower_eq_iff {c upper lower : Char} (hlower : 97 ≤ lower.toNat ∧ lower.toNat ≤ 122)
    (hupper : upper.toNat + 32 = lower.toNat) : c.toLower = lower ↔ c = upper ∨ c = lower := by
  simp only [← Char.toNat_inj, toNat_toLower]
  split <;> omega

/-- The name of universal time in any letter case. -/
theorem toLower_eq_utc_iff {s : String} :
    s.toLower = "utc" ↔ ∃ u t c, s.toList = [u, t, c] ∧
      (u = 'U' ∨ u = 'u') ∧ (t = 'T' ∨ t = 't') ∧ (c = 'C' ∨ c = 'c') := by
  have hlower : s.toLower.toList = s.toList.map Char.toLower := String.toList_map
  rw [← String.toList_inj, hlower]
  change s.toList.map Char.toLower = ['u', 't', 'c'] ↔ _
  simp only [List.map_eq_cons_iff, List.map_eq_nil_iff]
  constructor
  · rintro ⟨u, _, hs, hu, t, _, rfl, ht, c, _, rfl, hc, rfl⟩
    exact ⟨u, t, c, hs, (toLower_eq_iff (by decide) (by decide)).mp hu,
      (toLower_eq_iff (by decide) (by decide)).mp ht, (toLower_eq_iff (by decide) (by decide)).mp hc⟩
  · rintro ⟨u, t, c, hs, hu, ht, hc⟩
    exact ⟨u, _, hs, (toLower_eq_iff (by decide) (by decide)).mpr hu,
      t, _, rfl, (toLower_eq_iff (by decide) (by decide)).mpr ht,
      c, _, rfl, (toLower_eq_iff (by decide) (by decide)).mpr hc, rfl⟩

/-! ### The reader of offsets -/

section Inversion

variable {Form : List Char → List Char → Prop} {rest : List Char} {n : Int}

theorem writes_plus_iff :
    Writes Form ('+' :: rest) n ↔ ∃ k, WritesClock Form rest k ∧ n = signed false k := by
  constructor
  · intro h
    cases h with
    | name hu => simp at hu
    | east h => exact ⟨_, h, rfl⟩
  · rintro ⟨k, h, rfl⟩
    exact .east h

theorem writes_minus_iff :
    Writes Form ('-' :: rest) n ↔ ∃ k, WritesClock Form rest k ∧ n = signed true k := by
  constructor
  · intro h
    cases h with
    | name hu => simp at hu
    | west h => exact ⟨_, h, rfl⟩
  · rintro ⟨k, h, rfl⟩
    exact .west h

/-- Universal time is no sign with digits. -/
theorem writes_universal_iff {s : String} (h : s.toLower = "utc" ∨ s = "Z") :
    Writes Form s.toList n ↔ n = 0 := by
  rcases h with h | rfl
  · obtain ⟨u, t, c, hs, hu, ht, hc⟩ := toLower_eq_utc_iff.mp h
    rw [hs]
    constructor
    · intro h
      cases h with
      | name => rfl
      | east => simp at hu
      | west => simp at hu
    · rintro rfl
      exact .name hu ht hc
  · change Writes Form ['Z'] n ↔ n = 0
    constructor
    · intro h
      cases h
      rfl
    · rintro rfl
      exact .letter

end Inversion

/-- The reader accepts the texts of offsets with any colons. -/
theorem ofText?_eq_some_iff {s : String} {o : Offset} :
    ofText? s = some o ↔ Writes AnyColons s.toList o.seconds := by
  unfold ofText?
  split
  · next huniversal =>
      simp only [Bool.or_eq_true, decide_eq_true_eq] at huniversal
      obtain ⟨seconds⟩ := o
      rw [writes_universal_iff huniversal, utc, Option.some.injEq, Offset.mk.injEq, eq_comm]
  · next huniversal =>
      simp only [Bool.or_eq_true, decide_eq_true_eq, not_or] at huniversal
      split
      · next rest hs => rw [hs, readDigits?_eq_some_iff, writes_plus_iff]
      · next rest hs => rw [hs, readDigits?_eq_some_iff, writes_minus_iff]
      · next hplus hminus =>
          simp only [reduceCtorEq, false_iff]
          intro h
          generalize hcs : s.toList = cs, o.seconds = n at h
          cases h with
          | name hu ht hc => exact huniversal.1 (toLower_eq_utc_iff.mpr ⟨_, _, _, hcs, hu, ht, hc⟩)
          | letter => exact huniversal.2 (String.toList_inj.mp hcs)
          | east h => exact hplus _ hcs
          | west h => exact hminus _ hcs

/-! ### Where colons stand -/

/-- Every colon of the text is its fourth character: behind a sign and two digits of hours. -/
def ColonsInPlace (cs : List Char) : Prop := ∀ i < cs.length, cs[i]? = some ':' → i = 3

theorem ColonsInPlace.length_eq {before after : List Char} (h : ColonsInPlace (before ++ ':' :: after)) :
    before.length = 3 := h before.length (by simp) (by simp)

/-- Any colons in their place are one colon at most. -/
theorem AnyColons.oneColon {sign : Char} {clock : List Char} {h₁ h₂ m₁ m₂ : Char}
    (h : AnyColons clock [h₁, h₂, m₁, m₂]) (hplace : ColonsInPlace (sign :: clock)) :
    OneColon clock [h₁, h₂, m₁, m₂] := by
  have hkeep : ∀ {cs : List Char}, ':' ∉ cs → cs.filter (· != ':') = cs := by
    intro cs hcs
    rw [List.filter_eq_self]
    intro c hc
    rw [bne_iff_ne]
    rintro rfl
    exact hcs hc
  unfold AnyColons at h
  by_cases hcolon : ':' ∈ clock
  · obtain ⟨before, after, rfl, hbefore⟩ := List.eq_append_cons_of_mem hcolon
    have hlength : (sign :: before).length = 3 := ColonsInPlace.length_eq hplace
    have hafter : ':' ∉ after := by
      intro hmem
      obtain ⟨middle, rest, rfl⟩ := List.append_of_mem hmem
      have hmiddle : ColonsInPlace ((sign :: before ++ ':' :: middle) ++ ':' :: rest) := by
        simpa using hplace
      have hsecond := hmiddle.length_eq
      simp only [List.length_append, List.length_cons] at hlength hsecond
      omega
    rw [List.filter_append, List.filter_cons_of_neg (by decide), hkeep hbefore, hkeep hafter] at h
    have hsplit : before ++ after = [h₁, h₂] ++ [m₁, m₂] := h
    obtain ⟨rfl, rfl⟩ := List.append_inj hsplit (by simpa using hlength)
    exact .between h₁ h₂ m₁ m₂
  · rw [hkeep hcolon] at h
    exact h ▸ .without h₁ h₂ m₁ m₂

/-- The documented texts are those with their colon in its place. -/
theorem writes_oneColon_iff {cs : List Char} {n : Int} (hplace : ColonsInPlace cs) :
    Writes OneColon cs n ↔ Writes AnyColons cs n := by
  have hclock : ∀ {sign clock k}, ColonsInPlace (sign :: clock) → WritesClock AnyColons clock k →
      WritesClock OneColon clock k := by
    rintro sign clock k hplace ⟨form, digits, hours, minutes⟩
    exact .mk (form.oneColon hplace) digits hours minutes
  refine ⟨Writes.anyColons, fun h => ?_⟩
  cases h with
  | name hu ht hc => exact .name hu ht hc
  | letter => exact .letter
  | east h => exact .east (hclock hplace h)
  | west h => exact .west (hclock hplace h)

/-- A colon between other digits, and the text is read. -/
theorem not_forall_oneColon :
    ¬ ∀ (s : String) (o : Offset), ofText? s = some o ↔ Writes OneColon s.toList o.seconds := by
  intro h
  have hread : ofText? "+1:230" = some ⟨45000⟩ := by decide +kernel
  have hwrites : Writes OneColon ['+', '1', ':', '2', '3', '0'] 45000 := (h _ _).mp hread
  obtain ⟨_, ⟨form, -, -, -⟩, -⟩ := writes_plus_iff.mp hwrites
  cases form

/-- **The texts of time zones.** A time zone is read exactly when it is a text of an offset, with any colons
behind the sign, and then gives that number of seconds; among the texts that have a colon in no other place
than between hours and minutes, these are the documented ones. Every processor has the offset that the text
writes, and a text that writes none is what all processors are refused for. -/
theorem timezone_texts {text : String} {config : Config} (hzone : config.timezone = some text) (year : Int) :
    (∀ n, ofText? text = some ⟨n⟩ ↔ Writes AnyColons text.toList n) ∧
    (ColonsInPlace text.toList → ∀ n, ofText? text = some ⟨n⟩ ↔ Writes OneColon text.toList n) ∧
    (∀ t p, Processor.ofTree year config t = .ok p →
      Writes AnyColons text.toList p.settings.offset.seconds) ∧
    ((¬ ∃ n, Writes AnyColons text.toList n) ↔
      ∀ t, Processor.ofTree year config t = .error (.invalidTimezone text)) := by
  refine ⟨fun n => ofText?_eq_some_iff, fun hplace n => ?_, fun t p hp => ?_, fun hnone t => ?_, fun h => ?_⟩
  · rw [ofText?_eq_some_iff, writes_oneColon_iff hplace]
  · obtain ⟨hsettings, -⟩ := Processor.parts_of_ofTree hp
    exact ofText?_eq_some_iff.mp ((Settings.of_ofConfig hsettings).1 text hzone)
  · have hread : ofText? text = none := by
      rw [Option.eq_none_iff_forall_ne_some]
      exact fun o ho => hnone ⟨_, ofText?_eq_some_iff.mp ho⟩
    have hrefused : Settings.ofConfig year config = .error (.invalidTimezone text) :=
      Settings.ofConfig_eq_invalidTimezone_iff.mpr ⟨hzone, hread⟩
    rw [Processor.ofTree, hrefused]
    rfl
  · rintro ⟨n, hwrites⟩
    have hread : ofText? text = some ⟨n⟩ := ofText?_eq_some_iff.mpr hwrites
    -- a tree that does nothing is refused for nothing but the options
    have hnoop := h ⟨.noop, .empty, .empty, none⟩
    rw [Processor.ofTree] at hnoop
    rcases bind_eq_error.mp hnoop with hsettings | ⟨settings, -, hcompile⟩
    · have hnone := (Settings.ofConfig_eq_invalidTimezone_iff.mp hsettings).2
      exact nomatch hnone.symm.trans hread
    · rcases bind_eq_error.mp hcompile with hprogram | ⟨program, -, hdone⟩
      · cases hprogram
      · cases hdone

theorem timezone_texts_halfHours :
    ColonsInPlace "-05:30".toList ∧ Writes OneColon "-05:30".toList (-19800) ∧
    (∀ t p, Processor.ofTree 2021 { timezone := some "-05:30" } t = .ok p →
      p.settings.offset = ⟨-19800⟩) ∧
    ∀ t, Processor.ofTree 2021 { timezone := some "+01:75" } t = .error (.invalidTimezone "+01:75") := by
  have hread : ofText? "-05:30" = some ⟨-19800⟩ := by decide +kernel
  have hrefused : ofText? "+01:75" = none := by decide +kernel
  have hplace : ColonsInPlace "-05:30".toList := by
    change ColonsInPlace ['-', '0', '5', ':', '3', '0']
    unfold ColonsInPlace
    decide
  obtain ⟨hall, hdocumented, hoffset, -⟩ :=
    @timezone_texts "-05:30" { timezone := some "-05:30" } rfl 2021
  obtain ⟨hnone, -, -, hfails⟩ :=
    @timezone_texts "+01:75" { timezone := some "+01:75" } rfl 2021
  refine ⟨hplace, (hdocumented hplace _).mp hread, fun t p hp => ?_, hfails.mp ?_⟩
  · exact Option.some.inj ((ofText?_eq_some_iff.mpr (hoffset t p hp)).symm.trans hread)
  · rintro ⟨n, hwrites⟩
    exact nomatch hrefused.symm.trans ((hnone n).mpr hwrites)

end LogRules.Time.Offset

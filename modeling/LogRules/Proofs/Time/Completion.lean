import LogRules.Proofs.Time.Parts

/-! # Completing dates

What a format lacks (`missing`) is read from a text of its own behind the date, so the parts of a date that the
text does not give are filled in: the assumed year, the first month, the first day and midnight
(`Components.completed`). -/

namespace LogRules.Time

open Layout (Completion)

namespace Components

/-! ### Filling in -/

/-- Gives the date a year if it has none. -/
def fillYear (year : Int) (c : Components) : Components :=
  if c.knows .year then c else { c with year? := some year }

/-- Gives the date the first month if neither the month nor the day of the year is known. -/
def fillMonth (c : Components) : Components :=
  if c.knows .month || c.knows .dayOfYear then c else { c with month? := some 1 }

/-- Gives the date the first day if neither the day nor the day of the year is known. -/
def fillDay (c : Components) : Components :=
  if c.knows .day || c.knows .dayOfYear then c else { c with day? := some 1 }

/-- Gives what is not known of the time of day as it is at midnight. -/
def fillClock (c : Components) : Components :=
  { c with
    afternoon? := some (c.afternoon?.getD false)
    halfDayHour? := some (c.halfDayHour?.getD 0)
    minute? := some (c.minute?.getD 0) }

/-- Fills in all that is not known of a date and of its time. -/
def completed (year : Int) (c : Components) : Components :=
  (c.fillYear year).fillMonth.fillDay.fillClock

/-- The time of day goes with the one that is filled in: the hour is known, or what else is known is as it is
at midnight. -/
def ClockFits (c : Components) : Prop :=
  c.knows .hour = true ∨ c.afternoon? ≠ some true ∧ (c.minute? = none ∨ c.minute? = some 0)

instance (c : Components) : Decidable c.ClockFits := inferInstanceAs (Decidable (_ ∨ _))

variable (c : Components)

theorem knows_fillYear (year : Int) {p : Part} (hp : p ≠ .year) : (c.fillYear year).knows p = c.knows p := by
  unfold fillYear
  split
  · rfl
  · cases p <;> first | rfl | exact absurd rfl hp

theorem knows_fillMonth {p : Part} (hp : p ≠ .month) : c.fillMonth.knows p = c.knows p := by
  unfold fillMonth
  split
  · rfl
  · cases p <;> first | rfl | exact absurd rfl hp

theorem knows_fillDay {p : Part} (hp : p ≠ .day) : c.fillDay.knows p = c.knows p := by
  unfold fillDay
  split
  · rfl
  · cases p <;> first | rfl | exact absurd rfl hp

/-- Midnight goes with a time before noon and with the minute zero. -/
theorem set?_midnight {c : Components} (hhour : c.halfDayHour? = none) :
    (c.set? .hour 0).bind (·.set? .minute 0) =
      if c.afternoon? ≠ some true ∧ (c.minute? = none ∨ c.minute? = some 0) then some c.fillClock
      else none := by
  by_cases hafternoon : c.afternoon? = some true
  · simp [set?, setAfternoon?, agree, hafternoon]
  · have hhalf : agree c.afternoon? false = some (some (c.afternoon?.getD false)) := by
      rcases h : c.afternoon? with _ | _ | _
      · rfl
      · rfl
      · exact absurd h hafternoon
    have hset : c.set? .hour 0 =
        some { c with afternoon? := some (c.afternoon?.getD false), halfDayHour? := some 0 } := by
      have hnew : agree (none : Option Nat) 0 = some (some 0) := rfl
      simp [set?, setAfternoon?, setHalfDayHour?, hhalf, hhour, hnew]
    rw [hset]
    rcases hminute : c.minute? with _ | minute
    · simp [set?, agreeWithin, agree, hafternoon, hminute, fillClock, hhour]
    · by_cases hzero : minute = 0
      · simp [set?, agreeWithin, agree, hafternoon, hminute, hzero, fillClock, hhour]
      · simp [set?, agreeWithin, agree, hzero]

theorem clockFits_fillYear (year : Int) : (c.fillYear year).ClockFits ↔ c.ClockFits := by
  unfold fillYear
  split <;> rfl

theorem clockFits_fillMonth : c.fillMonth.ClockFits ↔ c.ClockFits := by
  unfold fillMonth
  split <;> rfl

theorem clockFits_fillDay : c.fillDay.ClockFits ↔ c.ClockFits := by
  unfold fillDay
  split <;> rfl

end Components

namespace Layout

/-! ### What a layout lacks -/

def yearCompletion (year : Int) : Completion := ([.blank, .number .year], " " ++ toString year)

def monthCompletion : Completion := ([.blank, .number .month], " 01")

def dayCompletion : Completion := ([.blank, .number .day], " 01")

def midnightCompletion : Completion := ([.blank, .number .hour, .char ':', .number .minute], " 00:00")

def minuteCompletion : Completion := ([.blank, .number .minute], " 00")

/-- A completion that is missing unless its part is named. -/
def missingUnless (named : Prop) [Decidable named] (k : Completion) : List Completion :=
  if named then [] else [k]

def missingYear (year : Int) (items : List LayoutItem) : List Completion :=
  missingUnless (Names items .year) (yearCompletion year)

def missingMonth (items : List LayoutItem) : List Completion :=
  missingUnless (Names items .month ∨ Names items .dayOfYear) monthCompletion

def missingDay (items : List LayoutItem) : List Completion :=
  missingUnless (Names items .day ∨ Names items .dayOfYear) dayCompletion

/-- Items without an hour lack the minute as well, even if they have one. -/
def missingClock (items : List LayoutItem) : List Completion :=
  if Names items .hour then missingUnless (Names items .minute) minuteCompletion else [midnightCompletion]

/-- What items lack for a date with a time of day. -/
def missing (year : Int) (items : List LayoutItem) : List Completion :=
  missingYear year items ++ (missingMonth items ++ (missingDay items ++ missingClock items))

theorem hasSpec_append (letters more : String) (f : TimeFormat) :
    hasSpec (letters ++ more) f = (hasSpec letters f || hasSpec more f) := by
  rw [Bool.eq_iff_iff, Bool.or_eq_true, hasSpec_iff, hasSpec_iff, hasSpec_iff]
  simp only [String.toList_append, List.mem_append, or_and_right, exists_or]

theorem completions_eq_missing {year : Int} {twelveHours afterSpec : Bool} {f : TimeFormat}
    {items : List LayoutItem} (h : formatItems twelveHours afterSpec f = .ok items) :
    completions year f = missing year items := by
  have hnames := names_formatItems_iff h
  have hmonth : hasSpec "CRBMGJ" f = (hasSpec "CRBMG" f || hasSpec "J" f) := hasSpec_append "CRBMG" "J" f
  have hday : hasSpec "CDFJ" f = (hasSpec "CDF" f || hasSpec "J" f) := hasSpec_append "CDF" "J" f
  have hclock : (if !hasSpec "CHNIZ" f then [midnightCompletion]
      else if !hasSpec "CTUZ" f then [minuteCompletion] else []) = missingClock items := by
    simp only [missingClock, hnames, Part.letters]
    cases hasSpec "CHNIZ" f <;> cases hasSpec "CTUZ" f <;> rfl
  rw [missing, ← hclock]
  simp only [missingYear, missingMonth, missingDay, hnames, Part.letters, ← Bool.or_eq_true, ← hmonth, ← hday]
  simp only [completions, List.append_assoc]
  rfl

/-! ### Reading completions -/

/-- Reads all completions from their texts. -/
def readCompletions? (c : Components) (ks : List Completion) : Option Components :=
  readItems? c (ks.flatMap Prod.fst) (ks.flatMap fun k => k.2.toList)

/-- White space stands in front of a completion. -/
def Separate (k : Completion) : Prop := ∃ items cs, k.1 = .blank :: items ∧ k.2.toList = ' ' :: cs

/-- What it means to read a completion: its text is read with all digits, in front of more as well, and it
changes the components so. Its items never read more digits. -/
structure Fills (k : Completion) (fill? : Components → Option Components) : Prop where
  separate : Separate k
  read : ∀ c tail, StartsBlank tail → readFront? c k.1 (k.2.toList ++ tail) = (fill? c).map (·, tail)
  digits : ∀ {c c' cs rest}, readFront? c k.1 cs = some (c', rest) →
    cs.countP Char.isDigit ≤ rest.countP Char.isDigit + k.2.toList.countP Char.isDigit

theorem countP_trimStart (cs : List Char) :
    (Text.trimStart cs).countP Char.isDigit = cs.countP Char.isDigit := by
  have hblank : (cs.takeWhile Text.isBlank).countP Char.isDigit = 0 := by
    rw [List.countP_eq_zero]
    intro c hc hdigit
    have := List.mem_takeWhile_imp hc
    rw [Text.isBlank_of_isDigit hdigit] at this
    cases this
  conv_rhs => rw [← List.takeWhile_append_dropWhile (p := Text.isBlank) (l := cs), List.countP_append, hblank]
  exact (Nat.zero_add _).symm

theorem countP_le_of_digits? {width : Nat} {cs rest : List Char} {value : Int}
    (h : digits? (some width) cs = some (value, rest)) :
    cs.countP Char.isDigit ≤ rest.countP Char.isDigit + width := by
  simp only [digits?, Option.ite_none_left_eq_some, Option.some.injEq, Prod.mk.injEq] at h
  obtain ⟨-, -, rfl⟩ := h
  generalize hn : ((cs.takeWhile Char.isDigit).take width).length = n
  have hle : n ≤ width := hn ▸ List.length_take_le ..
  have hcount : (cs.take n).countP Char.isDigit ≤ n := List.countP_le_length.trans (List.length_take_le ..)
  conv_lhs => rw [← List.take_append_drop n cs, List.countP_append]
  omega

/-- The component is read from two digits at the most. -/
def TwoDigits (component : Component) : Prop := ∀ cs, number? component cs = digits? (some 2) cs

theorem countP_le_of_readItem? {component : Component} (htwo : TwoDigits component) {c c' : Components}
    {cs rest : List Char} (h : readItem? c (.number component) cs = some (c', rest)) :
    cs.countP Char.isDigit ≤ rest.countP Char.isDigit + 2 := by
  obtain ⟨value, hvalue, -⟩ := readItem?_number_eq_some_iff.mp h
  rw [htwo] at hvalue
  have hle := countP_le_of_digits? hvalue
  rwa [countP_trimStart] at hle

theorem countP_of_readItem?_colon {c c' : Components} {cs rest : List Char}
    (h : readItem? c (.char ':') cs = some (c', rest)) :
    cs.countP Char.isDigit = rest.countP Char.isDigit := by
  cases cs with
  | nil => cases h
  | cons d behind =>
      rw [readItem?, Option.ite_none_right_eq_some] at h
      obtain ⟨rfl, heq⟩ := h
      cases heq
      exact List.countP_cons_of_neg (by decide)

theorem readItem?_number {component : Component} {cs rest : List Char} {value : Int}
    (h : number? component (Text.trimStart cs) = some (value, rest)) (c : Components) :
    readItem? c (.number component) cs = (c.set? component value).map (·, rest) := by
  rw [readItem?, h]
  cases hset : c.set? component value <;> simp [hset]

/-- A number of two digits behind a space. -/
theorem fills_number {component : Component} {text : String} {digits : List Char} {value : Int}
    (htwo : TwoDigits component) (htext : text.toList = ' ' :: digits)
    (htrim : ∀ tail, Text.trimStart (text.toList ++ tail) = digits ++ tail)
    (hread : digits? (some 2) digits = some (value, [])) (hcount : text.toList.countP Char.isDigit = 2) :
    Fills ([.blank, .number component], text) (·.set? component value) where
  separate := ⟨_, _, rfl, htext⟩
  read c tail htail := by
    have hnumber : number? component (Text.trimStart (digits ++ tail)) = some (value, tail) := by
      rw [← htrim, trimStart_trimStart, htrim, htwo, digits?_append htail, hread]
      rfl
    have hblank : readItem? c .blank (text.toList ++ tail) = some (c, digits ++ tail) := by
      rw [readItem?, htrim]
    simp only [readFront?, hblank, readItem?_number hnumber, Option.bind_eq_bind, Option.bind_some]
    cases c.set? component value <;> rfl
  digits {c c' cs rest} h := by
    obtain ⟨_, _, hblank, hitems⟩ := readFront?_cons_eq_some_iff.mp h
    obtain ⟨_, _, hnumber, hnil⟩ := readFront?_cons_eq_some_iff.mp hitems
    cases hblank
    cases hnil
    have hle := countP_le_of_readItem? htwo hnumber
    rwa [countP_trimStart, ← hcount] at hle

theorem fills_month : Fills monthCompletion (·.set? .month 1) :=
  fills_number (fun _ => rfl) rfl (fun _ => rfl) rfl rfl

theorem fills_day : Fills dayCompletion (·.set? .day 1) :=
  fills_number (fun _ => rfl) rfl (fun _ => rfl) rfl rfl

theorem fills_minute : Fills minuteCompletion (·.set? .minute 0) :=
  fills_number (fun _ => rfl) rfl (fun _ => rfl) rfl rfl

theorem fills_midnight :
    Fills midnightCompletion fun c => (c.set? .hour 0).bind (·.set? .minute 0) where
  separate := ⟨_, _, rfl, rfl⟩
  read c tail htail := by
    have hblank : readItem? c .blank (" 00:00".toList ++ tail) = some (c, "00:00".toList ++ tail) := rfl
    have hhour := readItem?_number (show number? .hour (Text.trimStart ("00:00".toList ++ tail)) =
      some (0, ':' :: ("00".toList ++ tail)) from rfl)
    have hcolon : ∀ d, readItem? d (.char ':') (':' :: ("00".toList ++ tail)) = some (d, "00".toList ++ tail) :=
      fun d => by rw [readItem?, if_pos rfl]
    have hminute : ∀ d : Components, readItem? d (.number .minute) ("00".toList ++ tail) =
        (d.set? .minute 0).map (·, tail) := by
      refine readItem?_number ?_
      change number? .minute ("00".toList ++ tail) = _
      rw [number?_append htail]
      rfl
    simp only [midnightCompletion, readFront?, hblank, hhour, Option.bind_eq_bind, Option.bind_some]
    cases c.set? .hour 0 with
    | none => rfl
    | some d =>
        simp only [Option.map_some, Option.bind_some, hcolon, hminute]
        cases d.set? .minute 0 <;> rfl
  digits {c c' cs rest} h := by
    obtain ⟨_, _, hblank, hitems⟩ := readFront?_cons_eq_some_iff.mp h
    obtain ⟨_, _, hhour, hitems'⟩ := readFront?_cons_eq_some_iff.mp hitems
    obtain ⟨_, _, hcolon, hitems''⟩ := readFront?_cons_eq_some_iff.mp hitems'
    obtain ⟨_, _, hminute, hnil⟩ := readFront?_cons_eq_some_iff.mp hitems''
    cases hblank
    cases hnil
    have hleHour := countP_le_of_readItem? (fun _ => rfl) hhour
    have hleMinute := countP_le_of_readItem? (fun _ => rfl) hminute
    have hleColon := countP_of_readItem?_colon hcolon
    rw [countP_trimStart] at hleHour
    have htext : midnightCompletion.2.toList.countP Char.isDigit = 4 := rfl
    omega

/-! ### The assumed year -/

/-- The year can be read from the text that completes a date. Without a sign only four digits are. -/
def IsReadable (year : Int) : Prop := -0x80000000 ≤ year ∧ year ≤ 9999

instance (year : Int) : Decidable (IsReadable year) := inferInstanceAs (Decidable (_ ∧ _))

/-- The digits of a number. -/
abbrev decimal (n : Nat) : List Char := (toString n).toList

theorem isDigit_of_mem_decimal {n : Nat} : ∀ c ∈ decimal n, c.isDigit = true := Text.isDigit_of_mem_toString n

theorem takeWhile_decimal (n : Nat) : (decimal n).takeWhile Char.isDigit = decimal n :=
  List.takeWhile_eq_self_iff.mpr isDigit_of_mem_decimal

theorem exists_decimal (n : Nat) : ∃ d ds, decimal n = d :: ds ∧ d.isDigit = true := by
  obtain ⟨d, ds, hd⟩ := List.exists_cons_of_ne_nil (Text.toList_toString_ne_nil n)
  exact ⟨d, ds, hd, isDigit_of_mem_decimal d (hd ▸ List.mem_cons_self)⟩

/-- Any number is read to its end behind a sign, if it is not too great. -/
theorem digits?_none_decimal (n : Nat) :
    digits? none (decimal n) = if 0x8000000000000000 ≤ n then none else some ((n : Int), []) := by
  have hne : (decimal n).isEmpty = false := List.isEmpty_eq_false_iff.mpr (Text.toList_toString_ne_nil n)
  simp only [digits?, takeWhile_decimal, hne, Text.digitsValue_toString, List.drop_length, Bool.false_or,
    decide_eq_true_eq]

/-- A number of four digits is read to its end without a sign. -/
theorem digits?_four_decimal {n : Nat} (hn : n ≤ 9999) :
    digits? (some 4) (decimal n) = some ((n : Int), []) := by
  have hlength : (decimal n).length ≤ 4 := Nat.repr_length n 4 (by decide) (by omega)
  have hall := digits?_none_decimal n
  rw [if_neg (by omega)] at hall
  rw [← hall]
  simp only [digits?, takeWhile_decimal, List.take_of_length_le hlength]

/-- Of a greater number digits are left. -/
theorem lt_countP_of_digits?_four {n : Nat} (hn : 9999 < n) {tail rest : List Char} {value : Int}
    (h : digits? (some 4) (decimal n ++ tail) = some (value, rest)) :
    tail.countP Char.isDigit < rest.countP Char.isDigit := by
  have hlength : 4 < (decimal n).length := by
    by_contra hle
    have hdigits : ∀ d ∈ (decimal n).reverse.map Text.digitValue, d < 10 := by
      intro d hd
      obtain ⟨c, hc, rfl⟩ := List.mem_map.mp hd
      have hrange := Char.isDigit_iff_toNat.mp (isDigit_of_mem_decimal c (List.mem_reverse.mp hc))
      simp only [Text.digitValue, show '0'.toNat = 48 from rfl, show '9'.toNat = 57 from rfl] at hrange ⊢
      omega
    have hlt := Nat.ofDigits_lt_base_pow_length (by decide) hdigits
    rw [← Text.digitsValue_eq_ofDigits, Text.digitsValue_toString, List.length_map, List.length_reverse] at hlt
    have hpow : 10 ^ (decimal n).length ≤ 10 ^ 4 := Nat.pow_le_pow_right (by decide) (by omega)
    omega
  have hcount : (decimal n).countP Char.isDigit = (decimal n).length :=
    List.countP_eq_length.mpr isDigit_of_mem_decimal
  have hle := countP_le_of_digits? h
  rw [List.countP_append, hcount] at hle
  omega

theorem trimStart_decimal (n : Nat) (tail : List Char) :
    Text.trimStart (decimal n ++ tail) = decimal n ++ tail := by
  obtain ⟨d, ds, hd, hdigit⟩ := exists_decimal n
  rw [hd, List.cons_append, Text.trimStart,
    List.dropWhile_cons_of_neg (by simp [Text.isBlank_of_isDigit hdigit])]

theorem number?_year_decimal (n : Nat) (tail : List Char) :
    number? .year (decimal n ++ tail) = digits? (some 4) (decimal n ++ tail) := by
  obtain ⟨d, ds, hd, hdigit⟩ := exists_decimal n
  rw [hd]
  refine number?_year_of_ne ?_ ?_ _
  · rintro rfl
    cases hdigit
  · rintro rfl
    cases hdigit

theorem readFront?_yearCompletion (year : Int) (c : Components) (tail : List Char) :
    readFront? c (yearCompletion year).1 ((yearCompletion year).2.toList ++ tail) =
      readItem? c (.number .year) ((toString year).toList ++ tail) := by
  have htext : (yearCompletion year).2.toList ++ tail = ' ' :: ((toString year).toList ++ tail) := by
    rw [yearCompletion, String.toList_append]
    rfl
  generalize (toString year).toList ++ tail = cs at htext ⊢
  have hblank : readItem? c .blank (' ' :: cs) = some (c, Text.trimStart cs) := rfl
  have hnumber : readItem? c (.number .year) (Text.trimStart cs) = readItem? c (.number .year) cs := by
    rw [readItem?, readItem?, trimStart_trimStart]
  rw [htext, yearCompletion]
  simp only [readFront?, hblank, hnumber, Option.bind_eq_bind, Option.bind_some]
  cases readItem? c (.number .year) cs <;> rfl

/-- A year up to 9999 is read from its text. -/
theorem read_yearCompletion {year : Int} (hyear : year ≤ 9999) (c : Components) {tail : List Char}
    (htail : StartsBlank tail) :
    readFront? c (yearCompletion year).1 ((yearCompletion year).2.toList ++ tail) =
      (c.set? .year year).map (·, tail) := by
  rw [readFront?_yearCompletion]
  cases year with
  | ofNat n =>
      refine readItem?_number ?_ c
      change number? .year (Text.trimStart (decimal n ++ tail)) = _
      have hn : n ≤ 9999 := Int.ofNat_le.mp hyear
      rw [trimStart_decimal, number?_year_decimal, digits?_append htail, digits?_four_decimal hn]
      rfl
  | negSucc n =>
      have htext : (toString (Int.negSucc n)).toList = '-' :: decimal (n + 1) := by
        change ("-" ++ toString (n + 1)).toList = _
        rw [String.toList_append]
        rfl
      have hnumber : number? .year (Text.trimStart ((toString (Int.negSucc n)).toList ++ tail)) =
          if 0x8000000000000000 ≤ n + 1 then none else some (Int.negSucc n, tail) := by
        rw [htext]
        change (digits? none (decimal (n + 1) ++ tail)).map (fun read => (-read.1, read.2)) = _
        rw [digits?_append htail, digits?_none_decimal]
        split <;> rfl
      split at hnumber
      · -- a year of so many digits is out of range
        next hgreat =>
          have hset : c.set? .year (Int.negSucc n) = none := by
            rw [Components.set?, if_pos (by simp; omega)]
            rfl
          rw [readItem?, hnumber, hset]
          rfl
      · exact readItem?_number hnumber c

/-- Of a greater year digits are left. -/
theorem lt_countP_of_yearCompletion {year : Int} (hyear : 9999 < year) {c c' : Components}
    {tail rest : List Char}
    (h : readFront? c (yearCompletion year).1 ((yearCompletion year).2.toList ++ tail) = some (c', rest)) :
    tail.countP Char.isDigit < rest.countP Char.isDigit := by
  rw [readFront?_yearCompletion] at h
  obtain ⟨n, rfl⟩ := Int.eq_ofNat_of_zero_le (by omega : 0 ≤ year)
  obtain ⟨value, hvalue, -⟩ := readItem?_number_eq_some_iff.mp h
  change number? .year (Text.trimStart (decimal n ++ tail)) = _ at hvalue
  rw [trimStart_decimal, number?_year_decimal] at hvalue
  exact lt_countP_of_digits?_four (by omega) hvalue

/-! ### All completions -/

/-- A completion other than the year. -/
def Constant (k : Completion) : Prop := ∃ fill?, Fills k fill?

theorem Constant.separate {k : Completion} (h : Constant k) : Separate k :=
  let ⟨_, hk⟩ := h
  hk.separate

theorem startsBlank_flatMap {ks : List Completion} (hks : ∀ k ∈ ks, Separate k) :
    StartsBlank (ks.flatMap fun k => k.2.toList) := by
  cases ks with
  | nil => exact startsBlank_nil
  | cons k ks =>
      obtain ⟨_, cs, -, htext⟩ := hks k List.mem_cons_self
      rw [List.flatMap_cons, htext]
      exact startsBlank_cons _

theorem readCompletions?_cons {k : Completion} {ks : List Completion} (c : Components) :
    readCompletions? c (k :: ks) =
      (readFront? c k.1 (k.2.toList ++ ks.flatMap fun k => k.2.toList)).bind fun (d, rest) =>
        readItems? d (ks.flatMap Prod.fst) rest := by
  rw [readCompletions?, List.flatMap_cons, List.flatMap_cons, readItems?_append]

/-- What a completion fills in is filled in first. -/
theorem Fills.readCompletions?_cons {k : Completion} {ks : List Completion}
    {fill? : Components → Option Components} (hk : Fills k fill?) (hks : ∀ k ∈ ks, Constant k)
    (c : Components) : readCompletions? c (k :: ks) = (fill? c).bind (readCompletions? · ks) := by
  have hblank := startsBlank_flatMap fun k hk => (hks k hk).separate
  rw [Layout.readCompletions?_cons, hk.read c _ hblank]
  cases fill? c <;> rfl

/-- Items read no more digits than the texts that they are read from. -/
theorem countP_le_of_readItems? {ks : List Completion} (hks : ∀ k ∈ ks, Constant k) {c c' : Components}
    {cs : List Char} (h : readItems? c (ks.flatMap Prod.fst) cs = some c') :
    cs.countP Char.isDigit ≤ (ks.flatMap fun k => k.2.toList).countP Char.isDigit := by
  induction ks generalizing c cs with
  | nil =>
      cases cs with
      | nil => exact Nat.le_refl _
      | cons => cases h
  | cons k ks ih =>
      rw [List.forall_mem_cons] at hks
      obtain ⟨⟨fill?, hk⟩, hks⟩ := hks
      rw [List.flatMap_cons, readItems?_append] at h
      obtain ⟨⟨d, rest⟩, hfront, hrest⟩ := Option.bind_eq_some_iff.mp h
      have hfrontLe := hk.digits hfront
      have hrestLe := ih hks hrest
      rw [List.flatMap_cons, List.countP_append]
      omega

/-- The year is filled in if it can be read, and otherwise nothing is read. -/
theorem readCompletions?_year {year : Int} {ks : List Completion} (hks : ∀ k ∈ ks, Constant k) {c : Components}
    (hc : c.year? = none) :
    readCompletions? c (yearCompletion year :: ks) =
      if IsReadable year then readCompletions? { c with year? := some year } ks else none := by
  have hblank := startsBlank_flatMap fun k hk => (hks k hk).separate
  rw [readCompletions?_cons]
  rcases le_or_gt year 9999 with hle | hgt
  · rw [read_yearCompletion hle c hblank]
    have hset : c.set? .year year =
        if IsReadable year then some { c with year? := some year } else none := by
      have hhigh : ¬ 0x80000000 ≤ year := by omega
      by_cases hlow : year < -0x80000000
      · rw [if_neg fun h => absurd h.1 (by omega)]
        simp [Components.set?, hlow]
      · rw [if_pos ⟨by omega, hle⟩]
        simp [Components.set?, hlow, hhigh, hc, Components.agree]
    rw [hset]
    split <;> rfl
  · rw [if_neg fun h => absurd h.2 (by omega)]
    refine Option.eq_none_iff_forall_ne_some.mpr fun c' h => ?_
    obtain ⟨⟨d, rest⟩, hfront, hrest⟩ := Option.bind_eq_some_iff.mp h
    have hleft := lt_countP_of_yearCompletion hgt hfront
    have hread := countP_le_of_readItems? hks hrest
    omega

section Unless

variable {named : Prop} [Decidable named] {k : Completion}

theorem forall_mem_missingUnless {P : Completion → Prop} (h : P k) : ∀ k' ∈ missingUnless named k, P k' := by
  intro k' hk'
  unfold missingUnless at hk'
  split at hk'
  · cases hk'
  · cases List.mem_singleton.mp hk'
    exact h

theorem names_missingUnless {p : Part} :
    Names ((missingUnless named k).flatMap Prod.fst) p ↔ ¬ named ∧ Names k.1 p := by
  unfold missingUnless
  split <;> simp [*]

/-- A missing completion is read first. -/
theorem Fills.readCompletions?_missingUnless {fill? : Components → Option Components} (hk : Fills k fill?)
    {ks : List Completion} (hks : ∀ k ∈ ks, Constant k) {c c' : Components} (hkeep : named → c' = c)
    (hfill : ¬ named → fill? c = some c') :
    readCompletions? c (missingUnless named k ++ ks) = readCompletions? c' ks := by
  unfold missingUnless
  split
  · next h => rw [hkeep h, List.nil_append]
  · next h => rw [List.singleton_append, hk.readCompletions?_cons hks, hfill h, Option.bind_some]

end Unless

theorem constant_of_mem_missingMonth {items : List LayoutItem} : ∀ k ∈ missingMonth items, Constant k :=
  forall_mem_missingUnless ⟨_, fills_month⟩

theorem constant_of_mem_missingDay {items : List LayoutItem} : ∀ k ∈ missingDay items, Constant k :=
  forall_mem_missingUnless ⟨_, fills_day⟩

theorem constant_of_mem_missingClock {items : List LayoutItem} : ∀ k ∈ missingClock items, Constant k := by
  unfold missingClock
  split
  · exact forall_mem_missingUnless ⟨_, fills_minute⟩
  · exact List.forall_mem_singleton.mpr ⟨_, fills_midnight⟩

/-- The month is filled in if the items name neither it nor the day of the year. -/
theorem readCompletions?_month {items : List LayoutItem} {ks : List Completion} (hks : ∀ k ∈ ks, Constant k)
    {c : Components} (hmonth : c.knows .month = true ↔ Names items .month)
    (hday : c.knows .dayOfYear = true ↔ Names items .dayOfYear) :
    readCompletions? c (missingMonth items ++ ks) = readCompletions? c.fillMonth ks := by
  refine fills_month.readCompletions?_missingUnless hks (fun h => ?_) (fun h => ?_)
  · exact if_pos (by rwa [Bool.or_eq_true, hmonth, hday])
  · rw [Components.fillMonth, if_neg (by rwa [Bool.or_eq_true, hmonth, hday])]
    rw [not_or, ← hmonth] at h
    have hunknown : c.month? = none := by simpa [Components.knows] using h.1
    simp [Components.set?, Components.agreeWithin, Components.agree, hunknown]

/-- The day is filled in if the items name neither it nor the day of the year. -/
theorem readCompletions?_day {items : List LayoutItem} {ks : List Completion} (hks : ∀ k ∈ ks, Constant k)
    {c : Components} (hday : c.knows .day = true ↔ Names items .day)
    (hdayOfYear : c.knows .dayOfYear = true ↔ Names items .dayOfYear) :
    readCompletions? c (missingDay items ++ ks) = readCompletions? c.fillDay ks := by
  refine fills_day.readCompletions?_missingUnless hks (fun h => ?_) (fun h => ?_)
  · exact if_pos (by rwa [Bool.or_eq_true, hday, hdayOfYear])
  · rw [Components.fillDay, if_neg (by rwa [Bool.or_eq_true, hday, hdayOfYear])]
    rw [not_or, ← hday] at h
    have hunknown : c.day? = none := by simpa [Components.knows] using h.1
    simp [Components.set?, Components.agreeWithin, Components.agree, hunknown]

/-- The time is filled in if it goes with what is known of it. -/
theorem readCompletions?_clock {items : List LayoutItem} {c : Components}
    (hhour : c.knows .hour = true ↔ Names items .hour) (hminute : c.knows .minute = true ↔ Names items .minute)
    (hhalf : c.knows .hour = true → c.knows .half = true) :
    readCompletions? c (missingClock items) = if c.ClockFits then some c.fillClock else none := by
  unfold missingClock
  have hnil : ∀ d, readCompletions? d [] = some d := fun _ => rfl
  by_cases hknown : c.knows .hour = true
  · -- the half of the day and the hour stay
    have hfill : c.fillClock = { c with minute? := some (c.minute?.getD 0) } := by
      obtain ⟨afternoon, hafternoon⟩ := Option.isSome_iff_exists.mp (hhalf hknown)
      obtain ⟨hour, hhour⟩ := Option.isSome_iff_exists.mp hknown
      simp [Components.fillClock, hafternoon, hhour]
    have hfits : c.ClockFits := .inl hknown
    rw [if_pos (hhour.mp hknown), if_pos hfits, hfill]
    rw [← List.append_nil (missingUnless ..), ← hnil]
    refine fills_minute.readCompletions?_missingUnless (by simp) (fun hnames => ?_) (fun hnames => ?_)
    · obtain ⟨minute, hsome⟩ := Option.isSome_iff_exists.mp (hminute.mpr hnames)
      have hsame : some (c.minute?.getD 0) = c.minute? := by rw [hsome, Option.getD_some]
      rw [hsame]
    · have hunknown : c.minute? = none := by simpa [Components.knows] using mt hminute.mp hnames
      simp [Components.set?, Components.agreeWithin, Components.agree, hunknown]
  · have hunknown : c.halfDayHour? = none := by simpa [Components.knows] using hknown
    rw [if_neg (mt hhour.mpr hknown), fills_midnight.readCompletions?_cons (by simp)]
    simp only [Components.ClockFits, hknown, Bool.false_eq_true, false_or, hnil]
    rw [Components.set?_midnight hunknown]
    split <;> rfl

/-- Completions fill in all that is not known, if the assumed year can be read and the time goes with what is
known of it. -/
theorem readCompletions?_missing {year : Int} {items : List LayoutItem} {c : Components}
    (hknows : ∀ p, c.knows p = true ↔ Names items p) (hhalf : Names items .hour → Names items .half) :
    readCompletions? c (missing year items) =
      if (Names items .year ∨ IsReadable year) ∧ c.ClockFits then some (c.completed year) else none := by
  have hday : ∀ k ∈ missingDay items ++ missingClock items, Constant k :=
    List.forall_mem_append.mpr ⟨constant_of_mem_missingDay, constant_of_mem_missingClock⟩
  have hmonth : ∀ k ∈ missingMonth items ++ (missingDay items ++ missingClock items), Constant k :=
    List.forall_mem_append.mpr ⟨constant_of_mem_missingMonth, hday⟩
  have hyearKnows : ∀ {p}, p ≠ .year → ((c.fillYear year).knows p = true ↔ Names items p) := by
    intro p hp
    rw [c.knows_fillYear year hp, hknows]
  have hmonthKnows : ∀ {p}, p ≠ .year → p ≠ .month →
      ((c.fillYear year).fillMonth.knows p = true ↔ Names items p) := by
    intro p hp hp'
    rw [Components.knows_fillMonth _ hp', hyearKnows hp]
  have hdayKnows : ∀ {p}, p ≠ .year → p ≠ .month → p ≠ .day →
      ((c.fillYear year).fillMonth.fillDay.knows p = true ↔ Names items p) := by
    intro p hp hp' hp''
    rw [Components.knows_fillDay _ hp'', hmonthKnows hp hp']
  have hrest := calc
    readCompletions? (c.fillYear year) (missingMonth items ++ (missingDay items ++ missingClock items))
    _ = readCompletions? (c.fillYear year).fillMonth (missingDay items ++ missingClock items) :=
      readCompletions?_month hday (hyearKnows (by decide)) (hyearKnows (by decide))
    _ = readCompletions? (c.fillYear year).fillMonth.fillDay (missingClock items) :=
      readCompletions?_day constant_of_mem_missingClock (hmonthKnows (by decide) (by decide))
        (hmonthKnows (by decide) (by decide))
    _ = if (c.fillYear year).fillMonth.fillDay.ClockFits then some (c.completed year) else none := by
      refine readCompletions?_clock (hdayKnows (by decide) (by decide) (by decide))
        (hdayKnows (by decide) (by decide) (by decide)) fun h => ?_
      rw [hdayKnows (by decide) (by decide) (by decide)] at h ⊢
      exact hhalf h
    _ = if c.ClockFits then some (c.completed year) else none := by
      simp only [Components.clockFits_fillDay, Components.clockFits_fillMonth, Components.clockFits_fillYear]
  unfold missing missingYear missingUnless
  by_cases hyear : Names items .year
  · have hsame : c.fillYear year = c := if_pos ((hknows .year).mpr hyear)
    rw [hsame] at hrest
    rw [if_pos hyear, List.nil_append, hrest]
    simp only [hyear, true_or, true_and]
  · have hunknown : c.knows .year = false := by rwa [← hknows, Bool.not_eq_true] at hyear
    have hnew : c.fillYear year = { c with year? := some year } := if_neg (by simp [hunknown])
    rw [hnew] at hrest
    rw [if_neg hyear, List.singleton_append, readCompletions?_year hmonth, hrest]
    · simp only [hyear, false_or, ite_and]
    · simpa [Components.knows] using (Bool.or_eq_false_iff.mp hunknown).1

end Layout

end LogRules.Time

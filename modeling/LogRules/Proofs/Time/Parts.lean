import LogRules.Proofs.Result
import LogRules.Proofs.Time.Reading

/-! # The parts of a date

What a date is made of, seen from the layout (`Names`: the items that read a part) and from the components
(`Components.knows`: the values that give it). Reading an item makes its parts known and no others
(`knows_of_readItem?`), so reading all items makes known what they name (`knows_of_readFront?`). A layout of a
format names what the letters of the format stand for (`names_formatItems_iff`). -/

namespace LogRules.Time

/-- A part of a date. -/
inductive Part where
  | year
  | month
  | day
  | dayOfYear
  /-- Before or after noon. -/
  | half
  /-- The hour from midnight or noon. -/
  | hour
  | minute
  | timestamp
  deriving DecidableEq, Repr

namespace LayoutItem

/-- The parts that an item reads. An hour of the day is the half of the day and the hour of the half. -/
def parts : LayoutItem → List Part
  | .number .year => [.year]
  | .number .yearOfCentury => [.year]
  | .number .month => [.month]
  | .monthName _ => [.month]
  | .number .day => [.day]
  | .number .dayOfYear => [.dayOfYear]
  | .number .hour => [.half, .hour]
  | .number .halfDayHour => [.hour]
  | .halfDay => [.half]
  | .number .minute => [.minute]
  | .number .second => []
  | .number .timestamp => [.timestamp]
  | .char _ => []
  | .blank => []

end LayoutItem

/-- One of the items reads the part. -/
def Names (items : List LayoutItem) (p : Part) : Prop := p ∈ items.flatMap LayoutItem.parts

instance (items : List LayoutItem) (p : Part) : Decidable (Names items p) :=
  inferInstanceAs (Decidable (p ∈ items.flatMap LayoutItem.parts))

@[simp] theorem not_names_nil (p : Part) : ¬ Names [] p := List.not_mem_nil

@[simp] theorem names_cons {item : LayoutItem} {items : List LayoutItem} {p : Part} :
    Names (item :: items) p ↔ p ∈ item.parts ∨ Names items p := by
  simp [Names]

@[simp] theorem names_append {items more : List LayoutItem} {p : Part} :
    Names (items ++ more) p ↔ Names items p ∨ Names more p := by
  simp [Names]

/-! ### What components know -/

namespace Components

/-- The components give the part. -/
def knows (c : Components) : Part → Bool
  | .year => c.year?.isSome || c.yearOfCentury?.isSome
  | .month => c.month?.isSome
  | .day => c.day?.isSome
  | .dayOfYear => c.dayOfYear?.isSome
  | .half => c.afternoon?.isSome
  | .hour => c.halfDayHour?.isSome
  | .minute => c.minute?.isSome
  | .timestamp => c.timestamp?.isSome

theorem agree_eq_some_iff {α : Type} [DecidableEq α] {known? result? : Option α} {value : α} :
    agree known? value = some result? ↔
      result? = some value ∧ (known? = none ∨ known? = some value) := by
  unfold agree
  cases known? with
  | none => simp [eq_comm]
  | some known => simp only [Option.ite_none_right_eq_some, Option.some.injEq]; grind

theorem isSome_of_agree {α : Type} [DecidableEq α] {known? result? : Option α} {value : α}
    (h : agree known? value = some result?) : result?.isSome = true := by
  rw [(agree_eq_some_iff.mp h).1, Option.isSome_some]

theorem isSome_of_agreeWithin {low high : Nat} {known? result? : Option Nat} {value : Int}
    (h : agreeWithin low high known? value = some result?) : result?.isSome = true := by
  unfold agreeWithin at h
  split at h
  · exact isSome_of_agree h
  · cases h

/-- An update that succeeds has the value that it needs. -/
theorem exists_of_update {α : Type} {x : Option α} {f : α → Components} {c : Components}
    (h : (do return f (← x)) = some c) : ∃ a, x = some a ∧ f a = c := by
  obtain ⟨a, ha, h⟩ := Option.bind_eq_some_iff.mp h
  exact ⟨a, ha, Option.some.inj h⟩

theorem knows_of_setAfternoon? {c c' : Components} {afternoon : Bool}
    (h : c.setAfternoon? afternoon = some c') (p : Part) :
    c'.knows p = (c.knows p || decide (p = .half)) := by
  obtain ⟨k, hk, rfl⟩ := exists_of_update h
  cases p <;> simp [knows, isSome_of_agree hk]

theorem knows_of_setHalfDayHour? {c c' : Components} {hour : Nat}
    (h : c.setHalfDayHour? hour = some c') (p : Part) :
    c'.knows p = (c.knows p || decide (p = .hour)) := by
  obtain ⟨k, hk, rfl⟩ := exists_of_update h
  cases p <;> simp [knows, isSome_of_agree hk]

/-- A component that is set makes its parts known. -/
theorem knows_of_set? {c c' : Components} {component : Component} {value : Int}
    (h : c.set? component value = some c') (p : Part) :
    c'.knows p = (c.knows p || decide (p ∈ (LayoutItem.number component).parts)) := by
  cases component with
  | year =>
      rw [set?] at h
      split at h
      · cases h
      · obtain ⟨k, hk, rfl⟩ := exists_of_update h
        cases p <;> simp [knows, LayoutItem.parts, isSome_of_agree hk]
  | hour =>
      rw [set?] at h
      split at h
      · obtain ⟨d, hd, hd'⟩ := Option.bind_eq_some_iff.mp h
        rw [knows_of_setHalfDayHour? hd', knows_of_setAfternoon? hd]
        simp [LayoutItem.parts, Bool.or_assoc]
      · cases h
  | halfDayHour =>
      rw [set?] at h
      split at h
      · rw [knows_of_setHalfDayHour? h]
        simp [LayoutItem.parts]
      · cases h
  | timestamp =>
      obtain ⟨k, hk, rfl⟩ := exists_of_update h
      cases p <;> simp [knows, LayoutItem.parts, isSome_of_agree hk]
  | yearOfCentury | month | day | dayOfYear | minute | second =>
      obtain ⟨k, hk, rfl⟩ := exists_of_update h
      cases p <;> simp [knows, LayoutItem.parts, isSome_of_agreeWithin hk]

end Components

/-! ### Reading items -/

namespace Layout

/-- An item that is read makes its parts known. -/
theorem knows_of_readItem? {c c' : Components} {item : LayoutItem} {cs rest : List Char}
    (h : readItem? c item cs = some (c', rest)) (p : Part) :
    c'.knows p = (c.knows p || decide (p ∈ item.parts)) := by
  cases item with
  | char expected =>
      cases cs with
      | nil => cases h
      | cons d behind =>
          rw [readItem?, Option.ite_none_right_eq_some] at h
          cases h.2
          simp [LayoutItem.parts]
  | blank =>
      cases h
      simp [LayoutItem.parts]
  | number component =>
      obtain ⟨value, -, hset⟩ := readItem?_number_eq_some_iff.mp h
      exact Components.knows_of_set? hset p
  | monthName long =>
      obtain ⟨value, -, hset⟩ := readItem?_monthName_eq_some_iff.mp h
      exact Components.knows_of_set? hset p
  | halfDay =>
      rw [readItem?] at h
      split at h
      · obtain ⟨d, hd, h⟩ := Option.map_eq_some_iff.mp h
        cases h
        rw [Components.knows_of_setAfternoon? hd, LayoutItem.parts]
        simp
      · obtain ⟨d, hd, h⟩ := Option.map_eq_some_iff.mp h
        cases h
        rw [Components.knows_of_setAfternoon? hd, LayoutItem.parts]
        simp
      · cases h

/-- Items that are read make known what they name. -/
theorem knows_of_readFront? {c c' : Components} {items : List LayoutItem} {cs rest : List Char}
    (h : readFront? c items cs = some (c', rest)) (p : Part) :
    c'.knows p = true ↔ c.knows p = true ∨ Names items p := by
  induction items generalizing c cs with
  | nil =>
      cases h
      simp
  | cons item items ih =>
      obtain ⟨d, middle, hitem, hitems⟩ := readFront?_cons_eq_some_iff.mp h
      rw [ih hitems, knows_of_readItem? hitem, names_cons, Bool.or_eq_true, decide_eq_true_iff, or_assoc]

/-! ### What formats name -/

theorem names_literalItems (text : String) (p : Part) : ¬ Names (literalItems text) p := by
  intro h
  obtain ⟨item, hitem, hp⟩ := List.mem_flatMap.mp h
  obtain ⟨c, -, rfl⟩ := List.mem_map.mp hitem
  split at hp <;> cases hp

theorem hasSpec_iff {letters : String} {f : TimeFormat} :
    hasSpec letters f = true ↔ ∃ c ∈ letters.toList, .spec c ∈ f := by
  unfold hasSpec
  rw [List.any_eq_true]
  constructor
  · rintro ⟨part, hpart, h⟩
    cases part with
    | literal text => cases h
    | spec c => exact ⟨c, by simpa using h, hpart⟩
  · rintro ⟨c, hc, hpart⟩
    exact ⟨.spec c, hpart, by simpa using hc⟩

end Layout

/-- The letters whose specifiers read a part. The half of the day is read together with the hour, unless an
hour from 1 to 12 has a specifier of its own for it. -/
def Part.letters (twelveHours : Bool) : Part → String
  | .year => "CYW"
  | .month => "CRBMG"
  | .day => "CDF"
  | .dayOfYear => "J"
  | .half => if twelveHours then "CHNZPQ" else "CHNIZPQ"
  | .hour => "CHNIZ"
  | .minute => "CTUZ"
  | .timestamp => "X"

namespace Layout

theorem names_specItems_iff {twelveHours : Bool} {c : Char} {items : List LayoutItem}
    (h : specItems? twelveHours c = some items) (p : Part) :
    Names items p ↔ c ∈ (p.letters twelveHours).toList := by
  unfold specItems? at h
  split at h <;> cases h <;> cases twelveHours <;> cases p <;> decide

/-- The layout of a format names the parts whose letters the format has. -/
theorem names_formatItems_iff {twelveHours afterSpec : Bool} {f : TimeFormat} {items : List LayoutItem}
    (h : formatItems twelveHours afterSpec f = .ok items) (p : Part) :
    Names items p ↔ hasSpec (p.letters twelveHours) f = true := by
  rw [hasSpec_iff]
  induction f generalizing afterSpec items with
  | nil =>
      cases h
      simp
  | cons part rest ih =>
      cases part with
      | literal text =>
          obtain ⟨behind, hbehind, rfl⟩ := map_eq_ok.mp h
          rw [names_append, ih hbehind]
          simp [names_literalItems]
      | spec c =>
          rw [formatItems] at h
          split at h
          · cases h
          · next its hits =>
              obtain ⟨behind, hbehind, rfl⟩ := map_eq_ok.mp h
              have hblank : ¬ Names (if afterSpec then [.blank] else []) p := by
                cases afterSpec <;> simp [LayoutItem.parts]
              rw [names_append, names_append, names_specItems_iff hits, ih hbehind]
              simp [hblank, and_or_left, exists_or]

end Layout

end LogRules.Time

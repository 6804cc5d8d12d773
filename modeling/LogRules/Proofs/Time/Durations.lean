import LogRules.Processing.Compile
import LogRules.Proofs.Result
import LogRules.Proofs.Text.Decimal

/-! # Exact durations

Numbers, products and sums of a duration end at the greatest number one by one. That is the same as to compute
with the numbers of the text as they are and to end at the greatest number once (`numbers_eq_map`,
`totalFrom?_eq`). So the value of a duration is the capped sum for the first format that finds all its numbers
in the text, and nothing of a format that does not is left to the next (`duration?_eq`). -/

namespace LogRules.Time

/-! ### The numbers of a text -/

/-- The maximal runs of digits of a text: what stands between characters that are no digits. -/
def digitRuns (cs : List Char) : List (List Char) :=
  (cs.splitOnP fun c => !c.isDigit).filter (· ≠ [])

/-- The numbers of a text without a limit. -/
def exactNumbers (cs : List Char) : List Nat :=
  (digitRuns cs).map fun run => Nat.ofDigits 10 (run.reverse.map Text.digitValue)

theorem addDigit_min (n : Nat) (c : Char) :
    addDigit (min maxSeconds n) c = min maxSeconds (n * 10 + Text.digitValue c) := by
  unfold addDigit addCapped mulCapped Text.digitValue
  omega

/-- The numbers of pieces of a text that hold nothing but digits. -/
def cappedNumbers (pieces : List (List Char)) : List Nat :=
  (pieces.filter (· ≠ [])).map fun run => min maxSeconds (Text.digitsValue run)

/-- The numbers of a text in both states of the reader: between numbers, and behind the first digits of one,
which go on to the next character that is no digit. -/
theorem numbersFrom_eq {cs first : List Char} {more : List (List Char)}
    (h : cs.splitOnP (fun c => !c.isDigit) = first :: more) :
    numbersFrom none cs = cappedNumbers (first :: more) ∧
    ∀ n, numbersFrom (some (min maxSeconds n)) cs =
      min maxSeconds (first.foldl (fun n c => n * 10 + Text.digitValue c) n) :: cappedNumbers more := by
  induction cs generalizing first more with
  | nil =>
      cases h
      exact ⟨rfl, fun n => rfl⟩
  | cons c rest ih =>
      obtain ⟨next, others, hrest⟩ :=
        List.exists_cons_of_ne_nil (List.splitOnP_ne_nil (fun c : Char => !c.isDigit) rest)
      obtain ⟨hnone, hsome⟩ := ih hrest
      rw [List.splitOnP_cons_eq_if_modifyHead, hrest] at h
      by_cases hdigit : c.isDigit = true
      · -- the digit is the first one of the piece
        simp only [hdigit, Bool.not_true, Bool.false_eq_true, if_false, List.modifyHead_cons] at h
        cases h
        have hread : ∀ n? : Option Nat, numbersFrom n? (c :: rest) =
            numbersFrom (some (addDigit (n?.getD 0) c)) rest := by
          intro n?
          rw [numbersFrom, if_pos hdigit]
        refine ⟨?_, fun n => ?_⟩
        · have hfirst : addDigit 0 c = min maxSeconds (0 * 10 + Text.digitValue c) := addDigit_min 0 c
          rw [hread, Option.getD_none, hfirst, hsome]
          simp [cappedNumbers, Text.digitsValue]
        · rw [hread, Option.getD_some, addDigit_min, hsome]
          rfl
      · simp only [hdigit, Bool.not_false, if_true] at h
        cases h
        have hread : ∀ n? : Option Nat, numbersFrom n? (c :: rest) = n?.toList ++ numbersFrom none rest := by
          intro n?
          rw [numbersFrom, if_neg hdigit]
        refine ⟨?_, fun n => ?_⟩
        · rw [hread, hnone]
          rfl
        · rw [hread, hnone]
          rfl

/-- The numbers that are read are the numbers of the text, each up to the greatest number. -/
theorem numbers_eq_map (s : String) : numbers s = (exactNumbers s.toList).map (min maxSeconds) := by
  obtain ⟨first, more, hsplit⟩ :=
    List.exists_cons_of_ne_nil (List.splitOnP_ne_nil (fun c : Char => !c.isDigit) s.toList)
  rw [numbers, (numbersFrom_eq hsplit).1, exactNumbers, digitRuns, hsplit, List.map_map, cappedNumbers]
  exact List.map_congr_left fun run _ => congrArg (min maxSeconds) (Text.digitsValue_eq_ofDigits run)

/-! ### The sum -/

/-- A product with a positive number ends at the greatest number as soon as the other number does. -/
theorem mulCapped_min {m : Nat} (hm : 0 < m) (n : Nat) :
    mulCapped (min maxSeconds n) m = min maxSeconds (m * n) := by
  unfold mulCapped
  rcases Nat.le_total n maxSeconds with hle | hle
  · rw [min_eq_right hle, Nat.mul_comm]
  · have hmul : maxSeconds ≤ maxSeconds * m := Nat.le_mul_of_pos_right maxSeconds hm
    have hmul' : maxSeconds ≤ m * n := hle.trans (Nat.le_mul_of_pos_left n hm)
    rw [min_eq_left hle, min_eq_left hmul, min_eq_left hmul']

theorem addCapped_min (a b : Nat) :
    addCapped (min maxSeconds a) (min maxSeconds b) = min maxSeconds (a + b) := by
  unfold addCapped
  omega

/-- The sum of capped numbers is the capped sum, if there are numbers enough. -/
theorem totalFrom?_eq {ms : List Nat} (hms : ∀ m ∈ ms, 0 < m) (total : Nat) (ns : List Nat) :
    totalFrom? (min maxSeconds total) ms (ns.map (min maxSeconds)) =
      if ms.length ≤ ns.length then
        some (min maxSeconds (total + (List.zipWith (· * ·) ms ns).sum))
      else none := by
  induction ms generalizing total ns with
  | nil => rfl
  | cons m ms ih =>
      rw [List.forall_mem_cons] at hms
      cases ns with
      | nil => rfl
      | cons n ns =>
          rw [List.map_cons, totalFrom?, mulCapped_min hms.1, addCapped_min, ih hms.2]
          simp only [List.length_cons, Nat.add_le_add_iff_right, List.zipWith_cons_cons, List.sum_cons,
            Nat.add_assoc]

/-! ### Formats -/

/-- The seconds that each number of a specifier counts: a month has thirty days, and a time of day is hours,
minutes and seconds. -/
def specifierSeconds (c : Char) : List Nat :=
  if c ∈ ['M', 'G'] then [2592000]
  else if c ∈ ['D', 'J', 'A'] then [86400]
  else if c ∈ ['F', 'H', 'I', 'N'] then [3600]
  else if c ∈ ['T', 'U'] then [60]
  else if c ∈ ['S', 'O'] then [1]
  else if c = 'Z' then [3600, 60, 1]
  else []

/-- The seconds that the numbers of a format count. -/
def multipliers (f : TimeFormat) : List Nat :=
  f.flatMap fun
    | .literal _ => []
    | .spec c => specifierSeconds c

/-- How many numbers a format reads: a time of day has three of them. -/
def numberCount (f : TimeFormat) : Nat :=
  (f.map fun
    | .literal _ => 0
    | .spec c => if c = 'Z' then 3 else 1).sum

theorem multipliers?_eq_some {c : Char} {ms : List Nat} (h : multipliers? c = some ms) :
    ms = specifierSeconds c ∧ ms.length = (if c = 'Z' then 3 else 1) ∧ ∀ m ∈ ms, 0 < m := by
  unfold multipliers? at h
  split at h <;> cases h <;> decide

/-- A format whose specifiers have a meaning has one positive multiplier for each of its numbers. -/
theorem multipliersOf_eq_ok {f : TimeFormat} {ms : List Nat} (h : multipliersOf f = .ok ms) :
    ms = multipliers f ∧ ms.length = numberCount f ∧ ∀ m ∈ ms, 0 < m := by
  induction f generalizing ms with
  | nil =>
      cases h
      exact ⟨rfl, rfl, by simp⟩
  | cons part rest ih =>
      cases part with
      | literal text =>
          obtain ⟨heq, hlength, hpos⟩ := ih h
          exact ⟨heq, by rw [hlength]; simp [numberCount], hpos⟩
      | spec c =>
          rw [multipliersOf] at h
          split at h
          · cases h
          · next front hfront =>
              obtain ⟨behind, hbehind, rfl⟩ := map_eq_ok.mp h
              obtain ⟨heq, hlength, hpos⟩ := ih hbehind
              obtain ⟨rfl, hlength', hpos'⟩ := multipliers?_eq_some hfront
              refine ⟨?_, ?_, ?_⟩
              · simp [multipliers, heq]
              · rw [List.length_append, hlength', hlength]
                simp [numberCount]
              · exact List.forall_mem_append.mpr ⟨hpos', hpos⟩

/-- The seconds of a text are those of the first format that finds all its numbers. -/
theorem duration?_eq {formats : List TimeFormat} {ms : List (List Nat)}
    (h : formats.mapM multipliersOf = .ok ms) (s : String) :
    duration? ms s = (formats.find? fun f => numberCount f ≤ (exactNumbers s.toList).length).map fun f =>
      min maxSeconds (List.zipWith (· * ·) (multipliers f) (exactNumbers s.toList)).sum := by
  have htotal : ∀ {f ms}, multipliersOf f = .ok ms → totalFrom? 0 ms (numbers s) =
      if numberCount f ≤ (exactNumbers s.toList).length then
        some (min maxSeconds (List.zipWith (· * ·) (multipliers f) (exactNumbers s.toList)).sum)
      else none := by
    intro f ms hms
    obtain ⟨rfl, hlength, hpos⟩ := multipliersOf_eq_ok hms
    have htotal := totalFrom?_eq hpos 0 (exactNumbers s.toList)
    rwa [Nat.min_zero, Nat.zero_add, ← numbers_eq_map, hlength] at htotal
  have hall := mapM_eq_ok.mp h
  clear h
  unfold duration?
  induction hall with
  | nil => rfl
  | @cons f _ _ _ hms _ ih =>
      rw [List.findSome?_cons, List.find?_cons, htotal hms, ih]
      by_cases hcount : numberCount f ≤ (exactNumbers s.toList).length
      · simp only [hcount, if_true, decide_true, Option.map_some]
      · simp only [hcount, if_false, decide_false]

end LogRules.Time

namespace LogRules

open Time

namespace Fields

/-- Fields that are set give their values with spaces between them. -/
theorem readJoined_eq_ok {fields : Fields} {names values : List String}
    (h : List.Forall₂ (fun name value => fields.get? name = some value) names values) :
    fields.readJoined names = .ok (String.intercalate " " values) := by
  have hread : names.mapM fields.read = .ok values := mapM_eq_ok.mpr <| h.imp fun name value hname => by
    rw [read, hname]
  rw [readJoined, hread]
  rfl

/-- The first field that is not set is missed. -/
theorem readJoined_eq_error {fields : Fields} {before after : List String} {name : String}
    (hbefore : ∀ other ∈ before, (fields.get? other).isSome = true) (hname : fields.get? name = none) :
    fields.readJoined (before ++ name :: after) = .error (.fieldNotFound name) := by
  have hread : (before ++ name :: after).mapM fields.read = .error (.fieldNotFound name) := by
    induction before with
    | nil =>
        have hfirst : fields.read name = .error (.fieldNotFound name) := by rw [read, hname]
        rw [List.nil_append, List.mapM_cons, hfirst]
        rfl
    | cons other rest ih =>
        rw [List.forall_mem_cons] at hbefore
        obtain ⟨value, hvalue⟩ := Option.isSome_iff_exists.mp hbefore.1
        have hfirst : fields.read other = .ok value := by rw [read, hvalue]
        rw [List.cons_append, List.mapM_cons, hfirst, ih hbefore.2]
        rfl
  rw [readJoined, hread]
  rfl

end Fields

/-- The operation of a duration has the multipliers of its formats. -/
theorem Node.compileAction_duration {settings : Settings} {maps : Table ValueMap} {a : Action}
    {reading : TimeReading} {op : Operation} (heffect : a.effect = .duration reading)
    (hop : compileAction settings maps a = .ok op) :
    ∃ ms, reading.formats.mapM multipliersOf = .ok ms ∧
      op = ⟨reading.target, .duration reading.fields ms⟩ := by
  unfold compileAction at hop
  rw [heffect] at hop
  obtain ⟨ms, hms, h⟩ := bind_eq_ok.mp hop
  cases h
  refine ⟨ms, mapM_eq_ok.mpr ((mapM_eq_ok.mp hms).imp fun f ms h => ?_), rfl⟩
  unfold atLetter at h
  split at h
  · next ms' hms' => exact hms'.trans (congrArg Except.ok (Except.ok.inj h))
  · cases h

/-- **Durations are exact up to the greatest number.** When all fields are set, the value is the sum of the
numbers of their texts, each with its multiplier, up to 2^63 - 1, for the first format that has no more numbers
than the texts, and a duration error with the texts when no format has so few. A format has one multiplier for
each of its numbers. The first field that is not set is missed. -/
theorem duration_exact {settings : Settings} {maps : Table ValueMap} {a : Action} {reading : TimeReading}
    {op : Operation} (heffect : a.effect = .duration reading)
    (hop : Node.compileAction settings maps a = .ok op) (fields : Fields) :
    (∀ values, List.Forall₂ (fun name value => fields.get? name = some value) reading.fields values →
      let text := String.intercalate " " values
      let numbers := exactNumbers text.toList
      op.compute settings fields =
        match reading.formats.find? fun f => numberCount f ≤ numbers.length with
        | some f => .ok (some (toString
            (min (2 ^ 63 - 1) (List.zipWith (· * ·) (multipliers f) numbers).sum)))
        | none => .error (.duration reading.target text)) ∧
    (∀ f ∈ reading.formats, (multipliers f).length = numberCount f) ∧
    (∀ before name after, reading.fields = before ++ name :: after →
      (∀ other ∈ before, (fields.get? other).isSome = true) → fields.get? name = none →
      op.compute settings fields = .error (.fieldNotFound name)) := by
  obtain ⟨ms, hms, rfl⟩ := Node.compileAction_duration heffect hop
  rw [show (2 ^ 63 - 1 : Nat) = maxSeconds from rfl]
  refine ⟨fun values hvalues => ?_, fun f hf => ?_, fun before name after hfields hbefore hname => ?_⟩
  · intro text numbers
    have hjoined : fields.readJoined reading.fields = .ok text := Fields.readJoined_eq_ok hvalues
    simp only [Operation.compute, hjoined]
    simp only [bind, Except.bind, duration?_eq hms text, numbers]
    cases reading.formats.find? fun f => numberCount f ≤ (exactNumbers text.toList).length <;> rfl
  · obtain ⟨_, hread⟩ := exists_of_mapM_eq_ok hms hf
    obtain ⟨rfl, hlength, -⟩ := multipliersOf_eq_ok hread
    exact hlength
  · simp only [Operation.compute, hfields, Fields.readJoined_eq_error hbefore hname]
    rfl

/-- An action that reads hours, minutes and seconds, or else minutes and seconds. -/
def elapsedAction : Action where
  effect := .duration
    { target := "duration", fields := ["elapsed", "rest"]
      formats := [[.spec 'N', .literal ":", .spec 'U', .literal ":", .spec 'O'],
        [.spec 'U', .literal ":", .spec 'O']] }
  source := ⟨.message, 0, none⟩

theorem compileAction_elapsed : Node.compileAction ⟨.utc, 2021, []⟩ .empty elapsedAction =
    .ok ⟨"duration", .duration ["elapsed", "rest"] [[3600, 60, 1], [60, 1]]⟩ := rfl

/-- The fields of `elapsedAction`. -/
def elapsedFields (elapsed rest : String) : Fields :=
  (Table.empty.insert "elapsed" elapsed).insert "rest" rest

theorem forall₂_elapsedFields (elapsed rest : String) :
    List.Forall₂ (fun name value => (elapsedFields elapsed rest).get? name = some value)
      ["elapsed", "rest"] [elapsed, rest] :=
  .cons rfl (.cons rfl .nil)

/-- An hour, two minutes and three seconds by the first format, and minutes beyond the greatest number by the
second. -/
theorem duration_exact_elapsed :
    ∃ op, Node.compileAction ⟨.utc, 2021, []⟩ .empty elapsedAction = .ok op ∧
      op.compute ⟨.utc, 2021, []⟩ (elapsedFields "01:02:03" "h") = .ok (some "3723") ∧
      op.compute ⟨.utc, 2021, []⟩ (elapsedFields "99999999999999999999 min" "5") =
        .ok (some "9223372036854775807") := by
  have hvalue := fun elapsed rest => (duration_exact rfl compileAction_elapsed
    (elapsedFields elapsed rest)).1 _ (forall₂_elapsedFields elapsed rest)
  refine ⟨_, compileAction_elapsed, (hvalue "01:02:03" "h").trans ?_,
    (hvalue "99999999999999999999 min" "5").trans ?_⟩
  · have hnumbers : exactNumbers (String.intercalate " " ["01:02:03", "h"]).toList = [1, 2, 3] := by
      decide +kernel
    rw [hnumbers]
    decide +kernel
  · have hnumbers : exactNumbers (String.intercalate " " ["99999999999999999999 min", "5"]).toList =
        [99999999999999999999, 5] := by decide +kernel
    rw [hnumbers]
    decide +kernel

end LogRules

import LogRules.Proofs.Time.Completion

/-! # Layouts of formats

The layout of a format together with its suffix names a complete date and time of day, and reads what the text
gives completed with what is filled in (`Layout.completes_ofFormat`). A part of the date that the format names
is not in the suffix, except for the minute and the half of the day in a format without an hour: these are read
only if they are as at midnight. -/

namespace LogRules.Time

namespace Components

variable (year : Int) (c : Components)

/-- Without a timestamp the moment is that of the date and the time of day. -/
theorem resolve?_eq_moment? (h : c.timestamp? = none) : c.resolve? = c.moment? := by
  have hfits : ∀ m, c.fitsTimestamp m = true := fun m => by rw [fitsTimestamp, h]; rfl
  unfold resolve? moment?
  cases c.date with
  | found d => cases c.time? <;> simp [h, hfits]
  | missing => simp [h]
  | impossible => rfl

theorem knows_fillYear_year : (c.fillYear year).knows .year = true := by
  unfold fillYear
  split
  · assumption
  · rfl

theorem knows_fillMonth_month :
    c.fillMonth.knows .month = true ∨ c.fillMonth.knows .dayOfYear = true := by
  unfold fillMonth
  split
  · next h => exact Bool.or_eq_true_iff.mp h
  · exact .inl rfl

theorem knows_fillDay_day : c.fillDay.knows .day = true ∨ c.fillDay.knows .dayOfYear = true := by
  unfold fillDay
  split
  · next h => exact Bool.or_eq_true_iff.mp h
  · exact .inl rfl

theorem date_ne_missing {c : Components} (hyear : c.knows .year = true)
    (hmonth : c.knows .month = true ∨ c.knows .dayOfYear = true)
    (hday : c.knows .day = true ∨ c.knows .dayOfYear = true) : c.date ≠ .missing := by
  have hfound : c.year ≠ .missing := by
    unfold year
    split
    · next hnone hnone' => simp [knows, hnone, hnone'] at hyear
    · simp
    · simp
    · split <;> simp
  unfold date
  split
  · simp
  · contradiction
  · split
    · split
      · simp
      · split <;> simp
    · split
      · simp
      · split <;> simp
    · next hordinal hboth =>
        have hunknown : c.knows .dayOfYear ≠ true := by simp [knows, hordinal]
        obtain ⟨month, hmonth⟩ := Option.isSome_iff_exists.mp (hmonth.resolve_right hunknown)
        obtain ⟨day, hday⟩ := Option.isSome_iff_exists.mp (hday.resolve_right hunknown)
        exact (hboth month day hmonth hday).elim

/-- Completed components name a date, though maybe one that does not exist. -/
theorem date_completed_ne_missing : (c.completed year).date ≠ .missing := by
  have hmonth := knows_fillMonth_month (c.fillYear year)
  refine date_ne_missing ?_ ?_ ?_
  · change (c.fillYear year).fillMonth.fillDay.knows .year = true
    rw [knows_fillDay _ (by decide), knows_fillMonth _ (by decide)]
    exact knows_fillYear_year year c
  · change (c.fillYear year).fillMonth.fillDay.knows .month = true ∨
      (c.fillYear year).fillMonth.fillDay.knows .dayOfYear = true
    rwa [knows_fillDay _ (by decide), knows_fillDay _ (by decide)]
  · exact knows_fillDay_day _

/-- Completed components are those of a moment, unless there is no such date. -/
theorem isSome_moment?_completed :
    (c.completed year).moment?.isSome = true ∨ (c.completed year).date = .impossible := by
  have hne := date_completed_ne_missing year c
  unfold moment?
  cases hdate : (c.completed year).date with
  | found d => exact .inl rfl
  | missing => exact absurd hdate hne
  | impossible => exact .inr rfl

end Components

namespace Layout

/-- Items that read all of a text leave the text of completions to these. -/
theorem readItems?_append_completions {c c' : Components} {items : List LayoutItem} {cs : List Char}
    (h : readItems? c items cs = some c') {ks : List Completion} (hks : ∀ k ∈ ks, Separate k) :
    readItems? c (items ++ ks.flatMap Prod.fst) (cs ++ ks.flatMap fun k => k.2.toList) =
      readCompletions? c' ks := by
  have hblank := startsBlank_flatMap hks
  cases ks with
  | nil =>
      rw [List.flatMap_nil, List.flatMap_nil, List.append_nil, List.append_nil, h]
      rfl
  | cons k ks =>
      obtain ⟨front, _, hitems, -⟩ := hks k List.mem_cons_self
      rw [readCompletions?, List.flatMap_cons, hitems, List.cons_append, readItems?_append_append h hblank]

theorem separate_of_mem_missing {year : Int} {items : List LayoutItem} :
    ∀ k ∈ missing year items, Separate k := by
  have hyear : Separate (yearCompletion year) := by
    refine ⟨_, (toString year).toList, rfl, ?_⟩
    rw [yearCompletion, String.toList_append]
    rfl
  refine List.forall_mem_append.mpr ⟨forall_mem_missingUnless hyear,
    List.forall_mem_append.mpr ⟨?_, List.forall_mem_append.mpr ⟨?_, ?_⟩⟩⟩
  · exact fun k hk => (constant_of_mem_missingMonth k hk).separate
  · exact fun k hk => (constant_of_mem_missingDay k hk).separate
  · exact fun k hk => (constant_of_mem_missingClock k hk).separate

/-- What is missing names what the items do not, and the time of day if they have no hour. -/
theorem names_missing_iff {year : Int} {items : List LayoutItem} {p : Part} :
    Names ((missing year items).flatMap Prod.fst) p ↔
      match p with
      | .year => ¬ Names items .year
      | .month => ¬ Names items .month ∧ ¬ Names items .dayOfYear
      | .day => ¬ Names items .day ∧ ¬ Names items .dayOfYear
      | .half | .hour => ¬ Names items .hour
      | .minute => ¬ (Names items .hour ∧ Names items .minute)
      | .dayOfYear | .timestamp => False := by
  have hclock : Names ((missingClock items).flatMap Prod.fst) p ↔
      ¬ Names items .hour ∧ (p = .half ∨ p = .hour) ∨
        ¬ (Names items .hour ∧ Names items .minute) ∧ p = .minute := by
    unfold missingClock
    split
    · next hhour => simp [names_missingUnless, hhour, minuteCompletion, LayoutItem.parts]
    · next hhour => simp [hhour, midnightCompletion, LayoutItem.parts, or_assoc]
  simp only [missing, List.flatMap_append, names_append, missingYear, missingMonth, missingDay,
    names_missingUnless, hclock, yearCompletion, monthCompletion, dayCompletion]
  cases p <;> simp [LayoutItem.parts]

/-- The layout of a format without a timestamp has the items of the format and what they lack. -/
theorem of_ofFormat {year : Int} {f : TimeFormat} {layout : Layout} (h : ofFormat year f = .ok layout)
    (hstamp : .spec 'X' ∉ f) :
    formatItems (hasSpec "PQ" f) false f = .ok layout.items ∧
    layout.suffix = (missing year layout.items).flatMap Prod.fst ∧
    layout.suffixText.toList = (missing year layout.items).flatMap fun k => k.2.toList := by
  obtain ⟨items, hitems, h⟩ := bind_eq_ok.mp h
  cases h
  have hspec : hasSpec "X" f = false := by
    rw [Bool.eq_false_iff, Ne, hasSpec_iff]
    simpa using hstamp
  refine ⟨hitems, ?_, ?_⟩
  · simp only [hspec, Bool.false_eq_true, if_false, completions_eq_missing hitems]
  · simp only [hspec, Bool.false_eq_true, if_false, completions_eq_missing hitems, String.toList_join,
      List.flatMap_map]

/-- An hour of the day has its half: with an hour from 1 to 12 the format has a specifier for it. -/
theorem names_half_of_names_hour {f : TimeFormat} {afterSpec : Bool} {items : List LayoutItem}
    (h : formatItems (hasSpec "PQ" f) afterSpec f = .ok items) (hhour : Names items .hour) :
    Names items .half := by
  rw [names_formatItems_iff h] at hhour ⊢
  cases htwelve : hasSpec "PQ" f with
  | true =>
      obtain ⟨letter, hletter, hf⟩ := hasSpec_iff.mp htwelve
      have hletters : ∀ c ∈ "PQ".toList, c ∈ (Part.half.letters true).toList := by simp [Part.letters]
      exact hasSpec_iff.mpr ⟨letter, hletters letter hletter, hf⟩
  | false =>
      rw [htwelve] at hhour
      obtain ⟨letter, hletter, hf⟩ := hasSpec_iff.mp hhour
      have hletters : ∀ c ∈ (Part.hour.letters false).toList, c ∈ (Part.half.letters false).toList := by
        simp [Part.letters]
      exact hasSpec_iff.mpr ⟨letter, hletters letter hletter, hf⟩

/-- The items of the layout read all of the text, and these components. -/
def Gives (layout : Layout) (input : String) (c : Components) : Prop :=
  readItems? {} layout.items input.toList = some c

theorem Gives.knows_iff {layout : Layout} {input : String} {c : Components} (h : layout.Gives input c)
    (p : Part) : c.knows p = true ↔ Names layout.items p := by
  have hnothing : ({} : Components).knows p = false := by cases p <;> rfl
  rw [knows_of_readFront? (readItems?_eq_some_iff.mp h) p, hnothing]
  simp

/-- With an hour for its minute and for its half of the day a time goes with midnight. -/
theorem Gives.clockFits {layout : Layout} {input : String} {c : Components} (h : layout.Gives input c)
    (hhalf : Names layout.items .half → Names layout.items .hour)
    (hminute : Names layout.items .minute → Names layout.items .hour) : c.ClockFits := by
  by_cases hhour : c.knows .hour = true
  · exact .inl hhour
  · rw [h.knows_iff] at hhour
    have hnoHalf : c.knows .half ≠ true := mt (h.knows_iff .half).mp (mt hhalf hhour)
    have hnoMinute : c.knows .minute ≠ true := mt (h.knows_iff .minute).mp (mt hminute hhour)
    refine .inr ⟨fun hsome => hnoHalf ?_, .inl ?_⟩
    · rw [Components.knows, hsome]
      rfl
    · simpa [Components.knows] using hnoMinute

/-- A text that the items read is completed by the suffix. -/
theorem Gives.read?_eq {layout : Layout} {input : String} {c : Components} (h : layout.Gives input c)
    {year : Int} (hsuffix : layout.suffix = (missing year layout.items).flatMap Prod.fst)
    (htext : layout.suffixText.toList = (missing year layout.items).flatMap fun k => k.2.toList)
    (hhalf : Names layout.items .hour → Names layout.items .half) (hstamp : ¬ Names layout.items .timestamp) :
    layout.read? input =
      if (Names layout.items .year ∨ IsReadable year) ∧ c.ClockFits then (c.completed year).moment?
      else none := by
  have hunknown : (c.completed year).timestamp? = none := by
    have hknows : (c.completed year).knows .timestamp = c.knows .timestamp := by
      change (c.fillYear year).fillMonth.fillDay.knows .timestamp = _
      rw [Components.knows_fillDay _ (by decide), Components.knows_fillMonth _ (by decide),
        Components.knows_fillYear _ _ (by decide)]
    have hno := mt (h.knows_iff .timestamp).mp hstamp
    rw [← hknows] at hno
    simpa [Components.knows] using hno
  rw [read?, hsuffix, htext, readItems?_append_completions h separate_of_mem_missing,
    readCompletions?_missing h.knows_iff hhalf]
  split
  · exact (c.completed year).resolve?_eq_moment? hunknown
  · rfl

/-- The layout reads complete dates, in the assumed year if it has none of its own. -/
structure Completes (year : Int) (layout : Layout) : Prop where
  names_year : Names (layout.items ++ layout.suffix) .year
  names_date : Names (layout.items ++ layout.suffix) .month ∧ Names (layout.items ++ layout.suffix) .day ∨
    Names (layout.items ++ layout.suffix) .dayOfYear
  names_time : Names (layout.items ++ layout.suffix) .half ∧ Names (layout.items ++ layout.suffix) .hour ∧
    Names (layout.items ++ layout.suffix) .minute
  /-- A part of the items is not in the suffix, unless it belongs to an hour that they do not have. -/
  overlap : ∀ p, Names layout.items p →
    (Names layout.suffix p ↔ ¬ Names layout.items .hour ∧ (p = .half ∨ p = .minute))
  /-- Values of a text do not conflict with the suffix, unless they are of a part that is in it as well. -/
  fits : (∀ p, Names layout.items p → ¬ Names layout.suffix p) → ∀ input c, layout.Gives input c → c.ClockFits
  /-- A text that the items read is completed, except in a year that cannot be read or with a time of day that
  conflicts with the suffix. -/
  read : ∀ input c, layout.Gives input c → layout.read? input =
    if (Names layout.items .year ∨ IsReadable year) ∧ c.ClockFits then (c.completed year).moment?
    else none
  /-- What is completed is a moment, unless there is no such date. -/
  complete : ∀ input c, layout.Gives input c → (Names layout.items .year ∨ IsReadable year) → c.ClockFits →
    (layout.read? input).isSome = true ∨ (c.completed year).date = .impossible

/-- Layouts of formats without a timestamp read complete dates. -/
theorem completes_ofFormat {year : Int} {f : TimeFormat} {layout : Layout}
    (h : ofFormat year f = .ok layout) (hstamp : .spec 'X' ∉ f) : Completes year layout := by
  obtain ⟨hitems, hsuffix, htext⟩ := of_ofFormat h hstamp
  have hhalf := names_half_of_names_hour hitems
  have hstamp' : ¬ Names layout.items .timestamp := by
    rw [names_formatItems_iff hitems, hasSpec_iff]
    simpa [Part.letters] using hstamp
  have hoverlap : ∀ p, Names layout.items p →
      (Names layout.suffix p ↔ ¬ Names layout.items .hour ∧ (p = .half ∨ p = .minute)) := by
    intro p hp
    rw [hsuffix, names_missing_iff]
    cases p with
    | timestamp => exact absurd hp hstamp'
    | year | month | day | dayOfYear | half | hour | minute => simp [hp]
  have hread : ∀ input c, layout.Gives input c → layout.read? input = _ :=
    fun input c hgives => hgives.read?_eq hsuffix htext hhalf hstamp'
  refine ⟨?_, ?_, ?_, hoverlap, fun hfresh input c hgives => ?_, hread, fun input c hgives hyear hfits => ?_⟩
  · rw [names_append, hsuffix, names_missing_iff]
    exact Decidable.em _
  · simp only [names_append, hsuffix, names_missing_iff]
    tauto
  · simp only [names_append, hsuffix, names_missing_iff]
    tauto
  · -- without an hour the half of the day and the minute are in the suffix
    refine hgives.clockFits (fun hname => ?_) (fun hname => ?_)
    · by_contra hhour
      exact hfresh .half hname ((hoverlap .half hname).mpr ⟨hhour, .inl rfl⟩)
    · by_contra hhour
      exact hfresh .minute hname ((hoverlap .minute hname).mpr ⟨hhour, .inr rfl⟩)
  · rw [hread input c hgives, if_pos ⟨hyear, hfits⟩]
    exact c.isSome_moment?_completed year

/-- A format with a minute and no hour. -/
def hourless : TimeFormat :=
  [.spec 'W', .literal "-", .spec 'G', .literal "-", .spec 'F', .spec 'U']

/-- The suffix has the minute again, so texts are read only at full hours. -/
theorem completes_ofFormat_hourless : ∃ layout, ofFormat 2019 hourless = .ok layout ∧
    .spec 'X' ∉ hourless ∧ Completes 2019 layout ∧ Names layout.suffix .minute ∧
    layout.read? "2019-02-05 00" = some ⟨⟨2019, 2, 5⟩, 0, 0, 0⟩ ∧ layout.read? "2019-02-05 30" = none := by
  have hcompletes := completes_ofFormat (show ofFormat 2019 hourless = .ok _ from rfl) (by decide)
  exact ⟨_, rfl, by decide, hcompletes, by decide, (hcompletes.read "2019-02-05 00" _ rfl).trans (by decide),
    (hcompletes.read "2019-02-05 30" _ rfl).trans (by decide)⟩

/-- The suffix of a layout may name what the format names. -/
theorem not_forall_fresh : ¬ ∀ (year : Int) (f : TimeFormat) (layout : Layout), ofFormat year f = .ok layout →
    .spec 'X' ∉ f →
    ∀ p ∈ [.year, .month, .day, .hour, .minute], Names layout.items p → ¬ Names layout.suffix p := by
  intro h
  exact h 2019 hourless _ rfl (by decide) .minute (by decide) (by decide) (by decide)

end Layout

end LogRules.Time

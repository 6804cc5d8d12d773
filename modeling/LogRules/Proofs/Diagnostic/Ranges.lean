import LogRules.Diagnostic.Snippet
import LogRules.Proofs.Assembly.Faults
import LogRules.Proofs.Call.Errors
import LogRules.Proofs.Pattern.Errors

/-! # Ranges of diagnostics

A diagnostic of assembly that points into a text has the text of an attribute. The error it reports lies at one of
the characters, or at the end (`Attribute.exists_of_fault?`), and the diagnostic keeps its offset in 32 bits. The
snippet marks one byte there. The marked range lies within the text and is empty only at the end, but it cuts a
character of more than one byte, and then there is no snippet (`assemble_marks`). -/

namespace LogRules

open Text

/-! ### Attributes of a device -/

namespace Attribute

/-- The text that is read. -/
def text : Attribute → String
  | content text | messageId text | functions text => text

/-- What the errors about the attribute are about. -/
def kind : Attribute → DiagnosticKind
  | content _ => .invalidContent
  | messageId _ => .invalidMessageId
  | functions _ => .invalidFunctions

theorem exists_of_unreadable? {α : Type} {kind : DiagnosticKind} {loc : SourceLoc} {text : String}
    {reading : Except LexError α} {report : Diagnostic} (h : unreadable? kind loc text reading = some report) :
    ∃ e, reading = .error e ∧ report = .unreadable kind loc text e := by
  cases reading with
  | ok a => cases h
  | error e => exact ⟨e, rfl, (Option.some.inj h).symm⟩

/-- A fault that points into a text points to a character of the attribute, or to its end. -/
theorem exists_of_fault? {loc : SourceLoc} {a : Attribute} {report : Diagnostic} {span : Span}
    (h : a.fault? loc = some report) (hspan : report.span = some span) :
    report.loc = some loc ∧ report.kind = a.kind ∧
      ∃ e : LexError, e.PointsInto a.text.toList ∧ span = ⟨a.text, e.place, e.place⟩ := by
  cases a with
  | content text =>
      rw [fault?] at h
      split at h
      · cases h
        cases hspan
      · obtain ⟨e, hread, rfl⟩ := exists_of_unreadable? h
        exact ⟨rfl, rfl, e, (Pattern.readFails_of_read hread).pointsInto, (Option.some.inj hspan).symm⟩
  | messageId text =>
      rw [fault?] at h
      split at h
      · cases h
      · obtain ⟨e, hread, rfl⟩ := exists_of_unreadable? h
        have hfails := Invocation.actionFails_of_readAction hread
        exact ⟨rfl, rfl, e, hfails.pointsInto, (Option.some.inj hspan).symm⟩
  | functions text =>
      obtain ⟨e, hread, rfl⟩ := exists_of_unreadable? h
      have hfails := Invocation.functionsFail_of_readFunctions hread
      exact ⟨rfl, rfl, e, hfails.pointsInto, (Option.some.inj hspan).symm⟩

end Attribute

/-- The attributes of all rules, each with the place of its record. -/
def Device.attributes (d : Device) : List (SourceLoc × Attribute) :=
  (d.headers.zipIdx.flatMap fun e => e.1.attributes.map (e.1.place e.2, ·)) ++
    d.messages.zipIdx.flatMap fun e => e.1.attributes.map (e.1.place e.2, ·)

/-- A report of assembly that points into a text is the fault of an attribute. -/
theorem exists_attribute_of_report {d : Device} {report : Diagnostic} (h : report ∈ (assemble d).2)
    {span : Span} (hspan : report.span = some span) :
    ∃ loc a, (loc, a) ∈ d.attributes ∧ a.fault? loc = some report := by
  rw [Assembly.assemble_reports, List.mem_append, List.mem_append] at h
  rcases h with (h | h) | h
  · rw [Assembly.span_addValueMaps report h] at hspan
    cases hspan
  · obtain ⟨e, he, hfault⟩ := List.mem_flatMap.mp h
    obtain ⟨a, ha, hfault⟩ := List.mem_filterMap.mp hfault
    exact ⟨_, a, List.mem_append_left _ (List.mem_flatMap.mpr ⟨e, he, List.mem_map_of_mem ha⟩), hfault⟩
  · obtain ⟨e, he, hfault⟩ := List.mem_flatMap.mp h
    obtain ⟨a, ha, hfault⟩ := List.mem_filterMap.mp hfault
    exact ⟨_, a, List.mem_append_right _ (List.mem_flatMap.mpr ⟨e, he, List.mem_map_of_mem ha⟩), hfault⟩

/-! ### Cutting texts -/

theorem isPlace_cons_iff {c : Char} {cs : List Char} {n : Nat} :
    IsPlace 0 (c :: cs) n ↔ n = 0 ∨ c.utf8Size ≤ n ∧ IsPlace 0 cs (n - c.utf8Size) := by
  constructor
  · rintro ⟨before, after, hcs, rfl⟩
    cases before with
    | nil => exact .inl rfl
    | cons d before =>
        obtain ⟨rfl, rfl⟩ := List.cons.inj hcs
        refine .inr ⟨?_, before, after, rfl, ?_⟩ <;> rw [byteLength_cons] <;> omega
  · rintro (rfl | ⟨hle, before, after, rfl, hn⟩)
    · exact isPlace_start 0 _
    · refine ⟨c :: before, after, rfl, ?_⟩
      rw [byteLength_cons]
      omega

/-- A text can be taken apart at its places and behind it. -/
theorem canCut_iff {n : Nat} {cs : List Char} :
    Excerpt.canCut n cs = true ↔ byteLength cs ≤ n ∨ IsPlace 0 cs n := by
  fun_induction Excerpt.canCut n cs with
  | case1 n => exact iff_of_true rfl (.inl (Nat.zero_le n))
  | case2 c cs => exact iff_of_true rfl (.inr (isPlace_start 0 _))
  | case3 n c cs hn ih =>
      have hpos : n ≠ 0 := hn
      rw [Bool.and_eq_true, ih, decide_eq_true_iff, isPlace_cons_iff, byteLength_cons]
      constructor
      · rintro ⟨hle, hlen | hplace⟩
        · exact .inl (by omega)
        · exact .inr (.inr ⟨hle, hplace⟩)
      · rintro (hlen | hzero | ⟨hle, hplace⟩)
        · exact ⟨by omega, .inl (by omega)⟩
        · exact absurd hzero hpos
        · exact ⟨hle, .inr hplace⟩

theorem canCut_iff_of_le {n : Nat} {cs : List Char} (h : n ≤ byteLength cs) :
    Excerpt.canCut n cs = true ↔ IsPlace 0 cs n := by
  rw [canCut_iff]
  refine ⟨?_, .inr⟩
  rintro (hle | hplace)
  · rw [Nat.le_antisymm h hle, ← Nat.zero_add (byteLength cs)]
    exact isPlace_stop 0 cs
  · exact hplace

/-- One byte behind the start of a character stands another one when the character has one byte. -/
theorem isPlace_succ_iff {before rest : List Char} {c : Char} :
    IsPlace 0 (before ++ c :: rest) (byteLength before + 1) ↔ c.utf8Size = 1 := by
  constructor
  · rintro ⟨front, after, hcs, hlen⟩
    have hpos := c.utf8Size_pos
    rcases List.append_eq_append_iff.mp hcs with ⟨z, rfl, hz⟩ | ⟨z, rfl, hz⟩
    · cases z with
      | nil =>
          rw [List.append_nil] at hlen
          omega
      | cons d z =>
          obtain ⟨rfl, -⟩ := List.cons.inj hz
          rw [byteLength_append, byteLength_cons] at hlen
          omega
    · rw [byteLength_append] at hlen
      omega
  · intro hone
    refine ⟨before ++ [c], rest, by simp, ?_⟩
    rw [byteLength_append, byteLength_cons, hone]
    simp

/-! ### Marked ranges -/

/-- There is a snippet when both ends of the marked range are places of the text. -/
theorem renderSnippet_succeeds_iff {report : Diagnostic} {span : Span} (hspan : report.span = some span)
    (colored : Bool) :
    (∃ text, report.renderSnippet colored true = .ok text) ↔
      Excerpt.canCut (Snippet.markedRange span).1 span.text.toList = true ∧
        Excerpt.canCut (Snippet.markedRange span).2 span.text.toList = true := by
  unfold Diagnostic.renderSnippet
  rw [hspan]
  dsimp only
  rw [if_pos rfl]
  rcases hrange : Snippet.markedRange span with ⟨first, last⟩
  rw [Snippet.checkRange, hrange]
  dsimp only
  cases hfirst : Excerpt.canCut first span.text.toList with
  | false => simp [hfirst, bind, Except.bind]
  | true =>
      cases hlast : Excerpt.canCut last span.text.toList with
      | false => simp [hfirst, hlast, bind, Except.bind]
      | true => simp [hfirst, hlast, bind, Except.bind, pure, Except.pure]

/-- The range that is marked for an empty one: one byte, unless the text ends there. -/
theorem exists_markedRange {text : String} {n : Nat} (h : n ≤ byteLength text.toList) :
    ∃ stop, Snippet.markedRange ⟨text, n, n⟩ = (n, stop) ∧ n ≤ stop ∧ stop ≤ byteLength text.toList ∧
      (n = stop ↔ n = byteLength text.toList) ∧ (n < byteLength text.toList → stop = n + 1) :=
  ⟨min (n + 1) (byteLength text.toList), if_pos rfl, by omega, by omega, by omega, by omega⟩

/-- The range that is marked at a character ends behind it when it has one byte. -/
theorem isPlace_stop_iff {before rest : List Char} {stop : Nat}
    (hle : byteLength before ≤ stop) (hstop : stop ≤ byteLength (before ++ rest))
    (hnext : byteLength before < byteLength (before ++ rest) → stop = byteLength before + 1) :
    IsPlace 0 (before ++ rest) stop ↔ ∀ c ∈ rest.head?, c.utf8Size = 1 := by
  cases rest with
  | nil =>
      rw [List.append_nil] at hstop ⊢
      have hend := isPlace_stop 0 before
      rw [Nat.zero_add, Nat.le_antisymm hle hstop] at hend
      exact iff_of_true hend nofun
  | cons c rest =>
      have hpos := c.utf8Size_pos
      rw [hnext (by rw [byteLength_append, byteLength_cons]; omega), isPlace_succ_iff]
      simp

/-- A report of assembly that points into a text has the exact text of an attribute of its record. The range that
is marked lies within the text and is empty only at the end; there is a snippet when both of its ends are places
of the text. In a text below 4 GiB, where the report keeps the whole offset, the range starts at a character, or at
the end. It ends at one when the character that it starts at has one byte, or the text ends there: only then there
is a snippet. -/
theorem assemble_marks (d : Device) {report : Diagnostic} (hreport : report ∈ (assemble d).2) {span : Span}
    (hspan : report.span = some span) :
    (∃ loc a, (loc, a) ∈ d.attributes ∧ report.loc = some loc ∧ report.kind = a.kind ∧ span.text = a.text) ∧
    ∃ start stop, Snippet.markedRange span = (start, stop) ∧
      start ≤ stop ∧ stop ≤ byteLength span.text.toList ∧ (start = stop ↔ start = byteLength span.text.toList) ∧
      (∀ colored, (∃ text, report.renderSnippet colored true = .ok text) ↔
        IsPlace 0 span.text.toList start ∧ IsPlace 0 span.text.toList stop) ∧
      (byteLength span.text.toList < 0x100000000 →
        ∃ before rest, span.text.toList = before ++ rest ∧ start = byteLength before ∧
          (IsPlace 0 span.text.toList stop ↔ ∀ c ∈ rest.head?, c.utf8Size = 1) ∧
          ∀ colored, (∃ text, report.renderSnippet colored true = .ok text) ↔
            ∀ c ∈ rest.head?, c.utf8Size = 1) := by
  obtain ⟨loc, a, hmem, hfault⟩ := exists_attribute_of_report hreport hspan
  obtain ⟨hloc, hkind, e, hpoints, rfl⟩ := Attribute.exists_of_fault? hfault hspan
  obtain ⟨rest, before, htext, hoffset⟩ := hpoints.blames
  have hlength : byteLength a.text.toList = byteLength before + byteLength rest := by
    rw [htext, byteLength_append]
  have hplace : e.place ≤ byteLength a.text.toList := by
    have hle := e.place_le
    omega
  obtain ⟨stop, hmarked, hle, hstop, hempty, hnext⟩ := exists_markedRange hplace
  have hsnippet (colored : Bool) : (∃ text, report.renderSnippet colored true = .ok text) ↔
      IsPlace 0 a.text.toList e.place ∧ IsPlace 0 a.text.toList stop := by
    rw [renderSnippet_succeeds_iff hspan, hmarked, canCut_iff_of_le hplace, canCut_iff_of_le hstop]
  refine ⟨⟨loc, a, hmem, hloc, hkind, rfl⟩, e.place, stop, hmarked, hle, hstop, hempty, hsnippet, ?_⟩
  intro (hsmall : byteLength a.text.toList < 0x100000000)
  have hkept : e.place = byteLength before := by
    rw [LexError.place_of_lt (by omega), hoffset]
  have hstart : IsPlace 0 a.text.toList e.place := ⟨before, rest, htext, by omega⟩
  have hends : IsPlace 0 a.text.toList stop ↔ ∀ c ∈ rest.head?, c.utf8Size = 1 := by
    rw [hkept] at hle hnext
    rw [htext] at hstop hnext ⊢
    exact isPlace_stop_iff hle hstop hnext
  refine ⟨before, rest, htext, hkept, hends, fun colored => ?_⟩
  rw [hsnippet, hends]
  exact and_iff_right hstart

/-- A message rule with an angle that opens no field, in front of a letter of two bytes. -/
def openAngleDevice : Device where
  headers := [.ofId "h" "<messageid>: <!payload>"]
  messages := [{ id1 := "m", id2 := "m", content := "<é" }]

/-- What assembly reports about it. -/
def openAngleReport : Diagnostic :=
  .unreadable .invalidContent ⟨.message, 0, none⟩ "<é" ⟨.malformedTag, 1⟩

theorem mem_assemble_openAngle : openAngleReport ∈ (assemble openAngleDevice).2 := by decide +kernel

/-- The marked range ends inside of the letter, so that the report has no snippet. -/
theorem assemble_marks_openAngle :
    openAngleReport ∈ (assemble openAngleDevice).2 ∧ Snippet.markedRange ⟨"<é", 1, 1⟩ = (1, 2) ∧
      ¬ IsPlace 0 "<é".toList 2 ∧
      ∀ colored, ¬ ∃ text, openAngleReport.renderSnippet colored true = .ok text := by
  have hmarked : Snippet.markedRange ⟨"<é", 1, 1⟩ = (1, 2) := rfl
  have hspan : openAngleReport.span = some ⟨"<é", 1, 1⟩ := rfl
  obtain ⟨-, start, stop, hrange, -, -, -, -, hsmall⟩ :=
    assemble_marks openAngleDevice mem_assemble_openAngle hspan
  obtain ⟨before, rest, -, -, hplace, hsnippet⟩ := hsmall (by decide)
  have hinside : ¬ IsPlace 0 "<é".toList 2 := by
    rw [← canCut_iff_of_le (by decide)]
    decide
  obtain ⟨-, rfl⟩ := Prod.mk.inj (hmarked.symm.trans hrange)
  refine ⟨mem_assemble_openAngle, hmarked, hinside, fun colored hshown => ?_⟩
  exact hinside (hplace.mpr ((hsnippet colored).mp hshown))

/-- Not every marked range ends at a character. -/
theorem not_forall_marked_isPlace :
    ¬ ∀ (d : Device) (report : Diagnostic) (span : Span), report ∈ (assemble d).2 → report.span = some span →
      IsPlace 0 span.text.toList (Snippet.markedRange span).1 ∧
        IsPlace 0 span.text.toList (Snippet.markedRange span).2 := by
  intro h
  obtain ⟨-, hstop⟩ := h openAngleDevice openAngleReport ⟨"<é", 1, 1⟩ mem_assemble_openAngle rfl
  have hcut := (canCut_iff_of_le (by decide)).mpr hstop
  revert hcut
  decide

end LogRules

import LogRules.Pattern.Reader
import LogRules.Proofs.Pattern.Segments

/-! # Patterns and their source text

A pattern is `WellFormed` when it has a source text: names are names, constants are neither empty nor side
by side, and groups have branches without groups of their own. Reading and writing are inverse to each
other on these patterns (`read_render_roundTrip`): a source that is read is the text of its pattern up to
the long form of a bare payload tag, and the text of a pattern is read as this pattern. -/

namespace LogRules

/-- The value may stand in a branch: no constant holds what would end the branch. -/
def Value.FitsBranch : Value → Prop
  | .constant text => '{' ∉ text.toList ∧ '|' ∉ text.toList ∧ '}' ∉ text.toList
  | _ => True

instance : DecidablePred Value.FitsBranch := fun v =>
  match v with
  | .constant text =>
    inferInstanceAs (Decidable ('{' ∉ text.toList ∧ '|' ∉ text.toList ∧ '}' ∉ text.toList))
  | .field _ => isTrue trivial
  | .payload _ => isTrue trivial

namespace PatternItem

/-- The item is a constant. -/
def isConstant : PatternItem → Bool
  | value v => v.isConstant
  | alternatives _ => false

/-- The item may stand in a branch. -/
def FitsBranch : PatternItem → Prop
  | value v => v.WellFormed ∧ v.FitsBranch
  | alternatives _ => False

instance : DecidablePred FitsBranch := fun item =>
  match item with
  | value v => inferInstanceAs (Decidable (v.WellFormed ∧ v.FitsBranch))
  | alternatives _ => isFalse fun h => h

end PatternItem

namespace Pattern

/-- No two constants are side by side. -/
def ConstantsApart (p : Pattern) : Prop :=
  p.IsChain fun a b => ¬ (a.isConstant = true ∧ b.isConstant = true)

instance : DecidablePred ConstantsApart := fun p =>
  inferInstanceAs (Decidable (p.IsChain fun a b => ¬ (a.isConstant = true ∧ b.isConstant = true)))

/-- A branch of a group that has a source text. -/
def WellFormedBranch (branch : Pattern) : Prop :=
  branch ≠ [] ∧ ConstantsApart branch ∧ ∀ item ∈ branch, item.FitsBranch

instance : DecidablePred WellFormedBranch := fun branch =>
  inferInstanceAs (Decidable (branch ≠ [] ∧ ConstantsApart branch ∧ ∀ item ∈ branch, item.FitsBranch))

/-- An item that has a source text. -/
def WellFormedItem : PatternItem → Prop
  | .value v => v.WellFormed
  | .alternatives branches => branches ≠ [] ∧ ∀ branch ∈ branches, WellFormedBranch branch

instance : DecidablePred WellFormedItem := fun item =>
  match item with
  | .value v => inferInstanceAs (Decidable v.WellFormed)
  | .alternatives branches => inferInstanceAs
      (Decidable (branches ≠ [] ∧ ∀ branch ∈ branches, WellFormedBranch branch))

/-- A pattern that has a source text. -/
def WellFormed (p : Pattern) : Prop := ConstantsApart p ∧ ∀ item ∈ p, WellFormedItem item

instance : DecidablePred WellFormed := fun p =>
  inferInstanceAs (Decidable (ConstantsApart p ∧ ∀ item ∈ p, WellFormedItem item))

/-! ### Values as patterns -/

theorem constantsApart_map_value (vs : List Value) :
    ConstantsApart (vs.map .value) ↔ Separated vs := by
  unfold ConstantsApart Separated
  rw [List.isChain_map]
  rfl

/-- A branch is a list of values. -/
theorem WellFormedBranch.exists_values {branch : Pattern} (h : WellFormedBranch branch) :
    ∃ vs : List Value, branch = vs.map .value ∧ vs ≠ [] ∧ Separated vs ∧
      ∀ v ∈ vs, v.WellFormed ∧ v.FitsBranch := by
  obtain ⟨hne, hapart, hitems⟩ := h
  obtain ⟨vs, rfl⟩ : ∃ vs : List Value, branch = vs.map .value := by
    clear hne hapart
    induction branch with
    | nil => exact ⟨[], rfl⟩
    | cons item rest ih =>
        obtain ⟨vs, rfl⟩ := ih fun i hi => hitems i (List.mem_cons_of_mem _ hi)
        cases item with
        | value v => exact ⟨v :: vs, rfl⟩
        | alternatives branches => exact absurd (hitems _ List.mem_cons_self) id
  refine ⟨vs, rfl, ?_, (constantsApart_map_value vs).mp hapart, ?_⟩
  · rintro rfl
    exact hne rfl
  · intro v hv
    exact hitems _ (List.mem_map_of_mem hv)

/-- No brace stands in a tag. -/
theorem not_mem_renderValue {v : Value} (hv : v.WellFormed) (htag : ¬ v.isConstant = true)
    {c : Char} (hc : c = '{' ∨ c = '|' ∨ c = '}') : c ∉ renderValue v := by
  have hfield : isFieldChar c = false := by
    rcases hc with rfl | rfl | rfl <;> rfl
  have hname : ∀ name : String, isFieldName name = true → c ∉ name.toList := by
    intro name hname
    exact not_mem_of_isFieldChar (isFieldName_iff.mp hname).2 hfield
  cases v with
  | constant text => exact absurd rfl htag
  | field name =>
      have hmem := hname name hv
      rcases hc with rfl | rfl | rfl <;> simpa [renderValue] using hmem
  | payload alias? =>
      cases alias? with
      | none => rcases hc with rfl | rfl | rfl <;> decide
      | some name =>
          have hmem := hname name (hv name rfl)
          rcases hc with rfl | rfl | rfl <;> simpa [renderValue, Value.payloadTag] using hmem

/-- Outside of groups the text of values is their plain text with doubled braces. -/
theorem renderItems_values {vs : List Value} (h : ∀ v ∈ vs, v.WellFormed) :
    renderItems (vs.map .value) = doubleBraces (plainText vs) := by
  induction vs with
  | nil => rfl
  | cons v vs ih =>
      have hv := h v List.mem_cons_self
      have hplain : plainText (v :: vs) = plainValue v ++ plainText vs := rfl
      rw [List.map_cons, renderItems, renderItem, ih fun w hw => h w (List.mem_cons_of_mem _ hw),
        hplain, doubleBraces_append]
      congr 1
      cases v with
      | constant text =>
          have hchar : ∀ c, constantChar c =
              doubleBraces (if c = '<' then ['<', '<'] else [c]) := by
            intro c
            by_cases hangle : c = '<'
            · subst hangle
              rfl
            · by_cases hbrace : c = '{' <;> simp [constantChar, doubleBraces, hangle, hbrace]
          simp only [renderValue, plainValue, doubleBraces, List.flatMap_assoc]
          congr 1
          funext c
          exact hchar c
      | field name =>
          have hbrace := not_mem_renderValue hv (by simp [Value.isConstant, Value.constant?])
            (.inl rfl)
          exact (doubleBraces_of_not_mem hbrace).symm
      | payload alias? =>
          have hbrace := not_mem_renderValue hv (by simp [Value.isConstant, Value.constant?])
            (.inl rfl)
          exact (doubleBraces_of_not_mem hbrace).symm

theorem plainValue_ne_nil {v : Value} (h : v.WellFormed) : plainValue v ≠ [] := by
  cases v with
  | constant text =>
      have htext : text.toList ≠ [] := fun hnil => h (String.toList_eq_nil_iff.mp hnil)
      obtain ⟨c, cs, hcs⟩ := List.exists_cons_of_ne_nil htext
      rw [plainValue, hcs, List.flatMap_cons]
      split <;> simp
  | field name => simp [plainValue, renderValue]
  | payload alias? => cases alias? <;> simp [plainValue, renderValue, Value.payloadTag]

theorem plainText_ne_nil {vs : List Value} (h : ∀ v ∈ vs, v.WellFormed) (hne : vs ≠ []) :
    plainText vs ≠ [] := by
  obtain ⟨v, rest, rfl⟩ := List.exists_cons_of_ne_nil hne
  have hv := plainValue_ne_nil (h v List.mem_cons_self)
  simp [plainText, hv]

/-- The text of a branch holds nothing that ends the branch. -/
theorem not_mem_plainText {vs : List Value} (h : ∀ v ∈ vs, v.WellFormed ∧ v.FitsBranch) {c : Char}
    (hc : c = '{' ∨ c = '|' ∨ c = '}') : c ∉ plainText vs := by
  intro hmem
  obtain ⟨v, hv, hmem⟩ := List.mem_flatMap.mp hmem
  obtain ⟨hwell, hfits⟩ := h v hv
  cases v with
  | constant text =>
      obtain ⟨d, hd, hmem⟩ := List.mem_flatMap.mp hmem
      have hdc : c = d := by
        split at hmem
        · next hangle => simpa [hangle] using hmem
        · simpa using hmem
      subst hdc
      obtain ⟨hopen, hbar, hclose⟩ := hfits
      rcases hc with rfl | rfl | rfl
      · exact hopen hd
      · exact hbar hd
      · exact hclose hd
  | field name =>
      exact not_mem_renderValue hwell (by simp [Value.isConstant, Value.constant?]) hc hmem
  | payload alias? =>
      exact not_mem_renderValue hwell (by simp [Value.isConstant, Value.constant?]) hc hmem

/-! ### Reading spans -/

theorem Proper.eq_nil_of_writtenSpans {spans : List Span} (h : Proper spans)
    (hwritten : writtenSpans spans = []) : spans = [] := by
  cases spans with
  | nil => rfl
  | cons first spans =>
      have hfirst : first.written = [] := (List.append_eq_nil_iff.mp hwritten).1
      cases first with
      | text cs =>
          obtain ⟨c, cs, rfl⟩ := List.exists_cons_of_ne_nil h.head
          have hchars : doubleBraces (c :: cs) = [] := hfirst
          rw [doubleBraces, List.flatMap_cons] at hchars
          have hc := (List.append_eq_nil_iff.mp hchars).1
          split at hc <;> cases hc
      | group branches => cases branches <;> cases hfirst

/-- The pattern that a span is read as. -/
inductive SpanReads : Span → Pattern → Prop
  | text {cs : List Char} {p : Pattern} (h : readPlain cs = .ok p) : SpanReads (.text cs) p
  | group {branches : List (List Char)} {patterns : List Pattern}
      (h : List.Forall₂ (fun cs p => readPlain cs = .ok p) branches patterns) :
      SpanReads (.group branches) [.alternatives patterns]

theorem readChunk_eq_ok {chunk : Chunk} {p : Pattern} :
    readChunk chunk = .ok p ↔ readPlain chunk.text.toList = .ok p := by
  unfold readChunk
  exact mapError_eq_ok

theorem readSegment_eq_ok {segment : Segment} {p : Pattern} :
    readSegment segment = .ok p ↔ SpanReads segment.span p := by
  cases segment with
  | text chunk =>
      have hread : readSegment (.text chunk) = .ok p ↔ readPlain chunk.text.toList = .ok p :=
        readChunk_eq_ok
      rw [hread]
      constructor
      · exact .text
      · intro h
        cases h with
        | text h => exact h
  | alternatives branches =>
      have hread : readSegment (.alternatives branches) = .ok p ↔
          ∃ patterns, branches.mapM readChunk = .ok patterns ∧ [.alternatives patterns] = p := by
        unfold readSegment
        rw [bind_eq_ok]
        simp [pure, Except.pure]
      have hbranches : ∀ patterns, branches.mapM readChunk = .ok patterns ↔
          List.Forall₂ (fun cs p => readPlain cs = .ok p)
            (branches.map fun chunk => chunk.text.toList) patterns := by
        intro patterns
        rw [mapM_eq_ok, List.forall₂_map_left_iff]
        simp only [readChunk_eq_ok]
      rw [hread]
      constructor
      · rintro ⟨patterns, hpatterns, rfl⟩
        exact .group ((hbranches patterns).mp hpatterns)
      · intro h
        cases h with
        | group h => exact ⟨_, (hbranches _).mpr h, rfl⟩

theorem read_empty : read "" = .ok [] := by
  have hsplit : Segment.split "" = .ok [.text (.ofRun 0 [])] := rfl
  have hvalues : ∀ v ∈ ([] : List Value), v.WellFormed := fun _ hmem => nomatch hmem
  have hplain : readPlain [] = .ok [] := readPlain_plainText hvalues .nil
  have hsegment : readSegment (.text (.ofRun 0 [])) = .ok [] := readSegment_eq_ok.mpr (.text hplain)
  have hsegments : [Segment.text (.ofRun 0 [])].mapM readSegment = .ok [[]] :=
    mapM_eq_ok.mpr (.cons hsegment .nil)
  unfold read
  rw [hsplit]
  exact bind_eq_ok.mpr ⟨_, rfl, bind_eq_ok.mpr ⟨_, hsegments, rfl⟩⟩

/-- Reading a source is reading the spans that it is written in. -/
theorem read_eq_ok_iff {source : String} {p : Pattern} :
    read source = .ok p ↔ ∃ spans ps, Proper spans ∧ source.toList = writtenSpans spans ∧
      List.Forall₂ SpanReads spans ps ∧ p = ps.flatten := by
  have hsegments : ∀ segments : List Segment, ∀ ps, segments.mapM readSegment = .ok ps ↔
      List.Forall₂ SpanReads (segments.map Segment.span) ps := by
    intro segments ps
    rw [mapM_eq_ok, List.forall₂_map_left_iff]
    simp only [readSegment_eq_ok]
  by_cases hsource : source = ""
  · subst hsource
    rw [read_empty]
    constructor
    · rintro ⟨⟩
      exact ⟨[], [], .nil, rfl, .nil, rfl⟩
    · rintro ⟨spans, ps, hproper, hwritten, hps, rfl⟩
      have hnil : spans = [] := hproper.eq_nil_of_writtenSpans hwritten.symm
      subst hnil
      cases hps
      rfl
  · have hread : read source = .ok p ↔ ∃ segments ps, Segment.split source = .ok segments ∧
        segments.mapM readSegment = .ok ps ∧ p = ps.flatten := by
      unfold read
      simp only [bind_eq_ok, pure, Except.pure, Except.ok.injEq, eq_comm (a := p)]
      constructor
      · rintro ⟨segments, hsplit, ps, hps, heq⟩
        exact ⟨segments, ps, hsplit, hps, heq⟩
      · rintro ⟨segments, ps, hsplit, hps, heq⟩
        exact ⟨segments, hsplit, ps, hps, heq⟩
    rw [hread]
    constructor
    · rintro ⟨segments, ps, hsplit, hps, rfl⟩
      obtain ⟨hwritten, hproper⟩ := Segment.split_sound hsource hsplit
      exact ⟨_, ps, hproper, hwritten, (hsegments segments ps).mp hps, rfl⟩
    · rintro ⟨spans, ps, hproper, hwritten, hps, rfl⟩
      have hne : spans ≠ [] := by
        rintro rfl
        exact hsource (String.toList_eq_nil_iff.mp hwritten)
      obtain ⟨segments, hsplit, rfl⟩ := Segment.exists_split hproper hne hwritten
      exact ⟨segments, ps, hsplit, (hsegments segments ps).mpr hps, rfl⟩

/-! ### From sources to patterns -/

/-- A list of values that is read behind a text that may stand in a branch is a branch. -/
theorem wellFormedBranch_of_readPlain {cs : List Char} (hcs : Span.IsBranch cs) {p : Pattern}
    (h : readPlain cs = .ok p) : WellFormedBranch p := by
  obtain ⟨vs, rfl, hvs, hsep, hchars, hne, -⟩ := exists_of_readPlain h
  refine ⟨?_, (constantsApart_map_value vs).mpr hsep, ?_⟩
  · intro hnil
    exact hne hcs.1 (List.map_eq_nil_iff.mp hnil)
  · intro item hitem
    obtain ⟨v, hv, rfl⟩ := List.mem_map.mp hitem
    refine ⟨hvs v hv, ?_⟩
    cases v with
    | constant text =>
        have hmem := hchars text hv
        exact ⟨fun hc => hcs.2.1 (hmem _ hc), fun hc => hcs.2.2.1 (hmem _ hc),
          fun hc => hcs.2.2.2 (hmem _ hc)⟩
    | field name => trivial
    | payload alias? => trivial

/-- Branches with bars in front are shortened one by one. -/
theorem shortenTags_barred {branches : List (List Char)} {patterns : List Pattern}
    (h : List.Forall₂ (fun cs p => readPlain cs = .ok p) branches patterns)
    (hbranches : ∀ cs ∈ branches, Span.IsBranch cs) (rest : List Char) :
    shortenTags (Span.barred branches ++ '}' :: rest) =
      (patterns.flatMap fun p => '|' :: renderItems p) ++ '}' :: shortenTags rest := by
  induction h with
  | nil => exact shortenTags_cons (by decide) rest
  | @cons cs p branches patterns hread _ ih =>
      have hcs := hbranches cs List.mem_cons_self
      have ih := ih fun ds hds => hbranches ds (List.mem_cons_of_mem _ hds)
      obtain ⟨-, -, -, -, -, -, hshorten⟩ := exists_of_readPlain hread
      have hbarred : Span.barred (cs :: branches) ++ '}' :: rest =
          '|' :: (doubleBraces cs ++ (Span.barred branches ++ '}' :: rest)) := by
        rw [doubleBraces_of_not_mem hcs.2.1]
        simp [Span.barred]
      rw [hbarred, shortenTags_cons (by decide), hshorten, ih]
      simp

theorem renderBranches_cons (p : Pattern) (patterns : List Pattern) :
    renderBranches (p :: patterns) =
      renderItems p ++ patterns.flatMap fun p => '|' :: renderItems p := by
  induction patterns generalizing p with
  | nil => simp [renderBranches]
  | cons q patterns ih =>
      rw [renderBranches, ih]
      · simp
      · exact List.cons_ne_nil _ _

/-- A span is shortened to the source text of its pattern. -/
theorem shortenTags_written {span : Span} (hspan : span.Proper) {p : Pattern}
    (h : SpanReads span p) (rest : List Char) :
    shortenTags (span.written ++ rest) = renderItems p ++ shortenTags rest := by
  cases h with
  | text h =>
      obtain ⟨-, -, -, -, -, -, hshorten⟩ := exists_of_readPlain h
      exact hshorten rest
  | @group branches patterns h =>
      cases h with
      | nil => exact absurd rfl hspan.1
      | @cons cs p branches patterns hread hrest =>
          have hcs := hspan.2 cs List.mem_cons_self
          obtain ⟨-, -, -, -, -, -, hshorten⟩ := exists_of_readPlain hread
          have hwritten : (Span.group (cs :: branches)).written ++ rest =
              '{' :: (doubleBraces cs ++ (Span.barred branches ++ '}' :: rest)) := by
            rw [doubleBraces_of_not_mem hcs.2.1]
            simp [Span.written]
          rw [hwritten, shortenTags_cons (by decide), hshorten, shortenTags_barred hrest
            fun ds hds => hspan.2 ds (List.mem_cons_of_mem _ hds)]
          simp [renderItems, renderItem, renderBranches_cons]

/-- A span is read as a well formed pattern, which ends in no constant if the span is a group. -/
theorem wellFormed_of_spanReads {span : Span} (hspan : span.Proper) {p : Pattern}
    (h : SpanReads span p) :
    WellFormed p ∧ (¬ span.isText = true → ∀ item ∈ p, ¬ item.isConstant = true) := by
  cases h with
  | text h =>
      obtain ⟨vs, rfl, hvs, hsep, -⟩ := exists_of_readPlain h
      refine ⟨⟨(constantsApart_map_value vs).mpr hsep, ?_⟩, fun hnot => absurd rfl hnot⟩
      intro item hitem
      obtain ⟨v, hv, rfl⟩ := List.mem_map.mp hitem
      exact hvs v hv
  | @group branches patterns h =>
      have hlength := h.length_eq
      refine ⟨⟨List.isChain_singleton _, ?_⟩, ?_⟩
      · intro item hitem
        cases List.mem_singleton.mp hitem
        refine ⟨?_, ?_⟩
        · rintro rfl
          exact hspan.1 (List.eq_nil_of_length_eq_zero hlength)
        · intro p hp
          obtain ⟨cs, hcs, hread⟩ := exists_of_mem_mapM (mapM_eq_ok.mpr h) hp
          exact wellFormedBranch_of_readPlain (hspan.2 cs hcs) hread
      · intro _ item hitem
        cases List.mem_singleton.mp hitem
        exact Bool.false_ne_true

/-- Spans of a source are read as a well formed pattern, whose source text they are up to long tags. -/
theorem wellFormed_of_reads {spans : List Span} {ps : List Pattern} (hspans : Proper spans)
    (h : List.Forall₂ SpanReads spans ps) :
    WellFormed ps.flatten ∧ renderItems ps.flatten = shortenTags (writtenSpans spans) ∧
      ((∀ s ∈ spans.head?, ¬ s.isText = true) →
        ∀ item ∈ ps.flatten.head?, ¬ item.isConstant = true) := by
  induction h with
  | nil => exact ⟨⟨.nil, fun _ hmem => nomatch hmem⟩, by rw [writtenSpans, List.flatMap_nil, shortenTags]; rfl,
      fun _ _ hmem => nomatch hmem⟩
  | @cons span p spans ps hread _ ih =>
      obtain ⟨hrest, hrender, hhead⟩ := ih hspans.tail
      obtain ⟨hp, hgroup⟩ := wellFormed_of_spanReads hspans.head hread
      have hapart := (List.isChain_cons.mp hspans.apart).1
      refine ⟨⟨?_, ?_⟩, ?_, ?_⟩
      · refine List.isChain_append.mpr ⟨hp.1, hrest.1, ?_⟩
        intro a ha b hb hboth
        by_cases htext : span.isText = true
        · exact hhead (fun s hs hs' => hapart s hs ⟨htext, hs'⟩) b hb hboth.2
        · exact hgroup htext a (List.mem_of_getLast? ha) hboth.1
      · intro item hitem
        rcases List.mem_append.mp hitem with hitem | hitem
        · exact hp.2 item hitem
        · exact hrest.2 item hitem
      · have hwritten : writtenSpans (span :: spans) = span.written ++ writtenSpans spans := rfl
        rw [hwritten, shortenTags_written hspans.head hread, ← hrender, List.flatten_cons,
          renderItems_append]
      · intro hnot item hitem
        have htext := hnot span rfl
        cases hread with
        | text _ => exact absurd rfl htext
        | group _ =>
            cases hitem
            exact Bool.false_ne_true

/-- What is read is well formed. -/
theorem wellFormed_of_read {source : String} {p : Pattern} (h : read source = .ok p) :
    p.WellFormed := by
  obtain ⟨spans, ps, hproper, -, hreads, rfl⟩ := read_eq_ok_iff.mp h
  exact (wellFormed_of_reads hproper hreads).1

/-! ### From patterns to sources -/

/-- A pattern is a list of values, or a list of values in front of a group. -/
theorem pattern_induction {motive : Pattern → Prop}
    (values : ∀ vs : List Value, motive (vs.map .value))
    (group : ∀ (vs : List Value) (branches : List Pattern) (rest : Pattern), motive rest →
      motive (vs.map .value ++ .alternatives branches :: rest)) (p : Pattern) : motive p := by
  have hbehind : ∀ vs : List Value, motive (vs.map .value ++ p) := by
    induction p with
    | nil =>
        intro vs
        rw [List.append_nil]
        exact values vs
    | cons item rest ih =>
        intro vs
        cases item with
        | value v =>
            have happend : vs.map .value ++ .value v :: rest = (vs ++ [v]).map .value ++ rest := by
              simp
            rw [happend]
            exact ih _
        | alternatives branches => exact group vs branches rest (ih [])
  exact hbehind []

/-- Branches are read from their plain texts. -/
theorem exists_branchTexts {branches : List Pattern}
    (h : ∀ branch ∈ branches, WellFormedBranch branch) :
    ∃ texts, (∀ cs ∈ texts, Span.IsBranch cs) ∧
      List.Forall₂ (fun cs p => readPlain cs = .ok p) texts branches ∧
      texts = branches.map renderItems := by
  refine ⟨branches.map renderItems, ?_, ?_, rfl⟩
  · intro cs hcs
    obtain ⟨branch, hbranch, rfl⟩ := List.mem_map.mp hcs
    obtain ⟨vs, rfl, hne, -, hvs⟩ := (h branch hbranch).exists_values
    have hwell : ∀ v ∈ vs, v.WellFormed := fun v hv => (hvs v hv).1
    have hplain := renderItems_values hwell
    rw [doubleBraces_of_not_mem (not_mem_plainText hvs (.inl rfl))] at hplain
    rw [hplain]
    exact ⟨plainText_ne_nil hwell hne, not_mem_plainText hvs (.inl rfl),
      not_mem_plainText hvs (.inr (.inl rfl)), not_mem_plainText hvs (.inr (.inr rfl))⟩
  · rw [List.forall₂_map_left_iff, List.forall₂_same]
    intro branch hbranch
    obtain ⟨vs, rfl, -, hsep, hvs⟩ := (h branch hbranch).exists_values
    have hwell : ∀ v ∈ vs, v.WellFormed := fun v hv => (hvs v hv).1
    rw [renderItems_values hwell, doubleBraces_of_not_mem (not_mem_plainText hvs (.inl rfl))]
    exact readPlain_plainText hwell hsep

theorem written_group {branches : List Pattern} (hne : branches ≠ []) :
    (Span.group (branches.map renderItems)).written = renderItem (.alternatives branches) := by
  obtain ⟨p, patterns, rfl⟩ := List.exists_cons_of_ne_nil hne
  simp [Span.written, renderItem, renderBranches_cons, Span.barred, List.flatMap_map]

/-- The text of values, if there are any, is read as these values. -/
theorem exists_spans_values {vs : List Value} (hvs : ∀ v ∈ vs, v.WellFormed) (hsep : Separated vs)
    {spans : List Span} {ps : List Pattern} (hspans : Proper spans)
    (hhead : ∀ s ∈ spans.head?, ¬ s.isText = true) (h : List.Forall₂ SpanReads spans ps) :
    Proper (spansBehind (plainText vs) spans) ∧
      ∃ ps', List.Forall₂ SpanReads (spansBehind (plainText vs) spans) ps' ∧
        ps'.flatten = vs.map .value ++ ps.flatten := by
  refine ⟨hspans.behind hhead _, ?_⟩
  by_cases hnil : vs = []
  · subst hnil
    exact ⟨ps, h, rfl⟩
  · rw [spansBehind, if_neg (plainText_ne_nil hvs hnil)]
    exact ⟨vs.map .value :: ps, .cons (.text (readPlain_plainText hvs hsep)) h, rfl⟩

/-- The source text of a well formed pattern is written in spans that are read as the pattern. -/
theorem exists_spans {p : Pattern} (h : WellFormed p) :
    ∃ spans ps, Proper spans ∧ renderItems p = writtenSpans spans ∧
      List.Forall₂ SpanReads spans ps ∧ p = ps.flatten := by
  induction p using pattern_induction with
  | values vs =>
      have hvs : ∀ v ∈ vs, v.WellFormed := fun v hv => h.2 _ (List.mem_map_of_mem hv)
      have hsep : Separated vs := (constantsApart_map_value vs).mp h.1
      obtain ⟨hproper, ps, hreads, hflatten⟩ :=
        exists_spans_values hvs hsep .nil (fun _ hmem => nomatch hmem) .nil
      refine ⟨_, ps, hproper, ?_, hreads, ?_⟩
      · rw [writtenSpans_spansBehind, renderItems_values hvs]
        exact (List.append_nil _).symm
      · rw [hflatten]
        exact (List.append_nil _).symm
  | group vs branches rest ih =>
      obtain ⟨hapart, hitems⟩ := h
      obtain ⟨hfront, hback, -⟩ := List.isChain_append.mp hapart
      have hvs : ∀ v ∈ vs, v.WellFormed :=
        fun v hv => hitems _ (List.mem_append_left _ (List.mem_map_of_mem hv))
      have hsep : Separated vs := (constantsApart_map_value vs).mp hfront
      have hrest : WellFormed rest := by
        refine ⟨hback.tail, fun item hitem => hitems item ?_⟩
        exact List.mem_append_right _ (List.mem_cons_of_mem _ hitem)
      obtain ⟨hne, hbranches⟩ := hitems (.alternatives branches)
        (List.mem_append_right _ List.mem_cons_self)
      obtain ⟨spans, ps, hproper, hwritten, hreads, rfl⟩ := ih hrest
      obtain ⟨texts, htexts, hread, rfl⟩ := exists_branchTexts hbranches
      have hgroup : (Span.group (branches.map renderItems)).Proper := by
        refine ⟨?_, htexts⟩
        intro hnil
        exact hne (List.map_eq_nil_iff.mp hnil)
      have hhead : ∀ s ∈ (Span.group (branches.map renderItems) :: spans).head?,
          ¬ s.isText = true := by
        rintro s ⟨⟩
        exact Bool.false_ne_true
      obtain ⟨hproper', ps', hreads', hflatten⟩ := exists_spans_values hvs hsep
        (hproper.cons_group hgroup) hhead (.cons (.group hread) hreads)
      refine ⟨_, ps', hproper', ?_, hreads', hflatten.symm⟩
      rw [writtenSpans_spansBehind, renderItems_append, renderItems_values hvs, renderItems, hwritten,
        ← written_group hne]
      rfl

/-! ### The round trip -/

/-- A well formed pattern is read from its source text. -/
theorem read_render {p : Pattern} (h : p.WellFormed) : read p.render = .ok p := by
  obtain ⟨spans, ps, hproper, hwritten, hreads, rfl⟩ := exists_spans h
  refine read_eq_ok_iff.mpr ⟨spans, ps, hproper, ?_, hreads, rfl⟩
  rw [render, String.toList_ofList, hwritten]

/-- **Reading and writing are inverse to each other.** A source that is read is well formed and is the
source text of its pattern, except that long payload tags are shortened; and every well formed pattern
is read from its source text. -/
theorem read_render_roundTrip :
    (∀ (source : String) (p : Pattern), read source = .ok p →
      p.render = String.ofList (shortenTags source.toList) ∧ p.WellFormed) ∧
    ∀ p : Pattern, p.WellFormed → read p.render = .ok p := by
  refine ⟨fun source p h => ?_, fun p => read_render⟩
  obtain ⟨spans, ps, hproper, hsource, hreads, rfl⟩ := read_eq_ok_iff.mp h
  obtain ⟨hwell, hrender, -⟩ := wellFormed_of_reads hproper hreads
  refine ⟨?_, hwell⟩
  rw [render, hrender, hsource]

/-- Escapes next to a tag, to a group and to the ends of a branch, and a long payload tag. -/
def escapedSource : String := "\x7b\x7b<<<a>\x7b<<|b<!payload:>\x7d"

/-- What `escapedSource` stands for. -/
def escapedPattern : Pattern :=
  [.value (.constant "\x7b<"), .value (.field "a"),
    .alternatives [[.value (.constant "<")], [.value (.constant "b"), .value (.payload none)]]]

theorem read_escapedSource : read escapedSource = .ok escapedPattern := by
  have hfront : lexemes "\x7b<<<a>".toList = .ok [.char '{', .char '<', .tag (.field "a")] :=
    eq_ok_of_toOption (by decide +kernel)
  have hangle : lexemes "<<".toList = .ok [.char '<'] := eq_ok_of_toOption (by decide +kernel)
  have hlong : lexemes "b<!payload:>".toList = .ok [.char 'b', .tag (.payload none)] :=
    eq_ok_of_toOption (by decide +kernel)
  have hread : ∀ {cs : List Char} {ls : List Lexeme}, lexemes cs = .ok ls →
      readPlain cs = .ok ((ofLexemes ls).map .value) := by
    intro cs ls h
    rw [readPlain, h]
  refine read_eq_ok_iff.mpr ⟨[.text "\x7b<<<a>".toList, .group ["<<".toList, "b<!payload:>".toList]],
    [escapedPattern.take 2, escapedPattern.drop 2], ⟨by decide, by decide⟩, by decide, ?_, rfl⟩
  exact .cons (.text (hread hfront))
    (.cons (.group (.cons (hread hangle) (.cons (hread hlong) .nil))) .nil)

theorem read_render_roundTrip_escapedSource :
    escapedPattern.render = String.ofList (shortenTags escapedSource.toList) ∧
      escapedPattern.render = "\x7b\x7b<<<a>\x7b<<|b<!payload>\x7d" ∧ escapedPattern.WellFormed ∧
      read escapedPattern.render = .ok escapedPattern := by
  obtain ⟨hrender, hwell⟩ := read_render_roundTrip.1 _ _ read_escapedSource
  exact ⟨hrender, by decide, hwell, read_render_roundTrip.2 escapedPattern (by decide)⟩

end Pattern

end LogRules

import LogRules.Proofs.Pattern.Errors
import LogRules.Proofs.Text.Split

/-! # Splitting is faithful

A source is split exactly when it is `WellGrouped`: read from left to right, with a doubled brace outside of the
groups for one brace, every group is closed, holds no brace and has no empty branch (`split_succeeds_iff`). The
segments are written as the source, and every piece knows where each of its characters stands there
(`split_faithful`). -/

namespace LogRules.Pattern

open Text

/-- Read from left to right, a doubled brace outside of the groups is one brace, and every group is closed, holds
no brace and has no empty branch. -/
inductive WellGrouped : List Char → Prop
  | nil : WellGrouped []
  | doubled {cs : List Char} (hrest : WellGrouped cs) : WellGrouped ('{' :: '{' :: cs)
  | char {c : Char} {cs : List Char} (hc : c ≠ '{') (hrest : WellGrouped cs) : WellGrouped (c :: cs)
  | group {body cs : List Char} (hopen : '{' ∉ body) (hclose : '}' ∉ body)
      (hbranches : [] ∉ splitAll '|' body) (hrest : WellGrouped cs) :
      WellGrouped ('{' :: (body ++ '}' :: cs))

/-- Takes two braces side by side for one, from left to right. -/
def collapseBraces : List Char → List Char
  | [] => []
  | '{' :: '{' :: cs => '{' :: collapseBraces cs
  | c :: cs => c :: collapseBraces cs

/-- What source text of a segment stands for. -/
def Segment.collapse : Segment → List Char → List Char
  | .text _, cs => collapseBraces cs
  | .alternatives _, cs => cs

theorem collapseBraces_doubleBraces (cs : List Char) : collapseBraces (doubleBraces cs) = cs := by
  induction cs with
  | nil => rfl
  | cons c cs ih =>
      by_cases hc : c = '{'
      · subst hc
        have hbraces : doubleBraces ('{' :: cs) = '{' :: '{' :: doubleBraces cs := rfl
        rw [hbraces, collapseBraces, ih]
      · have hbraces : doubleBraces (c :: cs) = c :: doubleBraces cs := by simp [doubleBraces, hc]
        rw [hbraces, collapseBraces, ih]
        exact fun _ heq => absurd heq hc

/-! ### Branches of a group -/

/-- The pieces between the bars of a group are its branches. -/
theorem exists_barred (body : List Char) :
    ∃ first others, splitAll '|' body = first :: others ∧ body = first ++ Span.barred others := by
  obtain ⟨first, others, hsplit⟩ := List.exists_cons_of_ne_nil (splitAll_ne_nil '|' body)
  refine ⟨first, others, hsplit, ?_⟩
  rw [← intercalate_splitAll '|' body, hsplit]
  clear hsplit
  induction others generalizing first with
  | nil => simp [List.intercalate, Span.barred]
  | cons second others ih =>
      rw [List.intercalate_cons_of_ne_nil (List.cons_ne_nil _ _), ih]
      simp [Span.barred]

/-- Apart from the bars, the characters of a group are those of its branches. -/
theorem mem_append_barred {c : Char} (hc : c ≠ '|') {first : List Char} {others : List (List Char)} :
    c ∈ first ++ Span.barred others ↔ ∃ cs ∈ first :: others, c ∈ cs := by
  simp [Span.barred, hc]

theorem splitAll_barred {first : List Char} {others : List (List Char)} (hfirst : '|' ∉ first)
    (hothers : ∀ cs ∈ others, '|' ∉ cs) : splitAll '|' (first ++ Span.barred others) = first :: others := by
  induction others generalizing first with
  | nil =>
      rw [Span.barred, List.flatMap_nil, List.append_nil]
      exact splitAll_of_not_mem hfirst
  | cons second others ih =>
      obtain ⟨hsecond, hothers⟩ := List.forall_mem_cons.mp hothers
      have hbarred : Span.barred (second :: others) = '|' :: (second ++ Span.barred others) := rfl
      rw [hbarred, splitAll_append_cons hfirst, ih hsecond hothers]

/-- What stands between the braces of a group that comes from a source. -/
theorem body_of_proper {first : List Char} {others : List (List Char)}
    (h : (Span.group (first :: others)).Proper) :
    '{' ∉ first ++ Span.barred others ∧ '}' ∉ first ++ Span.barred others ∧
      [] ∉ splitAll '|' (first ++ Span.barred others) := by
  have hbranches := h.2
  have hnot {c : Char} (hbar : c ≠ '|') (hc : ∀ cs, Span.IsBranch cs → c ∉ cs) :
      c ∉ first ++ Span.barred others := by
    intro hmem
    obtain ⟨cs, hcs, hmem⟩ := (mem_append_barred hbar).mp hmem
    exact hc cs (hbranches cs hcs) hmem
  refine ⟨hnot (by decide) fun cs hcs => hcs.2.1, hnot (by decide) fun cs hcs => hcs.2.2.2, ?_⟩
  obtain ⟨hfirst, hothers⟩ := List.forall_mem_cons.mp hbranches
  rw [splitAll_barred hfirst.2.2.1 fun cs hcs => (hothers cs hcs).2.2.1]
  exact fun hnil => (hbranches [] hnil).1 rfl

/-- Such a text is the text of branches. -/
theorem exists_proper {body : List Char} (hopen : '{' ∉ body) (hclose : '}' ∉ body)
    (hbranches : [] ∉ splitAll '|' body) :
    ∃ first others, body = first ++ Span.barred others ∧ (Span.group (first :: others)).Proper := by
  obtain ⟨first, others, hsplit, rfl⟩ := exists_barred body
  refine ⟨first, others, rfl, List.cons_ne_nil _ _, fun branch hbranch => ⟨?_, ?_, ?_, ?_⟩⟩
  · rintro rfl
    exact hbranches (hsplit ▸ hbranch)
  · exact fun hc => hopen ((mem_append_barred (by decide)).mpr ⟨branch, hbranch, hc⟩)
  · exact not_mem_of_mem_splitAll (hsplit ▸ hbranch)
  · exact fun hc => hclose ((mem_append_barred (by decide)).mpr ⟨branch, hbranch, hc⟩)

/-! ### Sources that are split -/

theorem WellGrouped.doubleBraces_append {cs : List Char} (h : WellGrouped cs) (run : List Char) :
    WellGrouped (doubleBraces run ++ cs) := by
  induction run with
  | nil => exact h
  | cons c run ih =>
      by_cases hc : c = '{'
      · subst hc
        exact .doubled ih
      · have hbraces : doubleBraces (c :: run) ++ cs = c :: (doubleBraces run ++ cs) := by
          simp [doubleBraces, hc]
        rw [hbraces]
        exact .char hc ih

theorem wellGrouped_writtenSpans {spans : List Span} (h : ∀ span ∈ spans, span.Proper) :
    WellGrouped (writtenSpans spans) := by
  induction spans with
  | nil => exact .nil
  | cons span spans ih =>
      obtain ⟨hspan, hspans⟩ := List.forall_mem_cons.mp h
      have ih := ih hspans
      have hwritten : writtenSpans (span :: spans) = span.written ++ writtenSpans spans := rfl
      rw [hwritten]
      cases span with
      | text cs => exact ih.doubleBraces_append cs
      | group branches =>
          obtain ⟨first, others, rfl⟩ := List.exists_cons_of_ne_nil hspan.1
          obtain ⟨hopen, hclose, hbranches⟩ := body_of_proper hspan
          have hbody : (Span.group (first :: others)).written ++ writtenSpans spans =
              '{' :: ((first ++ Span.barred others) ++ '}' :: writtenSpans spans) := by
            simp [Span.written]
          rw [hbody]
          exact .group hopen hclose hbranches ih

/-- The spans of a well grouped text, behind the run of plain text at its front. -/
theorem WellGrouped.exists_spans {cs : List Char} (h : WellGrouped cs) :
    ∃ run spans, Proper spans ∧ (∀ s ∈ spans.head?, ¬ s.isText = true) ∧
      cs = doubleBraces run ++ writtenSpans spans := by
  induction h with
  | nil => exact ⟨[], [], .nil, (fun _ hmem => nomatch hmem), rfl⟩
  | doubled _ ih =>
      obtain ⟨run, spans, hproper, hhead, rfl⟩ := ih
      exact ⟨'{' :: run, spans, hproper, hhead, rfl⟩
  | @char c cs hc _ ih =>
      obtain ⟨run, spans, hproper, hhead, rfl⟩ := ih
      exact ⟨c :: run, spans, hproper, hhead, by simp [doubleBraces, hc]⟩
  | @group body cs hopen hclose hbranches _ ih =>
      obtain ⟨run, spans, hproper, hhead, rfl⟩ := ih
      obtain ⟨first, others, rfl, hgroup⟩ := exists_proper hopen hclose hbranches
      refine ⟨[], .group (first :: others) :: spansBehind run spans, ?_, ?_, ?_⟩
      · exact (hproper.behind hhead run).cons_group hgroup
      · rintro s ⟨⟩
        exact Bool.false_ne_true
      · have hwritten : writtenSpans (.group (first :: others) :: spansBehind run spans) =
            (Span.group (first :: others)).written ++ writtenSpans (spansBehind run spans) := rfl
        rw [hwritten, writtenSpans_spansBehind]
        simp [Span.written, doubleBraces]

namespace Segment

theorem split_empty : split "" = .ok [.text (.ofRun 0 [])] := rfl

variable {source : String} {segments : List Segment}

/-- The segments of a source are written as the source. -/
theorem writtenSpans_of_split (h : split source = .ok segments) :
    writtenSpans (segments.map span) = source.toList := by
  by_cases hne : source = ""
  · subst hne
    cases h
    rfl
  · exact (split_sound hne h).1.symm

theorem split_succeeds_iff : (∃ segments, split source = .ok segments) ↔ WellGrouped source.toList := by
  by_cases hne : source = ""
  · subst hne
    exact iff_of_true ⟨_, split_empty⟩ .nil
  · constructor
    · rintro ⟨segments, h⟩
      obtain ⟨hsource, hproper⟩ := split_sound hne h
      rw [hsource]
      exact wellGrouped_writtenSpans hproper.proper
    · intro h
      obtain ⟨run, spans, hproper, hhead, hsource⟩ := h.exists_spans
      rw [← writtenSpans_spansBehind] at hsource
      have hspans : spansBehind run spans ≠ [] := by
        intro hnil
        rw [hnil] at hsource
        exact hne (String.toList_eq_nil_iff.mp hsource)
      obtain ⟨segments, hsplit, -⟩ := exists_split (hproper.behind hhead run) hspans hsource
      exact ⟨segments, hsplit⟩

/-- A branch holds no brace. -/
theorem not_mem_of_split {branches : List Chunk} {chunk : Chunk} (h : split source = .ok segments)
    (hmem : .alternatives branches ∈ segments) (hchunk : chunk ∈ branches) : '{' ∉ chunk.text.toList := by
  by_cases hne : source = ""
  · subst hne
    cases h
    simp at hmem
  · have hproper := (split_sound hne h).2.proper _ (List.mem_map_of_mem hmem)
    exact (hproper.2 _ (List.mem_map_of_mem hchunk)).2.1

/-- From the place of a piece up to that of one of its characters the source stands for the bytes of the piece in
front of the character. -/
theorem exists_between_of_split (h : split source = .ok segments) {segment : Segment}
    (hmem : segment ∈ segments) {chunk : Chunk} (hchunk : chunk ∈ segment.chunks) {p : Nat}
    (hp : IsPlace 0 chunk.text.toList p) :
    ∃ front between after, source.toList = front ++ between ++ after ∧
      byteLength front = chunk.offset ∧
      byteLength front + byteLength between = chunk.sourceOffset p ∧
      encodeChars (segment.collapse between) = (encode chunk.text).take p := by
  have hbraces : ∀ before rest, chunk.text.toList = before ++ rest →
      segment.collapse (doubleBraces before) = before := by
    intro before rest htext
    cases segment with
    | text _ => exact collapseBraces_doubleBraces before
    | alternatives branches =>
        refine doubleBraces_of_not_mem fun hbrace => not_mem_of_split h hmem hchunk ?_
        rw [htext]
        exact List.mem_append_left rest hbrace
  obtain ⟨before, rest, htext, rfl⟩ := hp
  obtain ⟨front, run, after, hsource, hmarks, rfl⟩ :=
    stands_of_split h chunk (List.mem_flatMap.mpr ⟨segment, hmem, hchunk⟩)
  have hrun : run.map Prod.fst = before ++ rest := by rw [← htext, Chunk.ofRun, String.toList_ofList]
  refine ⟨front, doubleBraces before, doubleBraces rest ++ after, ?_, ?_, ?_, ?_⟩
  · rw [hsource, hrun, doubleBraces_append]
    simp only [List.append_assoc]
  · exact (Nat.zero_add _).symm
  · rw [Nat.zero_add (byteLength before), sourceOffset_ofRun hmarks hrun, Nat.zero_add]
  · rw [hbraces before rest htext, encode, htext, encodeChars_append, Nat.zero_add, ← length_encodeChars,
      List.take_left]

/-- A source is split exactly when its groups are closed, hold no brace and have no empty branch. The segments are
written as the source: no text and no branch is empty, except for the one text of an empty source, and no two texts
are side by side. From the place of a piece up to that of one of its characters the source stands for the bytes of
the piece in front of the character. -/
theorem split_faithful (source : String) :
    ((∃ segments, split source = .ok segments) ↔ WellGrouped source.toList) ∧
    ∀ segments, split source = .ok segments →
      writtenSpans (segments.map span) = source.toList ∧
      (source = "" → segments = [.text (.ofRun 0 [])]) ∧
      (source ≠ "" → Proper (segments.map span)) ∧
      ∀ segment ∈ segments, ∀ chunk ∈ segment.chunks, ∀ p, IsPlace 0 chunk.text.toList p →
        ∃ front between after, source.toList = front ++ between ++ after ∧
          byteLength front = chunk.offset ∧
          byteLength front + byteLength between = chunk.sourceOffset p ∧
          encodeChars (segment.collapse between) = (encode chunk.text).take p := by
  refine ⟨split_succeeds_iff, fun segments h => ⟨writtenSpans_of_split h, ?_, ?_, ?_⟩⟩
  · rintro rfl
    cases h
    rfl
  · exact fun hne => (split_sound hne h).2
  · exact fun segment hmem chunk hchunk p hp => exists_between_of_split h hmem hchunk hp

/-- The first three bytes of the text end with a brace, which is doubled in the source. -/
theorem split_faithful_doubledBrace :
    split "é\x7b\x7bü\x7ba|ß\x7d" =
      .ok [.text ⟨"é\x7bü", 0, [2]⟩, .alternatives [⟨"a", 7, []⟩, ⟨"ß", 9, []⟩]] ∧
    IsPlace 0 "é\x7bü".toList 3 ∧
    ∃ front between after, "é\x7b\x7bü\x7ba|ß\x7d".toList = front ++ between ++ after ∧
      byteLength front = 0 ∧ byteLength front + byteLength between = 4 ∧
      encodeChars (collapseBraces between) = (encode "é\x7bü").take 3 := by
  have hsplit : split "é\x7b\x7bü\x7ba|ß\x7d" =
      .ok [.text ⟨"é\x7bü", 0, [2]⟩, .alternatives [⟨"a", 7, []⟩, ⟨"ß", 9, []⟩]] := by decide +kernel
  have hplace : IsPlace 0 "é\x7bü".toList 3 := ⟨['é', '{'], ['ü'], by decide, by decide⟩
  obtain ⟨-, -, -, hbetween⟩ := (split_faithful "é\x7b\x7bü\x7ba|ß\x7d").2 _ hsplit
  exact ⟨hsplit, hplace, hbetween _ List.mem_cons_self _ List.mem_cons_self 3 hplace⟩

end Segment

end LogRules.Pattern

import LogRules.Pattern.Segment
import LogRules.Proofs.Pattern.Lexemes

/-! # Source text and its pieces

A `Span` is a segment of a split source without its place: plain text, or the branches of a group. Proper
spans, of which no two texts are side by side, are what a source is split into (`split_sound`), and they
are found again in the text that they are written in (`exists_split`). -/

namespace LogRules.Pattern

/-- Plain text, or the branches of a group. -/
inductive Span where
  | text (cs : List Char)
  | group (branches : List (List Char))
  deriving DecidableEq, Repr

namespace Span

/-- Branches with bars in front. -/
def barred (branches : List (List Char)) : List Char := branches.flatMap fun cs => '|' :: cs

/-- The source text of a span. The first branch of a group follows the brace, the others a bar. -/
def written : Span → List Char
  | text cs => doubleBraces cs
  | group [] => ['{', '}']
  | group (first :: others) => '{' :: (first ++ barred others ++ ['}'])

/-- The text of a branch: not empty, and without what ends a branch. -/
def IsBranch (cs : List Char) : Prop := cs ≠ [] ∧ '{' ∉ cs ∧ '|' ∉ cs ∧ '}' ∉ cs

instance : DecidablePred IsBranch := fun cs =>
  inferInstanceAs (Decidable (cs ≠ [] ∧ '{' ∉ cs ∧ '|' ∉ cs ∧ '}' ∉ cs))

/-- The span comes from a source: no text, no group and no branch is empty. -/
def Proper : Span → Prop
  | text cs => cs ≠ []
  | group branches => branches ≠ [] ∧ ∀ cs ∈ branches, IsBranch cs

instance : DecidablePred Proper := fun span =>
  match span with
  | text cs => inferInstanceAs (Decidable (cs ≠ []))
  | group branches => inferInstanceAs (Decidable (branches ≠ [] ∧ ∀ cs ∈ branches, IsBranch cs))

/-- The span is plain text. -/
def isText : Span → Bool
  | text _ => true
  | group _ => false

end Span

/-- Proper spans, no two texts side by side. -/
structure Proper (spans : List Span) : Prop where
  proper : ∀ span ∈ spans, span.Proper
  apart : spans.IsChain fun a b => ¬ (a.isText = true ∧ b.isText = true)

/-- The source text of spans. -/
def writtenSpans (spans : List Span) : List Char := spans.flatMap Span.written

/-- A segment without its place. -/
def Segment.span : Segment → Span
  | .text chunk => .text chunk.text.toList
  | .alternatives branches => .group (branches.map fun chunk => chunk.text.toList)

/-- A run of plain text in front of spans. -/
def spansBehind (run : List Char) (spans : List Span) : List Span :=
  if run = [] then spans else .text run :: spans

theorem span_behindRun (offset : Nat) (run : Run) (segments : List Segment) :
    (Segment.behindRun offset run segments).map Segment.span =
      spansBehind (run.map Prod.fst) (segments.map Segment.span) := by
  cases run with
  | nil => rfl
  | cons c run => simp [Segment.behindRun, spansBehind, Segment.span, Chunk.ofRun]

theorem writtenSpans_spansBehind (run : List Char) (spans : List Span) :
    writtenSpans (spansBehind run spans) = doubleBraces run ++ writtenSpans spans := by
  unfold spansBehind
  split
  · next h =>
      rw [h]
      rfl
  · rfl

namespace Proper

variable {span : Span} {spans : List Span}

theorem nil : Proper [] := ⟨(fun _ hmem => nomatch hmem), .nil⟩

theorem head (h : Proper (span :: spans)) : span.Proper := h.proper span List.mem_cons_self

theorem tail (h : Proper (span :: spans)) : Proper spans :=
  ⟨fun s hs => h.proper s (List.mem_cons_of_mem _ hs), h.apart.tail⟩

theorem cons_group {branches : List (List Char)} (h : Proper spans)
    (hgroup : (Span.group branches).Proper) : Proper (.group branches :: spans) := by
  refine ⟨List.forall_mem_cons.mpr ⟨hgroup, h.proper⟩, List.isChain_cons.mpr ⟨?_, h.apart⟩⟩
  exact fun next _ hboth => Bool.false_ne_true hboth.1

/-- Plain text may stand in front of a group and at the end. -/
theorem behind (h : Proper spans) (hhead : ∀ s ∈ spans.head?, ¬ s.isText = true)
    (run : List Char) : Proper (spansBehind run spans) := by
  unfold spansBehind
  split
  · exact h
  · next hrun =>
      refine ⟨List.forall_mem_cons.mpr ⟨hrun, h.proper⟩, List.isChain_cons.mpr ⟨?_, h.apart⟩⟩
      exact fun next hnext hboth => hhead next hnext hboth.2

end Proper

namespace Segment

/-! ### What is split is the source -/

/-- What splitting says about the text it was given. -/
def SplitsText (cs : List Char) (run : Run) (segments : List Segment) : Prop :=
  cs = doubleBraces (run.map Prod.fst) ++ writtenSpans (segments.map span) ∧
    Proper (segments.map span) ∧ ∀ s ∈ (segments.map span).head?, ¬ s.isText = true

/-- What splitting a group says about the text behind its opening brace. -/
def SplitsGroup (isFresh : Bool) (cs : List Char) (group : GroupRest) : Prop :=
  cs = group.run.map Prod.fst ++ Span.barred (group.branches.map fun c => c.text.toList) ++
      '}' :: writtenSpans (group.segments.map span) ∧
    (isFresh = true → group.run ≠ []) ∧
    ('{' ∉ group.run.map Prod.fst ∧ '|' ∉ group.run.map Prod.fst ∧ '}' ∉ group.run.map Prod.fst) ∧
    (∀ c ∈ group.branches, Span.IsBranch c.text.toList) ∧ Proper (group.segments.map span)

theorem SplitsText.nil : SplitsText [] [] [] := ⟨rfl, .nil, fun _ hmem => nomatch hmem⟩

/-- A character of plain text is written once, a brace twice. -/
theorem SplitsText.cons {cs : List Char} {run : Run} {segments : List Segment}
    (h : SplitsText cs run segments) (c : Char) (isDoubled : Bool) :
    SplitsText (doubleBraces [c] ++ cs) ((c, isDoubled) :: run) segments := by
  obtain ⟨rfl, hproper, hhead⟩ := h
  refine ⟨?_, hproper, hhead⟩
  rw [← List.append_assoc, ← doubleBraces_append]
  rfl

theorem SplitsText.group {cs : List Char} {group : GroupRest} (h : SplitsGroup true cs group)
    (offset : Nat) : SplitsText ('{' :: cs) []
      (.alternatives (.ofRun offset group.run :: group.branches) :: group.segments) := by
  obtain ⟨rfl, hfresh, hchars, hbranches, hproper⟩ := h
  have hspan : span (.alternatives (.ofRun offset group.run :: group.branches)) =
      .group (group.run.map Prod.fst :: group.branches.map fun c => c.text.toList) := by
    simp [span, Chunk.ofRun]
  have hgroup : (Span.group
      (group.run.map Prod.fst :: group.branches.map fun c => c.text.toList)).Proper := by
    refine ⟨List.cons_ne_nil _ _, List.forall_mem_cons.mpr ⟨⟨?_, hchars⟩, ?_⟩⟩
    · exact fun hnil => hfresh rfl (List.map_eq_nil_iff.mp hnil)
    · intro text htext
      obtain ⟨c, hc, rfl⟩ := List.mem_map.mp htext
      exact hbranches c hc
  refine ⟨?_, ?_, ?_⟩
  · rw [List.map_cons, hspan]
    simp [doubleBraces, writtenSpans, Span.written]
  · rw [List.map_cons, hspan]
    exact hproper.cons_group hgroup
  · rw [List.map_cons, hspan]
    rintro s ⟨⟩
    exact Bool.false_ne_true

/-- A bar ends a branch, and what stands behind it is the next one. -/
theorem SplitsGroup.bar {cs : List Char} {group : GroupRest} (h : SplitsGroup true cs group)
    (offset : Nat) : SplitsGroup false ('|' :: cs)
      ⟨[], .ofRun offset group.run :: group.branches, group.segments⟩ := by
  obtain ⟨rfl, hfresh, hchars, hbranches, hproper⟩ := h
  refine ⟨?_, (fun h => nomatch h), by simp, List.forall_mem_cons.mpr ⟨⟨?_, ?_⟩, hbranches⟩, hproper⟩
  · simp [Chunk.ofRun, Span.barred]
  · simpa [Chunk.ofRun] using hfresh rfl
  · simpa [Chunk.ofRun] using hchars

/-- A closing brace ends the group. -/
theorem SplitsGroup.close {cs : List Char} {run : Run} {segments : List Segment}
    (h : SplitsText cs run segments) (offset : Nat) :
    SplitsGroup false ('}' :: cs) ⟨[], [], behindRun offset run segments⟩ := by
  obtain ⟨rfl, hproper, hhead⟩ := h
  refine ⟨?_, (fun h => nomatch h), by simp, (fun _ hmem => nomatch hmem), ?_⟩
  · rw [span_behindRun, writtenSpans_spansBehind]
    rfl
  · rw [span_behindRun]
    exact hproper.behind hhead _

theorem SplitsGroup.cons {cs : List Char} {group : GroupRest} (h : SplitsGroup false cs group)
    {c : Char} (hopen : c ≠ '{') (hbar : c ≠ '|') (hclose : c ≠ '}') (isFresh : Bool) :
    SplitsGroup isFresh (c :: cs) { group with run := (c, false) :: group.run } := by
  obtain ⟨rfl, -, ⟨hopens, hbars, hcloses⟩, hbranches, hproper⟩ := h
  refine ⟨by simp, (fun _ => List.cons_ne_nil _ _), ⟨?_, ?_, ?_⟩, hbranches, hproper⟩
  · simpa [hopen.symm] using hopens
  · simpa [hbar.symm] using hbars
  · simpa [hclose.symm] using hcloses

/-- The cases follow the two functions: plain text, then a group. A group that is refused splits
nothing. -/
theorem splits_sound :
    (∀ position cs result, splitText position cs = .ok result →
      SplitsText cs result.1 result.2) ∧
    ∀ start isFresh position cs group, splitGroup start isFresh position cs = .ok group →
      SplitsGroup isFresh cs group := by
  have h := splitText.mutual_induct
    (fun position cs => ∀ result, splitText position cs = .ok result →
      SplitsText cs result.1 result.2)
    (fun start isFresh position cs => ∀ group, splitGroup start isFresh position cs = .ok group →
      SplitsGroup isFresh cs group)
  refine h ?_ ?_ ?_ ?_ ?_ ?_ ?_ ?_ ?_ ?_ ?_
  · intro position result hresult
    rw [splitText] at hresult
    cases hresult
    exact .nil
  · intro position cs ih result hresult
    rw [splitText] at hresult
    obtain ⟨⟨run, segments⟩, hrest, heq⟩ := bind_eq_ok.mp hresult
    cases heq
    exact (ih _ hrest).cons '{' true
  · intro position cs hbrace ih result hresult
    rw [splitText] at hresult
    · obtain ⟨group, hgroup, heq⟩ := bind_eq_ok.mp hresult
      cases heq
      exact .group (ih _ hgroup) _
    · exact hbrace
  · intro position c cs _ hc ih result hresult
    rw [splitText] at hresult
    · obtain ⟨⟨run, segments⟩, hrest, heq⟩ := bind_eq_ok.mp hresult
      cases heq
      have hdouble : doubleBraces [c] = [c] := doubleBraces_of_not_mem (by simpa using Ne.symm hc)
      have hcons := (ih _ hrest).cons c false
      rw [hdouble] at hcons
      exact hcons
    · exact fun _ heq => absurd heq hc
    · exact hc
  · intro start isFresh position group hgroup
    rw [splitGroup] at hgroup
    cases hgroup
  · intro start isFresh position cs group hgroup
    rw [splitGroup] at hgroup
    cases hgroup
  · intro start position cs _ group hgroup
    rw [splitGroup] at hgroup
    cases hgroup
  · intro start isFresh position cs hfresh ih group hgroup
    rw [splitGroup, if_neg hfresh] at hgroup
    obtain ⟨inner, hinner, heq⟩ := bind_eq_ok.mp hgroup
    cases heq
    rw [Bool.not_eq_true] at hfresh
    rw [hfresh]
    exact .bar (ih _ hinner) _
  · intro start position cs _ group hgroup
    rw [splitGroup] at hgroup
    cases hgroup
  · intro start isFresh position cs hfresh ih group hgroup
    rw [splitGroup, if_neg hfresh] at hgroup
    obtain ⟨⟨run, segments⟩, hrest, heq⟩ := bind_eq_ok.mp hgroup
    cases heq
    rw [Bool.not_eq_true] at hfresh
    rw [hfresh]
    exact .close (ih _ hrest) _
  · intro start isFresh position c cs hopen hbar hclose ih group hgroup
    rw [splitGroup] at hgroup
    · obtain ⟨inner, hinner, heq⟩ := bind_eq_ok.mp hgroup
      cases heq
      exact .cons (ih _ hinner) hopen hbar hclose isFresh
    · exact hopen
    · exact hbar
    · exact hclose

/-- A source that is not empty is split into the spans that it is written in. -/
theorem split_sound {source : String} {segments : List Segment} (hne : source ≠ "")
    (h : split source = .ok segments) :
    source.toList = writtenSpans (segments.map span) ∧ Proper (segments.map span) := by
  have hempty : ¬ source.isEmpty = true := by simpa using hne
  unfold split at h
  rw [if_neg hempty] at h
  obtain ⟨⟨run, rest⟩, hrest, heq⟩ := bind_eq_ok.mp h
  cases heq
  obtain ⟨hsource, hproper, hhead⟩ := splits_sound.1 _ _ _ hrest
  rw [span_behindRun, writtenSpans_spansBehind]
  exact ⟨hsource, hproper.behind hhead _⟩

/-! ### What is written is split -/

/-- A run of plain text is read as such, whatever follows. -/
theorem splitText_doubleBraces (cs rest : List Char) (position : Nat) :
    ∃ (run : Run) (position' : Nat), run.map Prod.fst = cs ∧
      splitText position (doubleBraces cs ++ rest) =
        (fun found => (run ++ found.1, found.2)) <$> splitText position' rest := by
  induction cs generalizing position with
  | nil =>
      refine ⟨[], position, rfl, ?_⟩
      show _ = id <$> splitText position rest
      rw [id_map]
      rfl
  | cons c cs ih =>
      by_cases hc : c = '{'
      · subst hc
        obtain ⟨run, position', hrun, hsplit⟩ := ih (position + 2)
        refine ⟨('{', true) :: run, position', by simp [hrun], ?_⟩
        have hbraces : doubleBraces ('{' :: cs) ++ rest = '{' :: '{' :: (doubleBraces cs ++ rest) := rfl
        rw [hbraces, splitText, hsplit]
        cases splitText position' rest <;> rfl
      · obtain ⟨run, position', hrun, hsplit⟩ := ih (position + c.utf8Size)
        refine ⟨(c, false) :: run, position', by simp [hrun], ?_⟩
        have hbraces : doubleBraces (c :: cs) ++ rest = c :: (doubleBraces cs ++ rest) := by
          simp [doubleBraces, hc]
        rw [hbraces, splitText, hsplit]
        · cases splitText position' rest <;> rfl
        · exact fun _ heq => absurd heq hc
        · exact hc

/-- The text of a branch is read as such, whatever follows. -/
theorem splitGroup_append {cs : List Char} (hopen : '{' ∉ cs) (hbar : '|' ∉ cs) (hclose : '}' ∉ cs)
    (rest : List Char) (start : Nat) (isFresh : Bool) (position : Nat) :
    ∃ (run : Run) (position' : Nat), run.map Prod.fst = cs ∧
      splitGroup start isFresh position (cs ++ rest) =
        (fun group : GroupRest => { group with run := run ++ group.run }) <$>
          splitGroup start (isFresh && cs.isEmpty) position' rest := by
  induction cs generalizing isFresh position with
  | nil =>
      refine ⟨[], position, rfl, ?_⟩
      show _ = id <$> splitGroup start (isFresh && true) position rest
      rw [id_map, Bool.and_true]
      rfl
  | cons c cs ih =>
      rw [List.mem_cons, not_or] at hopen hbar hclose
      obtain ⟨run, position', hrun, hsplit⟩ :=
        ih hopen.2 hbar.2 hclose.2 false (position + c.utf8Size)
      refine ⟨(c, false) :: run, position', by simp [hrun], ?_⟩
      rw [List.cons_append, splitGroup, hsplit]
      · simp only [Bool.false_and, List.isEmpty_cons, Bool.and_false]
        cases splitGroup start false position' rest <;> rfl
      · exact Ne.symm hopen.1
      · exact Ne.symm hbar.1
      · exact Ne.symm hclose.1

/-- Branches behind the first one, and the brace that closes the group. -/
theorem exists_splitGroup_barred {branches : List (List Char)} {after : List Char}
    {spans : List Span} (hbranches : ∀ cs ∈ branches, Span.IsBranch cs)
    (hafter : ∀ position, ∃ run segments, splitText position after = .ok (run, segments) ∧
      spansBehind (run.map Prod.fst) (segments.map span) = spans) (start position : Nat) :
    ∃ group, splitGroup start false position (Span.barred branches ++ '}' :: after) = .ok group ∧
      group.run = [] ∧ (group.branches.map fun c => c.text.toList) = branches ∧
      group.segments.map span = spans := by
  induction branches generalizing position with
  | nil =>
      obtain ⟨run, segments, hsplit, hspans⟩ := hafter (position + 1)
      refine ⟨⟨[], [], behindRun (position + 1) run segments⟩, ?_, rfl, rfl, ?_⟩
      · show splitGroup start false position ('}' :: after) = _
        rw [splitGroup, hsplit]
        rfl
      · rw [span_behindRun]
        exact hspans
  | cons cs branches ih =>
      obtain ⟨hne, hopen, hbar, hclose⟩ := hbranches cs List.mem_cons_self
      have ih := ih fun ds hds => hbranches ds (List.mem_cons_of_mem _ hds)
      obtain ⟨run, position', hrun, hsplit⟩ := splitGroup_append hopen hbar hclose
        (Span.barred branches ++ '}' :: after) start true (position + 1)
      have hfresh : (true && cs.isEmpty) = false := by simpa using hne
      obtain ⟨group, hgroup, hnil, htexts, hspans⟩ := ih position'
      refine ⟨⟨[], .ofRun (position + 1) run :: group.branches, group.segments⟩, ?_, rfl, ?_, hspans⟩
      · have hbarred : Span.barred (cs :: branches) ++ '}' :: after =
            '|' :: (cs ++ (Span.barred branches ++ '}' :: after)) := by
          simp [Span.barred]
        rw [hbarred, splitGroup, hsplit, hfresh, hgroup]
        simp [bind, Except.bind, Functor.map, Except.map, pure, Except.pure, hnil]
      · rw [List.map_cons, htexts]
        simp [Chunk.ofRun, hrun]

/-- Proper spans are found in the text that they are written in, from any place on. -/
theorem exists_splitText {spans : List Span} (h : Proper spans) (position : Nat) :
    ∃ run segments, splitText position (writtenSpans spans) = .ok (run, segments) ∧
      spansBehind (run.map Prod.fst) (segments.map span) = spans := by
  induction spans generalizing position with
  | nil => exact ⟨[], [], by rw [writtenSpans, List.flatMap_nil, splitText], rfl⟩
  | cons first spans ih =>
      have ih := ih h.tail
      have hwritten : writtenSpans (first :: spans) = first.written ++ writtenSpans spans := rfl
      rw [hwritten]
      cases first with
      | text cs =>
          obtain ⟨run, position', hrun, hsplit⟩ :=
            splitText_doubleBraces cs (writtenSpans spans) position
          obtain ⟨run', segments, hrest, hspans⟩ := ih position'
          -- The text behind is no plain text, so no run is found in front of it.
          have hnil : run'.map Prod.fst = [] := by
            by_contra hne
            rw [spansBehind, if_neg hne] at hspans
            have hapart := (List.isChain_cons.mp h.apart).1
            rw [← hspans] at hapart
            exact hapart _ rfl ⟨rfl, rfl⟩
          rw [hnil, spansBehind, if_pos rfl] at hspans
          refine ⟨run ++ run', segments, ?_, ?_⟩
          · show splitText position (doubleBraces cs ++ writtenSpans spans) = _
            rw [hsplit, hrest]
            rfl
          · rw [List.map_append, hnil, List.append_nil, hrun, hspans, spansBehind, if_neg h.head]
      | group branches =>
          obtain ⟨hne, hbranches⟩ := h.head
          obtain ⟨cs, others, rfl⟩ := List.exists_cons_of_ne_nil hne
          obtain ⟨hcs, hopen, hbar, hclose⟩ := hbranches cs List.mem_cons_self
          have hothers : ∀ ds ∈ others, Span.IsBranch ds :=
            fun ds hds => hbranches ds (List.mem_cons_of_mem _ hds)
          have htext : (Span.group (cs :: others)).written ++ writtenSpans spans =
              '{' :: (cs ++ (Span.barred others ++ '}' :: writtenSpans spans)) := by
            simp [Span.written]
          obtain ⟨run, position', hrun, hsplit⟩ := splitGroup_append hopen hbar hclose
            (Span.barred others ++ '}' :: writtenSpans spans) position true (position + 1)
          have hfresh : (true && cs.isEmpty) = false := by simpa using hcs
          obtain ⟨group, hgroup, hnil, htexts, hspans⟩ :=
            exists_splitGroup_barred hothers ih position position'
          refine ⟨[], .alternatives (.ofRun (position + 1) run :: group.branches) ::
            group.segments, ?_, ?_⟩
          · rw [htext, splitText, hsplit, hfresh, hgroup]
            · simp [bind, Except.bind, Functor.map, Except.map, pure, Except.pure, hnil]
            · intro rest heq
              obtain ⟨c, tail, rfl⟩ := List.exists_cons_of_ne_nil hcs
              obtain ⟨rfl, -⟩ := List.cons.inj heq
              exact hopen List.mem_cons_self
          · rw [List.map_nil, spansBehind, if_pos rfl, List.map_cons, hspans]
            simp [span, Chunk.ofRun, hrun, htexts]

/-- Proper spans are what their source text is split into. -/
theorem exists_split {spans : List Span} (h : Proper spans) (hne : spans ≠ []) {source : String}
    (hsource : source.toList = writtenSpans spans) :
    ∃ segments, split source = .ok segments ∧ segments.map span = spans := by
  obtain ⟨run, segments, hsplit, hspans⟩ := exists_splitText h 0
  refine ⟨behindRun 0 run segments, ?_, by rw [span_behindRun]; exact hspans⟩
  have hempty : ¬ source.isEmpty = true := by
    intro hempty
    have hnil : writtenSpans spans = [] := by
      rw [← hsource, String.toList_eq_nil_iff]
      exact String.isEmpty_iff.mp hempty
    rw [hnil, splitText] at hsplit
    cases hsplit
    exact hne hspans.symm
  rw [split, if_neg hempty, hsource, hsplit]
  rfl

end Segment

end LogRules.Pattern

import LogRules.Proofs.Pattern.RoundTrip
import LogRules.Proofs.Text.Places

/-! # Errors in pattern text

An error in text without groups points into it (`pointsInto_of_readPlain`), and so does one of a source that
cannot be split (`pointsInto_of_split`). The pieces of a split source know where they stand in it, doubled
braces included, so that the error of a piece is relayed to the source (`readFails_of_read`). -/

namespace LogRules.Pattern

open Text

/-! ### Text without groups -/

theorem tagFault_suffix (cs : List Char) : tagFault cs <:+ cs := by
  unfold tagFault
  dsimp only
  split
  · exact List.suffix_refl cs
  · refine (List.dropWhile_suffix _).trans ?_
    split
    · exact List.suffix_cons _ _
    · exact List.suffix_refl cs

/-- The fault of a text stands at its end. -/
theorem suffix_of_lexemes {cs rest : List Char} (h : lexemes cs = .error rest) : rest <:+ cs := by
  fun_induction lexemes cs with
  | case1 => cases h
  | case2 cs ih => exact ((ih (map_eq_error.mp h)).trans (List.suffix_cons _ _)).trans (List.suffix_cons _ _)
  | case3 cs _ v after htag _ ih =>
      obtain ⟨body, -, rfl⟩ := tag?_eq_some_iff.mp htag
      exact (ih (map_eq_error.mp h)).trans ⟨'<' :: (body ++ ['>']), by simp⟩
  | case4 cs =>
      cases h
      exact (tagFault_suffix cs).trans (List.suffix_cons _ _)
  | case5 c cs _ _ ih => exact (ih (map_eq_error.mp h)).trans (List.suffix_cons _ _)

/-- An error in text without groups points to a character of it or to its end. -/
theorem pointsInto_of_readPlain {cs : List Char} {e : LexError} (h : readPlain cs = .error e) :
    e.PointsInto cs := by
  unfold readPlain at h
  split at h
  · cases h
  · next rest hrest =>
      cases h
      obtain ⟨before, rfl⟩ := suffix_of_lexemes hrest
      refine LexError.Blames.pointsInto ⟨before, rfl, ?_⟩
      rw [byteLength_append, Nat.add_sub_cancel]

/-! ### Places of pieces -/

/-- The flags of a run mark its braces. -/
def MarksBraces (run : Run) : Prop := ∀ mark ∈ run, mark.2 = (mark.1 == '{')

/-- The chunk stands in a source from byte `start` on, behind `front`. Its braces are doubled there. -/
def Chunk.Stands (start : Nat) (cs : List Char) (chunk : Chunk) : Prop :=
  ∃ front run after, cs = front ++ doubleBraces (run.map Prod.fst) ++ after ∧ MarksBraces run ∧
    chunk = .ofRun (start + byteLength front) run

/-- The pieces of a segment. -/
def Segment.chunks : Segment → List Chunk
  | .text chunk => [chunk]
  | .alternatives branches => branches

/-- What splitting finds in a text: the run at its front and the chunks behind it. -/
structure Finds (start : Nat) (cs : List Char) (run : Run) (chunks : List Chunk) : Prop where
  marks : MarksBraces run
  front : doubleBraces (run.map Prod.fst) <+: cs
  stands : ∀ chunk ∈ chunks, chunk.Stands start cs

theorem Chunk.Stands.behind {start : Nat} (front : List Char) {cs : List Char} {chunk : Chunk}
    (h : chunk.Stands (start + byteLength front) cs) : chunk.Stands start (front ++ cs) := by
  obtain ⟨before, run, after, rfl, hmarks, rfl⟩ := h
  refine ⟨front ++ before, run, after, by simp, hmarks, ?_⟩
  rw [byteLength_append, Nat.add_assoc]

theorem Finds.nil (start : Nat) (cs : List Char) : Finds start cs [] [] :=
  ⟨(fun _ h => nomatch h), List.nil_prefix, fun _ h => nomatch h⟩

/-- A character of the run, with its brace doubled. -/
theorem Finds.cons {start : Nat} {cs : List Char} {run : Run} {chunks : List Chunk} {c : Char}
    (h : Finds (start + byteLength (doubleBraces [c])) cs run chunks) :
    Finds start (doubleBraces [c] ++ cs) ((c, c == '{') :: run) chunks := by
  obtain ⟨rest, hrest⟩ := h.front
  refine ⟨List.forall_mem_cons.mpr ⟨rfl, h.marks⟩, ⟨rest, ?_⟩,
    fun chunk hchunk => (h.stands chunk hchunk).behind _⟩
  rw [← hrest, List.map_cons, ← List.singleton_append, doubleBraces_append, List.append_assoc]

/-- A character that is no brace. -/
theorem Finds.cons_single {start : Nat} {cs : List Char} {run : Run} {chunks : List Chunk} {c : Char}
    (hc : c ≠ '{') (h : Finds (start + c.utf8Size) cs run chunks) :
    Finds start (c :: cs) ((c, false) :: run) chunks := by
  have hdouble : doubleBraces [c] = [c] := doubleBraces_of_not_mem (by simpa using hc.symm)
  have hcons : Finds start (doubleBraces [c] ++ cs) ((c, c == '{') :: run) chunks := .cons (by rwa [hdouble])
  rwa [hdouble, beq_eq_false_iff_ne.mpr hc] at hcons

theorem Finds.tail {start : Nat} {cs : List Char} {run : Run} {chunk : Chunk} {chunks : List Chunk}
    (h : Finds start cs run (chunk :: chunks)) : Finds start cs run chunks :=
  ⟨h.marks, h.front, fun c hc => h.stands c (List.mem_cons_of_mem _ hc)⟩

/-- The run behind `front` is a chunk. -/
theorem Finds.chunk {start : Nat} (front : List Char) {cs : List Char} {run : Run} {chunks : List Chunk}
    (h : Finds (start + byteLength front) cs run chunks) :
    Finds start (front ++ cs) [] (.ofRun (start + byteLength front) run :: chunks) := by
  obtain ⟨rest, hrest⟩ := h.front
  refine ⟨(fun _ h => nomatch h), List.nil_prefix, List.forall_mem_cons.mpr ⟨?_, ?_⟩⟩
  · exact ⟨front, run, rest, by rw [← hrest, List.append_assoc], h.marks, rfl⟩
  · exact fun chunk hchunk => (h.stands chunk hchunk).behind front

/-- The run behind `front`, unless it is empty. -/
theorem Finds.behindRun {start : Nat} (front : List Char) {cs : List Char} {run : Run}
    {segments : List Segment} (h : Finds (start + byteLength front) cs run (segments.flatMap Segment.chunks)) :
    Finds start (front ++ cs) []
      ((Segment.behindRun (start + byteLength front) run segments).flatMap Segment.chunks) := by
  cases run with
  | nil => exact (h.chunk front).tail
  | cons c run => exact h.chunk front

namespace Segment

/-- The pieces of split text stand in it. The cases follow the two functions: plain text, then a group. -/
theorem splits_find :
    (∀ position cs result, splitText position cs = .ok result →
      Finds position cs result.1 (result.2.flatMap chunks)) ∧
    ∀ start isFresh position cs group, splitGroup start isFresh position cs = .ok group →
      Finds position cs group.run (group.branches ++ group.segments.flatMap chunks) := by
  have h := splitText.mutual_induct
    (fun position cs => ∀ result, splitText position cs = .ok result →
      Finds position cs result.1 (result.2.flatMap chunks))
    (fun start isFresh position cs => ∀ group, splitGroup start isFresh position cs = .ok group →
      Finds position cs group.run (group.branches ++ group.segments.flatMap chunks))
  refine h ?textEnd ?doubled ?opened ?textChar
    ?unclosed ?nested ?emptyBranch ?bar ?emptyLast ?closed ?branchChar
  case textEnd =>
    intro position result hresult
    rw [splitText] at hresult
    cases hresult
    exact .nil _ _
  case doubled =>
    intro position cs ih result hresult
    rw [splitText] at hresult
    obtain ⟨⟨run, segments⟩, hrest, heq⟩ := bind_eq_ok.mp hresult
    cases heq
    exact Finds.cons (c := '{') (ih _ hrest)
  case opened =>
    intro position cs hbrace ih result hresult
    rw [splitText] at hresult
    · obtain ⟨group, hgroup, heq⟩ := bind_eq_ok.mp hresult
      cases heq
      exact Finds.chunk ['{'] (ih _ hgroup)
    · exact hbrace
  case textChar =>
    intro position c cs _ hc ih result hresult
    rw [splitText] at hresult
    · obtain ⟨⟨run, segments⟩, hrest, heq⟩ := bind_eq_ok.mp hresult
      cases heq
      exact .cons_single hc (ih _ hrest)
    · exact fun _ heq => absurd heq hc
    · exact hc
  case unclosed =>
    intro start isFresh position group hgroup
    rw [splitGroup] at hgroup
    cases hgroup
  case nested =>
    intro start isFresh position cs group hgroup
    rw [splitGroup] at hgroup
    cases hgroup
  case emptyBranch =>
    intro start position cs _ group hgroup
    rw [splitGroup] at hgroup
    cases hgroup
  case bar =>
    intro start isFresh position cs hfresh ih group hgroup
    rw [splitGroup, if_neg hfresh] at hgroup
    obtain ⟨inner, hinner, heq⟩ := bind_eq_ok.mp hgroup
    cases heq
    exact Finds.chunk ['|'] (ih _ hinner)
  case emptyLast =>
    intro start position cs _ group hgroup
    rw [splitGroup] at hgroup
    cases hgroup
  case closed =>
    intro start isFresh position cs hfresh ih group hgroup
    rw [splitGroup, if_neg hfresh] at hgroup
    obtain ⟨⟨run, segments⟩, hrest, heq⟩ := bind_eq_ok.mp hgroup
    cases heq
    exact Finds.behindRun ['}'] (ih _ hrest)
  case branchChar =>
    intro start isFresh position c cs hopen hbar hclose ih group hgroup
    rw [splitGroup] at hgroup
    · obtain ⟨inner, hinner, heq⟩ := bind_eq_ok.mp hgroup
      cases heq
      exact .cons_single hopen (ih _ hinner)
    · exact hopen
    · exact hbar
    · exact hclose

/-- Text that cannot be split is refused at a place of it, or for the group that opened in front of it. -/
theorem splits_fail :
    (∀ position cs e, splitText position cs = .error e → IsPlace position cs e.offset) ∧
    ∀ start isFresh position cs e, splitGroup start isFresh position cs = .error e →
      e.offset = start ∨ IsPlace position cs e.offset := by
  have h := splitText.mutual_induct
    (fun position cs => ∀ e, splitText position cs = .error e → IsPlace position cs e.offset)
    (fun start isFresh position cs => ∀ e, splitGroup start isFresh position cs = .error e →
      e.offset = start ∨ IsPlace position cs e.offset)
  refine h ?textEnd ?doubled ?opened ?textChar
    ?unclosed ?nested ?emptyBranch ?bar ?emptyLast ?closed ?branchChar
  case textEnd =>
    intro position e he
    rw [splitText] at he
    cases he
  case doubled =>
    intro position cs ih e he
    rw [splitText] at he
    obtain he | ⟨_, -, he⟩ := bind_eq_error.mp he
    · exact IsPlace.behind ['{', '{'] (ih _ he)
    · cases he
  case opened =>
    intro position cs hbrace ih e he
    rw [splitText] at he
    · obtain he | ⟨_, -, he⟩ := bind_eq_error.mp he
      · obtain hstart | hplace := ih _ he
        · rw [hstart]
          exact isPlace_start _ _
        · exact IsPlace.behind ['{'] hplace
      · cases he
    · exact hbrace
  case textChar =>
    intro position c cs _ hc ih e he
    rw [splitText] at he
    · obtain he | ⟨_, -, he⟩ := bind_eq_error.mp he
      · exact IsPlace.behind [c] (ih _ he)
      · cases he
    · exact fun _ heq => absurd heq hc
    · exact hc
  case unclosed =>
    intro start isFresh position e he
    rw [splitGroup] at he
    cases he
    exact .inl rfl
  case nested =>
    intro start isFresh position cs e he
    rw [splitGroup] at he
    cases he
    exact .inr (isPlace_start _ _)
  case emptyBranch =>
    intro start position cs _ e he
    rw [splitGroup] at he
    cases he
    exact .inr (isPlace_start _ _)
  case bar =>
    intro start isFresh position cs hfresh ih e he
    rw [splitGroup, if_neg hfresh] at he
    obtain he | ⟨_, -, he⟩ := bind_eq_error.mp he
    · exact (ih _ he).imp_right (IsPlace.behind ['|'])
    · cases he
  case emptyLast =>
    intro start position cs _ e he
    rw [splitGroup] at he
    cases he
    exact .inr (isPlace_start _ _)
  case closed =>
    intro start isFresh position cs hfresh ih e he
    rw [splitGroup, if_neg hfresh] at he
    obtain he | ⟨_, -, he⟩ := bind_eq_error.mp he
    · exact .inr (IsPlace.behind ['}'] (ih _ he))
    · cases he
  case branchChar =>
    intro start isFresh position c cs hopen hbar hclose ih e he
    rw [splitGroup] at he
    · obtain he | ⟨_, -, he⟩ := bind_eq_error.mp he
      · exact (ih _ he).imp_right (IsPlace.behind [c])
      · cases he
    · exact hopen
    · exact hbar
    · exact hclose

/-- The error of a source that cannot be split points to a character of it or to its end. -/
theorem pointsInto_of_split {source : String} {e : LexError} (h : split source = .error e) :
    e.PointsInto source.toList := by
  unfold split at h
  split at h
  · cases h
  · obtain he | ⟨_, -, he⟩ := bind_eq_error.mp h
    · exact LexError.pointsInto_iff.mpr (splits_fail.1 _ _ _ he)
    · cases he

/-- The pieces of a split source stand in it. -/
theorem stands_of_split {source : String} {segments : List Segment} (h : split source = .ok segments) :
    ∀ chunk ∈ segments.flatMap chunks, chunk.Stands 0 source.toList := by
  unfold split at h
  split at h
  · cases h
    rintro chunk hchunk
    obtain rfl : chunk = .ofRun 0 [] := by simpa [chunks] using hchunk
    exact ⟨[], [], source.toList, by simp [doubleBraces], (fun _ h => nomatch h), rfl⟩
  · obtain ⟨⟨run, rest⟩, hrest, heq⟩ := bind_eq_ok.mp h
    cases heq
    exact (Finds.behindRun [] (splits_find.1 _ _ _ hrest)).stands

end Segment

/-! ### Places in pieces -/

theorem byteLength_doubleBraces (cs : List Char) :
    byteLength (doubleBraces cs) = byteLength cs + cs.count '{' := by
  induction cs with
  | nil => rfl
  | cons c cs ih =>
      rw [← List.singleton_append, doubleBraces_append, byteLength_append, ih]
      by_cases hc : c = '{'
      · subst hc
        simp [doubleBraces]
        omega
      · simp [doubleBraces, hc]
        omega

theorem le_of_mem_escapePositions {run : Run} {position n : Nat}
    (h : n ∈ Chunk.escapePositions position run) : position ≤ n := by
  induction run generalizing position with
  | nil => cases h
  | cons mark run ih =>
      simp only [Chunk.escapePositions] at h
      split at h
      · obtain rfl | h := List.mem_cons.mp h
        · exact Nat.le_refl _
        · exact Nat.le_of_add_right_le (ih h)
      · exact Nat.le_of_add_right_le (ih h)

/-- In front of a place of a piece stand as many doubled braces as there are braces. -/
theorem countP_escapePositions {run : Run} {before rest : List Char} (hmarks : MarksBraces run)
    (hrun : run.map Prod.fst = before ++ rest) (position : Nat) :
    (Chunk.escapePositions position run).countP (· < position + byteLength before) =
      before.count '{' := by
  induction before generalizing run position with
  | nil =>
      refine List.countP_eq_zero.mpr fun n hn => ?_
      rw [byteLength_nil, Nat.add_zero, decide_eq_true_iff]
      exact Nat.not_lt.mpr (le_of_mem_escapePositions hn)
  | cons c before ih =>
      obtain ⟨⟨d, flag⟩, run, rfl, rfl, hrest⟩ := List.map_eq_cons_iff.mp hrun
      obtain ⟨hflag, hothers⟩ := List.forall_mem_cons.mp hmarks
      obtain rfl : flag = (d == '{') := hflag
      have hsize : 0 < d.utf8Size := d.utf8Size_pos
      have ih := ih hothers hrest (position + d.utf8Size)
      rw [Nat.add_assoc, ← byteLength_cons] at ih
      unfold Chunk.escapePositions
      by_cases hd : d = '{'
      · subst hd
        have hposition : position < position + byteLength ('{' :: before) := by
          rw [byteLength_cons]
          omega
        rw [beq_self_eq_true, if_pos rfl, List.countP_cons_of_pos (by exact decide_eq_true hposition), ih,
          List.count_cons_self]
      · rw [beq_eq_false_iff_ne.mpr hd, if_neg Bool.false_ne_true, ih, List.count_cons_of_ne hd]

/-- A place of a piece, seen from the source. -/
theorem sourceOffset_ofRun {run : Run} {before rest : List Char} (hmarks : MarksBraces run)
    (hrun : run.map Prod.fst = before ++ rest) (offset : Nat) :
    (Chunk.ofRun offset run).sourceOffset (byteLength before) =
      offset + byteLength (doubleBraces before) := by
  have hcount := countP_escapePositions hmarks hrun 0
  rw [Nat.zero_add] at hcount
  rw [Chunk.sourceOffset, Chunk.ofRun, hcount, byteLength_doubleBraces, Nat.add_assoc]

/-! ### Patterns with groups -/

/-- The errors of a pattern source: it cannot be split, or one of its pieces, of which the ones in front are
read, is refused. -/
inductive ReadFails (source : String) (e : LexError) : Prop
  | split (hsplit : Segment.split source = .error e)
  | piece {segments : List Segment} {chunk : Chunk} {before others : List Chunk}
      {front after : List Char} {inner : LexError} (hsplit : Segment.split source = .ok segments)
      (hchunks : segments.flatMap Segment.chunks = before ++ chunk :: others)
      (hbefore : ∀ c ∈ before, ∃ p, readPlain c.text.toList = .ok p)
      (hpiece : readPlain chunk.text.toList = .error inner)
      (hsource : source.toList = front ++ doubleBraces chunk.text.toList ++ after)
      (hoffset : chunk.offset = byteLength front)
      (hrelays : e.Relays inner doubleBraces front chunk.text.toList after)

/-- The error of a piece, seen from the source. -/
theorem exists_relays_locate {chunk : Chunk} {cs : List Char} {inner : LexError}
    (hstands : chunk.Stands 0 cs) (hinner : inner.PointsInto chunk.text.toList) :
    ∃ front after, cs = front ++ doubleBraces chunk.text.toList ++ after ∧
      chunk.offset = byteLength front ∧
      (chunk.locate inner).Relays inner doubleBraces front chunk.text.toList after := by
  obtain ⟨front, run, after, rfl, hmarks, rfl⟩ := hstands
  have htext (offset : Nat) : (Chunk.ofRun offset run).text.toList = run.map Prod.fst := by
    simp [Chunk.ofRun]
  rw [htext] at hinner ⊢
  obtain ⟨rest, before, hrun, hoffset⟩ := hinner.blames
  refine ⟨front, after, rfl, Nat.zero_add _, rfl, rest, ⟨before, hrun, hoffset⟩,
    front ++ doubleBraces before, ?_, ?_⟩
  · rw [hrun, doubleBraces_append]
    simp only [List.append_assoc]
  · rw [Chunk.locate, hoffset, sourceOffset_ofRun hmarks hrun, byteLength_append, Nat.zero_add]

/-- The pieces of a segment that is read. -/
theorem exists_of_readSegment_eq_ok {segment : Segment} {p : Pattern} (h : readSegment segment = .ok p) :
    ∀ chunk ∈ segment.chunks, ∃ p, readChunk chunk = .ok p := by
  cases segment with
  | text chunk => exact List.forall_mem_singleton.mpr ⟨p, h⟩
  | alternatives branches =>
      obtain ⟨patterns, hpatterns, -⟩ := bind_eq_ok.mp h
      exact fun chunk hchunk => exists_of_mapM_eq_ok hpatterns hchunk

/-- A segment is refused for its first piece that is. -/
theorem exists_of_readSegment_eq_error {segment : Segment} {e : LexError}
    (h : readSegment segment = .error e) :
    ∃ before chunk others, segment.chunks = before ++ chunk :: others ∧
      (∀ c ∈ before, ∃ p, readChunk c = .ok p) ∧ readChunk chunk = .error e := by
  cases segment with
  | text chunk => exact ⟨[], chunk, [], rfl, (fun _ h => nomatch h), h⟩
  | alternatives branches =>
      obtain h | ⟨_, -, h⟩ := bind_eq_error.mp h
      · exact exists_of_mapM_eq_error h
      · cases h

/-- A pattern source is refused for its groups, or as one of its pieces. -/
theorem readFails_of_read {source : String} {e : LexError} (h : read source = .error e) :
    ReadFails source e := by
  obtain h | ⟨segments, hsplit, h⟩ := bind_eq_error.mp h
  · exact .split h
  · obtain h | ⟨_, -, h⟩ := bind_eq_error.mp h
    · obtain ⟨front, segment, behind, rfl, hfront, h⟩ := exists_of_mapM_eq_error h
      obtain ⟨before, chunk, others, hchunks, hbefore, h⟩ := exists_of_readSegment_eq_error h
      have hall : (front ++ segment :: behind).flatMap Segment.chunks =
          (front.flatMap Segment.chunks ++ before) ++ chunk :: (others ++ behind.flatMap Segment.chunks) := by
        simp [hchunks]
      have hread : ∀ c ∈ front.flatMap Segment.chunks ++ before, ∃ p, readPlain c.text.toList = .ok p := by
        intro c hc
        obtain hc | hc := List.mem_append.mp hc
        · obtain ⟨s, hs, hc⟩ := List.mem_flatMap.mp hc
          obtain ⟨ps, hps⟩ := hfront s hs
          exact (exists_of_readSegment_eq_ok hps c hc).imp fun _ => readChunk_eq_ok.mp
        · exact (hbefore c hc).imp fun _ => readChunk_eq_ok.mp
      have hstands := Segment.stands_of_split hsplit chunk (by simp [hall])
      obtain ⟨inner, hpiece, rfl⟩ := mapError_eq_error.mp h
      obtain ⟨place, after, hsource, hoffset, hrelays⟩ :=
        exists_relays_locate hstands (pointsInto_of_readPlain hpiece)
      exact .piece hsplit hall hread hpiece hsource hoffset hrelays
    · cases h

theorem ReadFails.pointsInto {source : String} {e : LexError} (h : ReadFails source e) :
    e.PointsInto source.toList := by
  cases h with
  | split hsplit => exact Segment.pointsInto_of_split hsplit
  | piece hsplit hchunks hbefore hpiece hsource hoffset hrelays =>
      rw [hsource]
      exact hrelays.pointsInto

end LogRules.Pattern

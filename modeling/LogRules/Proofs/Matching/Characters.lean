import LogRules.Proofs.Matching.Decomposition
import LogRules.Proofs.Text.Utf8

/-! # Matches in texts

All scanning is done on bytes. In a message that is a text it never stops inside of a character, since a
constant is a text and does not begin with a continuation byte: captures and the rest of a match lie at
characters (`atCharacters_of_run`). -/

namespace LogRules.Matching

open Text

/-! ### Spaces in texts -/

theorem isText_spaces (n : Nat) : IsText (spaces n) := by
  refine ⟨List.replicate n ' ', ?_⟩
  induction n with
  | zero => rfl
  | succ n ih => exact congrArg (space :: ·) ih

theorem isText_of_spaces_append {a : Nat} {m : List UInt8} (h : IsText (spaces a ++ m)) : IsText m :=
  (isText_spaces a).of_append_left h

theorem isText_of_append_spaces {m : List UInt8} {b : Nat} (h : IsText (m ++ spaces b)) : IsText m := by
  refine (h.of_append fun d hd => ?_).1
  rw [List.eq_of_mem_replicate (List.mem_of_mem_head? hd)]
  rfl

theorem isText_drop_leadingSpaces {m : List UInt8} (h : IsText m) : IsText (m.drop (leadingSpaces m)) := by
  obtain ⟨n, rest, rfl, hrest⟩ := exists_leading m
  rw [leadingSpaces_run n hrest, List.drop_left' (List.length_replicate ..)]
  exact isText_of_spaces_append h

/-- No other character has the byte of a space. -/
theorem space_not_mem_encodeChar {c : Char} (h : c ≠ ' ') : space ∉ String.utf8EncodeChar c := by
  obtain ⟨a, tail, hbytes, hwrites⟩ := exists_writes c
  rw [hbytes, List.mem_cons]
  rintro (rfl | hmem)
  · have hread := hwrites.reads []
    simp [decodeFirst, space] at hread
    exact h hread.1.symm
  · have hcontinues := hwrites.others space hmem
    cases hcontinues

theorem squeeze_of_not_mem {m : List UInt8} (h : space ∉ m) : squeeze m = m := by
  fun_induction squeeze m with
  | case1 => rfl
  | case2 c => rfl
  | case3 c d rest hcd ih => exact absurd (hcd.1 ▸ List.mem_cons_self) h
  | case4 c d rest hcd ih => rw [ih fun hmem => h (List.mem_cons_of_mem _ hmem)]

theorem isText_squeeze {m : List UInt8} (h : IsText m) : IsText (squeeze m) := by
  obtain ⟨cs, rfl⟩ := h
  induction cs with
  | nil => exact isText_nil
  | cons c cs ih =>
      rw [encodeChars_cons]
      by_cases hc : c = ' '
      · subst hc
        show IsText (squeeze (space :: encodeChars cs))
        generalize encodeChars cs = rest at ih
        -- the space goes away in front of another one and stays in front of all else
        cases rest with
        | nil => exact isText_spaces 1
        | cons d rest =>
            rw [squeeze]
            split
            · exact ih
            · exact (isText_spaces 1).append ih
      · have hmem := space_not_mem_encodeChar hc
        have hlast : (String.utf8EncodeChar c).getLast? ≠ some space :=
          fun heq => hmem (List.mem_of_getLast? heq)
        rw [squeeze_append (.inl hlast), squeeze_of_not_mem hmem]
        exact IsText.append ⟨[c], (List.append_nil _).symm⟩ ih

/-- The normal form of a text is a text. -/
theorem isText_normalize {m : List UInt8} (h : IsText m) : IsText (normalize m) := by
  unfold normalize
  split
  · next hall =>
    have hspaces : m = spaces m.length :=
      List.eq_replicate_of_mem fun c hc => eq_of_beq (List.all_eq_true.mp hall c hc)
    rw [hspaces, List.take_replicate]
    exact isText_spaces _
  · obtain ⟨a, core, b, hcore, htidy⟩ := exists_core (squeeze m)
    have hsqueeze := isText_squeeze h
    rw [hcore] at hsqueeze
    rw [hcore, trimSpaces_padded a b htidy]
    rw [List.append_assoc] at hsqueeze
    exact isText_of_append_spaces (isText_of_spaces_append hsqueeze)

/-- The constants of a matcher are texts. -/
theorem isText_of_ofPattern {p : Pattern} {matcher : Matcher} (h : Matcher.ofPattern p = .ok matcher) :
    ChunkConstants IsText matcher.chunks :=
  constants_of_ofPattern (fun text _ => isText_normalize (isText_encodeChars text.toList)) h

/-! ### Constants in texts -/

/-- Bytes that are no spaces are read one by one. -/
theorem exists_of_reads?_append {x y m : List UInt8} {n : Nat} (hx : space ∉ x)
    (h : reads? (x ++ y) m = some n) :
    ∃ m' k, m = x ++ m' ∧ n = x.length + k ∧ reads? y m' = some k := by
  induction x generalizing m n with
  | nil => exact ⟨m, n, rfl, (Nat.zero_add n).symm, h⟩
  | cons a x ih =>
      rw [List.mem_cons, not_or] at hx
      cases m with
      | nil => cases h
      | cons d m =>
          rw [List.cons_append, reads?] at h
          split at h
          · next had =>
            subst had
            rw [if_neg (Ne.symm hx.1)] at h
            obtain ⟨k, hk, rfl⟩ := Option.map_eq_some_iff.mp h
            obtain ⟨m', k, rfl, rfl, hread⟩ := ih hx.2 hk
            exact ⟨m', k, rfl, by rw [List.length_cons]; omega, hread⟩
          · cases h

/-- What stands behind the text of a constant is a text. -/
theorem isText_drop_reads? {cs : List Char} {m : List UInt8} {n : Nat}
    (h : reads? (encodeChars cs) m = some n) (hm : IsText m) : IsText (m.drop n) := by
  induction cs generalizing m n with
  | nil =>
      obtain rfl := Option.some.inj h
      exact hm
  | cons c cs ih =>
      rw [encodeChars_cons] at h
      by_cases hc : c = ' '
      · subst hc
        change reads? (space :: encodeChars cs) m = some n at h
        cases m with
        | nil => cases h
        | cons d m =>
            rw [reads?] at h
            split at h
            · next hd =>
              subst hd
              rw [if_pos rfl] at h
              obtain ⟨k, hk, rfl⟩ := Option.map_eq_some_iff.mp h
              have hrest : IsText m := (isText_spaces 1).of_append_left hm
              have hdrop := ih hk (isText_drop_leadingSpaces hrest)
              rwa [List.drop_drop, Nat.add_comm] at hdrop
            · cases h
      · obtain ⟨m', k, rfl, rfl, hread⟩ := exists_of_reads?_append (space_not_mem_encodeChar hc) h
        have hchar : IsText (String.utf8EncodeChar c) := ⟨[c], (List.append_nil _).symm⟩
        rw [← List.drop_drop, List.drop_left]
        exact ih hread (hchar.of_append_left hm)

/-- What stands behind a constant that is skipped is a text. -/
theorem isText_drop_skip? {c m : List UInt8} {n : Nat} (hc : IsText c) (h : skip? c m = some n)
    (hm : IsText m) : IsText (m.drop n) := by
  obtain ⟨k, hread, rfl⟩ := Option.map_eq_some_iff.mp h
  rw [Nat.add_comm, ← List.drop_drop]
  have hbehind := isText_drop_leadingSpaces hm
  cases c with
  | nil => cases hread
  | cons a rest =>
      dsimp only at hread
      split at hread
      · next ha =>
        subst ha
        split at hread
        · cases hread
        · obtain ⟨ds, hds⟩ := (isText_spaces 1).of_append_left hc
          exact isText_drop_reads? (hds ▸ hread) hbehind
      · obtain ⟨cs, hcs⟩ := hc
        exact isText_drop_reads? (hcs ▸ hread) hbehind

/-- What stands behind an occurrence of a constant is a text. -/
theorem isText_drop_occurrence? {c m : List UInt8} {n : Nat} (hc : IsText c)
    (h : occurrence? c m = some n) (hm : IsText m) : IsText (m.drop n) := by
  cases c with
  | nil => cases h
  | cons a rest =>
      cases m with
      | nil => cases h
      | cons d m =>
          by_cases had : a = d
          · subst had
            by_cases ha : a = space
            · subst ha
              rw [occurrence?, if_pos rfl] at h
              obtain ⟨k, hread, rfl⟩ := Option.map_eq_some_iff.mp h
              obtain ⟨ds, hds⟩ : IsText rest := (isText_spaces 1).of_append_left hc
              have hrest : IsText m := (isText_spaces 1).of_append_left hm
              rw [List.drop_succ_cons]
              exact isText_drop_reads? (hds ▸ hread) hrest
            · rw [occurrence?_eq_reads? ha] at h
              obtain ⟨cs, hcs⟩ := hc
              exact isText_drop_reads? (hcs ▸ h) hm
          · rw [occurrence?, if_neg had] at h
            cases h

theorem head?_eq_of_occurrence? {c m : List UInt8} {n : Nat} (h : occurrence? c m = some n) :
    m.head? = c.head? := by
  cases c with
  | nil => cases h
  | cons a rest =>
      cases m with
      | nil => cases h
      | cons d m =>
          rw [occurrence?] at h
          split at h
          · next had => rw [had]; rfl
          · cases h

/-- A constant is found between two texts, since it does not begin with a continuation byte. -/
theorem isText_of_find? {c m : List UInt8} {start length : Nat} (hc : IsText c)
    (h : find? c m = some (start, length)) (hm : IsText m) :
    IsText (m.take start) ∧ IsText (m.drop start) ∧ IsText (m.drop (start + length)) := by
  have hfound := (find?_eq_some_iff.mp h).2
  rw [← List.take_append_drop start m] at hm
  obtain ⟨hbefore, hbehind⟩ := hm.of_append fun b hb =>
    hc.head?_eq ((head?_eq_of_occurrence? hfound).symm.trans hb)
  rw [← List.drop_drop]
  exact ⟨hbefore, hbehind, isText_drop_occurrence? hc hfound hbehind⟩

/-! ### Placements in texts -/

/-- Everything that a placement notes lies at a character of the text. -/
structure Placement.AtCharacters (cs : List Char) (p : Placement) : Prop where
  captures : ∀ c ∈ p.captures, IsPlace 0 cs c.start ∧ IsPlace 0 cs c.stop
  payload : ∀ start ∈ p.payload?, IsPlace 0 cs start
  stop : IsPlace 0 cs p.stop

section AtCharacters

variable {cs : List Char} {pos : Nat} {m : List UInt8} {p : Placement}

theorem Placement.atCharacters_empty (hpos : IsPlace 0 cs pos) : (Placement.empty pos).AtCharacters cs where
  captures := by rintro c ⟨⟩
  payload := by rintro s ⟨⟩
  stop := hpos

theorem isText_of_drop (hpos : IsPlace 0 cs pos) (hm : (encodeChars cs).drop pos = m) : IsText m :=
  hm ▸ (isPlace_iff.mp hpos).2

/-- A place behind a place. -/
theorem isPlace_add {n : Nat} (hpos : IsPlace 0 cs pos) (hm : (encodeChars cs).drop pos = m)
    (hn : n ≤ m.length) (htext : IsText (m.drop n)) : IsPlace 0 cs (pos + n) := by
  have hle := (isPlace_iff.mp hpos).1
  subst hm
  rw [List.length_drop] at hn
  rw [List.drop_drop] at htext
  exact isPlace_iff.mpr ⟨by omega, htext⟩

/-- The place of a capture, whose bytes are a text in front of a text. -/
theorem isPlace_ofText (field : String) {text rest : List UInt8} (hpos : IsPlace 0 cs pos)
    (hm : (encodeChars cs).drop pos = text ++ rest) (htext : IsText text) (hrest : IsText rest) :
    IsPlace 0 cs (Capture.ofText field pos text).start ∧ IsPlace 0 cs (Capture.ofText field pos text).stop := by
  obtain ⟨a, core, b, rfl, htidy⟩ := exists_core text
  obtain ⟨a, b, htext', hcapture⟩ := Capture.exists_ofText_eq field pos a b htidy
  rw [hcapture]
  rw [htext'] at hm htext
  rw [List.append_assoc] at htext
  have hcore := isText_of_append_spaces (isText_of_spaces_append htext)
  have hbehind : IsText (spaces b ++ rest) := (isText_spaces b).append hrest
  have hfront : (encodeChars cs).drop pos = (spaces a ++ core) ++ (spaces b ++ rest) := by
    rw [hm, List.append_assoc _ _ rest]
  constructor
  · refine isPlace_add hpos hfront ?_ ?_
    · simp only [List.length_append, List.length_replicate]
      omega
    · rw [List.append_assoc, List.drop_left' (List.length_replicate ..)]
      exact hcore.append hbehind
  · dsimp only
    rw [Nat.add_assoc]
    have hlen : (spaces a ++ core).length = a + core.length := by simp
    refine isPlace_add hpos hfront ?_ ?_
    · rw [← hlen]
      exact (List.prefix_append _ _).length_le
    · rw [List.drop_left' hlen]
      exact hbehind

theorem Placement.AtCharacters.consCapture (hp : p.AtCharacters cs) {c : Capture}
    (hc : IsPlace 0 cs c.start ∧ IsPlace 0 cs c.stop) : (p.consCapture c).AtCharacters cs where
  captures := List.forall_mem_cons.mpr ⟨hc, hp.captures⟩
  payload := hp.payload
  stop := hp.stop

theorem Placement.AtCharacters.consPayload (hp : p.AtCharacters cs) {start : Nat}
    (hstart : IsPlace 0 cs start) : (p.consPayload start).AtCharacters cs where
  captures := hp.captures
  payload := fun s hs => (mem_consPayload hs).elim (hp.payload s) fun heq => heq ▸ hstart
  stop := hp.stop

theorem Placement.AtCharacters.markPayload (hp : p.AtCharacters cs) (marked : Bool)
    (hpos : IsPlace 0 cs pos) : (markPayload marked pos p).AtCharacters cs := by
  cases marked with
  | false => exact hp
  | true => exact hp.consPayload hpos

/-- Elements are placed at characters when the texts of their constants are. -/
theorem atCharacters_of_place? {elements : Elements} {exact : Nat} (helements : Constants IsText elements)
    (hpos : IsPlace 0 cs pos) (hexact : IsPlace 0 cs exact) (hm : (encodeChars cs).drop pos = m)
    (h : place? elements pos exact m = some p) : p.AtCharacters cs := by
  have htail {e : Element} {rest : Elements} (h : Constants IsText (e :: rest)) : Constants IsText rest :=
    fun c hc => h c (List.mem_cons_of_mem _ hc)
  fun_induction place? elements pos exact m generalizing p with
  | case1 pos exact m =>
      cases h
      exact Placement.atCharacters_empty hpos
  | case2 exact c rest pos m ih =>
      obtain ⟨n, hskip, hplace⟩ := Option.bind_eq_some_iff.mp h
      have hbehind := isText_drop_skip? (helements c List.mem_cons_self) hskip (isText_of_drop hpos hm)
      have hnext := isPlace_add hpos hm (skip?_le hskip) hbehind
      exact ih n (htail helements) hnext hnext (by rw [← List.drop_drop, hm]) hplace
  | case3 rest pos exact m ih =>
      obtain ⟨q, hplace, rfl⟩ := Option.map_eq_some_iff.mp h
      exact (ih (htail helements) hpos hexact hm hplace).consPayload hexact
  | case4 exact field marked c rest pos m ih =>
      obtain ⟨⟨start, length⟩, hfind, hfound⟩ := Option.bind_eq_some_iff.mp h
      obtain ⟨q, hplace, heq⟩ := Option.bind_eq_some_iff.mp hfound
      obtain rfl := Option.some.inj heq
      have hc := helements c (List.mem_cons_of_mem _ List.mem_cons_self)
      obtain ⟨hbefore, hfrom, hbehind⟩ := isText_of_find? hc hfind (isText_of_drop hpos hm)
      have hle := find?_le hfind
      have hstop := isPlace_add hpos hm hle hbehind
      have hdrop : (encodeChars cs).drop (pos + (start + length)) = m.drop (start + length) := by
        rw [← List.drop_drop, hm]
      have hnext := isPlace_add hstop hdrop (leadingSpaces_le _) (isText_drop_leadingSpaces hbehind)
      have hq := ih start length (htail (htail helements)) hnext hstop
        (by rw [← List.drop_drop, hdrop, List.drop_drop]) hplace
      have hcapture := isPlace_ofText field hpos (hm.trans (List.take_append_drop start m).symm) hbefore hfrom
      exact (hq.consCapture hcapture).markPayload marked hpos
  | case5 exact field marked rest pos m hnext stop =>
      rename_i ih
      obtain ⟨q, hplace, heq⟩ := Option.bind_eq_some_iff.mp h
      obtain rfl := Option.some.inj heq
      have htext := isText_of_drop hpos hm
      have hnil : m.drop m.length = [] := List.drop_length
      have hstop := isPlace_add hpos hm (Nat.le_refl _) (hnil ▸ isText_nil)
      have hq := ih (htail helements) hstop hstop (by rw [← List.drop_drop, hm, hnil]) hplace
      have hcapture := isPlace_ofText field hpos (hm.trans (List.append_nil m).symm) htext isText_nil
      exact (hq.consCapture hcapture).markPayload marked hpos

theorem Placement.AtCharacters.append {first second : Placement} (hfirst : first.AtCharacters cs)
    (hsecond : second.AtCharacters cs) : (first.append second).AtCharacters cs where
  captures := fun c hc => (List.mem_append.mp hc).elim (hfirst.captures c) (hsecond.captures c)
  payload := fun s hs => by
    unfold Placement.append at hs
    dsimp only at hs
    cases hpayload : first.payload? with
    | none => exact hsecond.payload s (by rwa [hpayload, Option.none_or] at hs)
    | some start => exact hfirst.payload s (by rwa [hpayload, Option.some_or, ← hpayload] at hs)
  stop := hsecond.stop

/-- Chunks are placed at characters when the texts of their constants are. -/
theorem atCharacters_of_placeChunks {chunks : List Chunk} (hchunks : ChunkConstants IsText chunks)
    {number : Nat} (hpos : IsPlace 0 cs pos) (hm : (encodeChars cs).drop pos = m)
    (h : (placeChunks number pos m chunks).2 = some p) : p.AtCharacters cs := by
  induction chunks generalizing number pos m p with
  | nil =>
      cases h
      exact Placement.atCharacters_empty hpos
  | cons chunk chunks ih =>
      cases hchoose : chunk.choose? pos m with
      | none =>
          rw [placeChunks, hchoose] at h
          cases h
      | some choice =>
          obtain ⟨i, q⟩ := choice
          rw [placeChunks_cons hchoose] at h
          obtain ⟨r, hr, rfl⟩ := Option.map_eq_some_iff.mp h
          obtain ⟨k, elements, -, helements, hplace, -⟩ := chooseFrom?_eq_some hchoose
          have hconstants := hchunks chunk List.mem_cons_self elements (List.mem_of_getElem? helements)
          have hq := atCharacters_of_place? hconstants hpos hpos hm hplace
          have hle := (within_of_place? (Nat.le_refl pos) hplace).1
          have hdrop : (encodeChars cs).drop q.stop = m.drop (q.stop - pos) := by
            rw [← hm, List.drop_drop, Nat.add_sub_cancel' hle]
          exact hq.append (ih (fun c hc => hchunks c (List.mem_cons_of_mem _ hc)) hq.stop hdrop hr)

end AtCharacters

/-! ### Matches in texts -/

/-- A match lies at characters of a text. -/
theorem atCharacters_of_run {p : Pattern} {matcher : Matcher} (h : Matcher.ofPattern p = .ok matcher)
    {cs : List Char} {found : Match} (hrun : matcher.run (encodeChars cs) = some found) :
    (∀ c ∈ found.captures, IsPlace 0 cs c.start ∧ IsPlace 0 cs c.stop) ∧ IsPlace 0 cs found.rest := by
  obtain ⟨placement, hplace, rfl⟩ := Option.map_eq_some_iff.mp hrun
  have hplaced := atCharacters_of_placeChunks (isText_of_ofPattern h) (isPlace_start 0 cs) rfl hplace
  refine ⟨hplaced.captures, ?_⟩
  dsimp only
  split
  · exact isPlace_start 0 cs
  · cases hpayload : placement.payload? with
    | none => exact hplaced.stop
    | some start => exact hplaced.payload start hpayload

end LogRules.Matching

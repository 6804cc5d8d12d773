import LogRules.Proofs.Matching.Spaces
import LogRules.Proofs.Result

/-! # Texts that stand for a constant

The constants of a matcher are in normal form (`normal_of_ofPattern`). A text stands for such a constant
when it has that normal form and begins like it. `reads?`, `skip?`, `occurrence?` and `find?` are put in
terms of such texts: what they take from a message, and what they find nowhere in it. -/

namespace LogRules.Matching

/-! ### Constants in normal form -/

/-- The normal form of a constant: one space, or a tidy text with runs of one space. -/
def Normal (c : List UInt8) : Prop := c = [space] ∨ c ≠ [] ∧ Tidy c ∧ squeeze c = c

instance : DecidablePred Normal :=
  fun c => inferInstanceAs (Decidable (c = [space] ∨ c ≠ [] ∧ Tidy c ∧ squeeze c = c))

theorem length_squeeze_le (m : List UInt8) : (squeeze m).length ≤ m.length := by
  fun_induction squeeze m with
  | case1 => exact Nat.le_refl _
  | case2 c => exact Nat.le_refl _
  | case3 c d rest h ih => exact Nat.le_succ_of_le ih
  | case4 c d rest h ih => exact Nat.succ_le_succ ih

theorem squeeze_squeeze (m : List UInt8) : squeeze (squeeze m) = squeeze m := by
  fun_induction squeeze m with
  | case1 => rfl
  | case2 c => rfl
  | case3 c d rest h ih => exact ih
  | case4 c d rest h ih =>
      have hhead := head?_squeeze (d :: rest)
      cases hs : squeeze (d :: rest) with
      | nil => rfl
      | cons e s =>
          rw [hs, List.head?_cons, List.head?_cons, Option.some.injEq] at hhead
          subst hhead
          rw [squeeze, if_neg h, ← hs, ih]

/-- A text in which all runs are of one space has a tail of that kind. -/
theorem squeeze_tail {c : UInt8} {m : List UInt8} (h : squeeze (c :: m) = c :: m) :
    squeeze m = m := by
  cases m with
  | nil => rfl
  | cons d m =>
      by_cases hcd : c = space ∧ d = space
      · have hlen := length_squeeze_le (d :: m)
        rw [squeeze, if_pos hcd] at h
        rw [h, List.length_cons, List.length_cons] at hlen
        omega
      · rw [squeeze, if_neg hcd] at h
        exact (List.cons.inj h).2

/-- A run of one space ends in front of something else. -/
theorem head?_ne_of_squeeze {m : List UInt8} (h : squeeze (space :: m) = space :: m) :
    m.head? ≠ some space := by
  intro hhead
  obtain ⟨m, rfl⟩ := List.head?_eq_some_iff.mp hhead
  rw [squeeze, if_pos ⟨rfl, rfl⟩] at h
  have hlen := length_squeeze_le (space :: m)
  rw [h, List.length_cons, List.length_cons] at hlen
  omega

theorem normal_normalize {text : List UInt8} (h : normalize text ≠ []) : Normal (normalize text) := by
  by_cases hall : ∃ c ∈ text, c ≠ space
  · obtain ⟨a, core, b, rfl, hcore, htidy⟩ := exists_padded hall
    rw [normalize_padded a b hcore htidy]
    exact .inr ⟨squeeze_ne_nil hcore, htidy.squeeze, squeeze_squeeze core⟩
  · have hspaces : text = spaces text.length :=
      List.eq_replicate_of_mem fun c hc => by_contra fun hne => hall ⟨c, hc, hne⟩
    cases hlen : text.length with
    | zero =>
        rw [List.eq_nil_of_length_eq_zero hlen] at h
        exact absurd rfl h
    | succ n =>
        rw [hspaces, hlen, normalize_spaces]
        exact .inl rfl

/-- The constants among some elements are in normal form. -/
def NormalConstants (elements : Elements) : Prop := ∀ c, .constant c ∈ elements → Normal c

theorem NormalConstants.tail {e : Element} {elements : Elements}
    (h : NormalConstants (e :: elements)) : NormalConstants elements :=
  fun c hc => h c (List.mem_cons_of_mem _ hc)

/-- The constants of the alternatives of some chunks are in normal form. -/
def NormalChunks (chunks : List Chunk) : Prop :=
  ∀ chunk ∈ chunks, ∀ elements ∈ chunk.alternatives, NormalConstants elements

/-! ### Constants of a matcher

What holds of the normal form of every text that has one holds of the constants of a matcher. -/

/-- The property holds of the constants among some elements. -/
def Constants (P : List UInt8 → Prop) (elements : Elements) : Prop := ∀ c, .constant c ∈ elements → P c

/-- The property holds of the constants of the alternatives of some chunks. -/
def ChunkConstants (P : List UInt8 → Prop) (chunks : List Chunk) : Prop :=
  ∀ chunk ∈ chunks, ∀ elements ∈ chunk.alternatives, Constants P elements

section Constants

variable {P : List UInt8 → Prop}

theorem Constants.append {first second : Elements} (hfirst : Constants P first)
    (hsecond : Constants P second) : Constants P (first ++ second) :=
  fun c hc => (List.mem_append.mp hc).elim (hfirst c) (hsecond c)

theorem constants_nil : Constants P [] := fun _ h => nomatch h

theorem chunkConstants_plainChunk {elements : Elements} (h : Constants P elements) :
    ChunkConstants P (plainChunk elements) := by
  intro chunk hchunk alternative hmem
  unfold plainChunk at hchunk
  split at hchunk
  · cases hchunk
  · obtain rfl := List.mem_singleton.mp hchunk
    obtain rfl := List.mem_singleton.mp hmem
    exact h

theorem ChunkConstants.append {first second : List Chunk} (hfirst : ChunkConstants P first)
    (hsecond : ChunkConstants P second) : ChunkConstants P (first ++ second) :=
  fun chunk hchunk => (List.mem_append.mp hchunk).elim (hfirst chunk) (hsecond chunk)

theorem ChunkConstants.mark {chunks : List Chunk} (h : ChunkConstants P chunks) (name : String) :
    ChunkConstants P (chunks.map (Chunk.mark name)) := by
  intro chunk hchunk elements hmem c hc
  obtain ⟨chunk, hchunk', rfl⟩ := List.mem_map.mp hchunk
  obtain ⟨alternative, halternative, rfl⟩ := List.mem_map.mp hmem
  obtain ⟨e, he, heq⟩ := List.mem_map.mp hc
  cases e with
  | constant d =>
      cases heq
      exact h chunk hchunk' alternative halternative c he
  | capture field marked => cases heq
  | payload => cases heq

variable (hP : ∀ text, normalize (Text.encode text) ≠ [] → P (normalize (Text.encode text)))
include hP

theorem constants_ofConstant (text : String) : Constants P (ofConstant text) := by
  intro c hc
  unfold ofConstant at hc
  dsimp only at hc
  split at hc
  · cases hc
  · next hne =>
    obtain rfl := Element.constant.inj (List.mem_singleton.mp hc)
    exact hP text fun heq => hne (by rw [heq]; rfl)

theorem constants_ofValue {v : Value} {elements : Elements} (h : ofValue v = .ok elements) :
    Constants P elements := by
  cases v with
  | constant text =>
      cases h
      exact constants_ofConstant hP text
  | field name =>
      cases h
      intro c hc
      cases List.mem_singleton.mp hc
  | payload alias? => cases h

theorem constants_ofBranch {branch : Pattern} {elements : Elements}
    (h : ofBranch branch = .ok elements) : Constants P elements := by
  obtain ⟨parts, hparts, rfl⟩ := map_eq_ok.mp h
  intro c hc
  obtain ⟨part, hpart, hmem⟩ := List.mem_flatten.mp hc
  obtain ⟨item, -, hitem⟩ := exists_of_mem_mapM hparts hpart
  cases item with
  | value v => exact constants_ofValue hP hitem c hmem
  | alternatives branches => cases hitem

theorem constants_of_layout {p : Pattern} {front : Elements} {chunks : List Chunk}
    (h : layout p = .ok (front, chunks)) : Constants P front ∧ ChunkConstants P chunks := by
  fun_induction layout p generalizing front chunks with
  | case1 =>
      cases h
      exact ⟨constants_nil, fun _ h => nomatch h⟩
  | case2 rest alias? hrest =>
      cases h
      refine ⟨?_, fun _ h => nomatch h⟩
      intro c hc
      split at hc
      · cases List.mem_singleton.mp hc
      · cases hc
  | case3 rest alias? hrest => cases h
  | case4 rest v hv ih =>
      obtain ⟨elements, helements, h⟩ := bind_eq_ok.mp h
      obtain ⟨⟨front', chunks'⟩, hlayout, h⟩ := bind_eq_ok.mp h
      cases h
      obtain ⟨hfront, hchunks⟩ := ih hlayout
      exact ⟨(constants_ofValue hP helements).append hfront, hchunks⟩
  | case5 rest branches ih =>
      obtain ⟨alternatives, halternatives, h⟩ := bind_eq_ok.mp h
      obtain ⟨⟨front', chunks'⟩, hlayout, h⟩ := bind_eq_ok.mp h
      cases h
      obtain ⟨hfront, hchunks⟩ := ih hlayout
      have hgroup : ChunkConstants P [⟨alternatives⟩] := by
        intro chunk hchunk elements hmem
        obtain rfl := List.mem_singleton.mp hchunk
        obtain ⟨branch, -, hbranch⟩ := exists_of_mem_mapM halternatives hmem
        exact constants_ofBranch hP hbranch
      exact ⟨constants_nil, hgroup.append ((chunkConstants_plainChunk hfront).append hchunks)⟩

theorem constants_of_chunksOf {p : Pattern} {chunks : List Chunk} (h : chunksOf p = .ok chunks) :
    ChunkConstants P chunks := by
  obtain ⟨⟨front, others⟩, hlayout, h⟩ := bind_eq_ok.mp h
  obtain ⟨hfront, hothers⟩ := constants_of_layout hP hlayout
  have happend := (chunkConstants_plainChunk hfront).append hothers
  cases h
  split
  · intro chunk hchunk elements hmem
    obtain rfl := List.mem_singleton.mp hchunk
    obtain rfl := List.mem_singleton.mp hmem
    exact constants_nil
  · exact happend

end Constants

/-- The matcher of the chunks of a pattern, from what the pattern says about the payload. -/
def ofChunks (payload? : Option (Option String)) (chunks : List Chunk) :
    Except PatternError Matcher :=
  match (chunks.flatMap Chunk.alternatives).findSome? adjacentCaptures?, payload? with
  | some (a, b), _ => .error (.adjacentCaptures a b)
  | none, some (some name) =>
    if name = startAlias then .ok ⟨chunks, true⟩
    else match aliasError? name chunks with
      | some e => .error e
      | none => .ok ⟨chunks.map (Chunk.mark name), false⟩
  | none, _ => .ok ⟨chunks, false⟩

theorem ofPattern_eq (p : Pattern) :
    Matcher.ofPattern p =
      if 1 < countMarkers p then .error .multiplePayloads
      else chunksOf p >>= ofChunks p.payload? := by
  unfold Matcher.ofPattern
  by_cases hcount : 1 < countMarkers p
  · rw [if_pos hcount, if_pos hcount]
    rfl
  · rw [if_neg hcount, if_neg hcount]
    refine bind_congr fun chunks => ?_
    unfold ofChunks
    cases (chunks.flatMap Chunk.alternatives).findSome? adjacentCaptures? with
    | some pair => rfl
    | none =>
        cases p.payload? with
        | none => rfl
        | some alias? =>
            cases alias? with
            | none => rfl
            | some name =>
                by_cases hname : name = startAlias
                · simp only [if_pos hname]
                  rfl
                · simp only [if_neg hname]
                  cases aliasError? name chunks <;> rfl

theorem constants_of_ofPattern {P : List UInt8 → Prop}
    (hP : ∀ text, normalize (Text.encode text) ≠ [] → P (normalize (Text.encode text))) {p : Pattern}
    {matcher : Matcher} (h : Matcher.ofPattern p = .ok matcher) : ChunkConstants P matcher.chunks := by
  rw [ofPattern_eq] at h
  split at h
  · cases h
  · obtain ⟨chunks, hchunks, h⟩ := bind_eq_ok.mp h
    have hconstants := constants_of_chunksOf hP hchunks
    unfold ofChunks at h
    split at h
    · cases h
    · split at h
      · cases h
        exact hconstants
      · split at h
        · cases h
        · cases h
          exact hconstants.mark _
    · cases h
      exact hconstants

/-- The constants of a matcher are in normal form. -/
theorem normal_of_ofPattern {p : Pattern} {matcher : Matcher}
    (h : Matcher.ofPattern p = .ok matcher) : NormalChunks matcher.chunks :=
  constants_of_ofPattern (fun _ hne => normal_normalize hne) h

/-! ### Texts of a constant -/

/-- The text has the constant as its normal form and begins like it. -/
def StandsFor (c text : List UInt8) : Prop := normalize text = c ∧ text.head? = c.head?

/-- A text that stands for the constant is somewhere in front of the message. -/
def Occurs (c m : List UInt8) : Prop := ∃ text rest, m = text ++ rest ∧ StandsFor c text

theorem tidy_of_squeeze {c text : List UInt8} (h : squeeze text = c) (htidy : Tidy c) : Tidy text := by
  subst h
  exact ⟨head?_squeeze text ▸ htidy.1, getLast?_squeeze text ▸ htidy.2⟩

theorem ne_nil_of_squeeze {c text : List UInt8} (h : squeeze text = c) (hc : c ≠ []) : text ≠ [] := by
  rintro rfl
  exact hc h.symm

/-- The texts of a space are the runs of spaces. -/
theorem standsFor_space_iff {text : List UInt8} :
    StandsFor [space] text ↔ ∃ n, text = spaces (n + 1) := by
  constructor
  · rintro ⟨hnorm, hhead⟩
    by_cases hall : ∃ c ∈ text, c ≠ space
    · obtain ⟨a, core, b, rfl, hcore, htidy⟩ := exists_padded hall
      rw [normalize_padded a b hcore htidy] at hnorm
      have hcore' := head?_squeeze core
      rw [hnorm] at hcore'
      exact absurd hcore'.symm htidy.1
    · have hspaces : text = spaces text.length :=
        List.eq_replicate_of_mem fun c hc => by_contra fun hne => hall ⟨c, hc, hne⟩
      cases text with
      | nil => cases hhead
      | cons c text => exact ⟨text.length, hspaces⟩
  · rintro ⟨n, rfl⟩
    exact ⟨normalize_spaces n, rfl⟩

/-- The texts of a tidy constant, with the spaces behind them. -/
theorem standsFor_iff_of_tidy {c text : List UInt8} (hne : c ≠ []) (htidy : Tidy c) :
    StandsFor c text ↔ ∃ core b, text = core ++ spaces b ∧ squeeze core = c := by
  constructor
  · rintro ⟨hnorm, hhead⟩
    have hall : ∃ d ∈ text, d ≠ space := by
      obtain ⟨d, rest, rfl⟩ := List.exists_cons_of_ne_nil hne
      cases text with
      | nil => cases hhead
      | cons e text =>
          obtain rfl := Option.some.inj hhead
          exact ⟨e, List.mem_cons_self, fun heq => htidy.1 (congrArg some heq)⟩
    obtain ⟨a, core, b, rfl, hcore, hcoretidy⟩ := exists_padded hall
    rw [normalize_padded a b hcore hcoretidy] at hnorm
    cases a with
    | zero => exact ⟨core, b, by rw [spaces, List.replicate_zero, List.nil_append], hnorm⟩
    | succ a => exact absurd hhead.symm htidy.1
  · rintro ⟨core, b, rfl, hcore⟩
    have hcorene := ne_nil_of_squeeze hcore hne
    have hnorm := normalize_padded 0 b hcorene (tidy_of_squeeze hcore htidy)
    refine ⟨?_, ?_⟩
    · rw [← hcore, ← hnorm]
      rfl
    · rw [List.head?_append_of_ne_nil _ hcorene, ← hcore, head?_squeeze]

/-- A text stands for a constant when a core that squeezes to it comes in front of spaces. The core of a
space is one space. -/
theorem standsFor_iff {c text : List UInt8} (hc : Normal c) :
    StandsFor c text ↔ ∃ core b, text = core ++ spaces b ∧ squeeze core = c ∧
      (c = [space] → core.length = 1) := by
  rcases hc with rfl | ⟨hne, htidy, -⟩
  · rw [standsFor_space_iff]
    constructor
    · rintro ⟨n, rfl⟩
      exact ⟨[space], n, rfl, rfl, fun _ => rfl⟩
    · rintro ⟨core, b, rfl, hcore, hlen⟩
      obtain ⟨d, rfl⟩ := List.length_eq_one_iff.mp (hlen rfl)
      cases hcore
      exact ⟨b, rfl⟩
  · have hspace : c ≠ [space] := by
      rintro rfl
      exact htidy.1 rfl
    rw [standsFor_iff_of_tidy hne htidy]
    simp [hspace]

/-! ### Reading -/

theorem getLast?_tail_ne {a : UInt8} {c : List UInt8} (h : (a :: c).getLast? ≠ some space) :
    c.getLast? ≠ some space := by
  cases c with
  | nil => exact nofun
  | cons b c => rwa [List.getLast?_cons_cons] at h

/-- What is read squeezes to the constant. -/
theorem exists_of_reads? {c m : List UInt8} {n : Nat} (hc : squeeze c = c)
    (hlast : c.getLast? ≠ some space) (h : reads? c m = some n) :
    ∃ text rest, m = text ++ rest ∧ text.length = n ∧ squeeze text = c := by
  induction c generalizing m n with
  | nil =>
      obtain rfl := Option.some.inj h
      exact ⟨[], m, rfl, rfl, rfl⟩
  | cons a c ih =>
      have hread := fun {m n} => @ih m n (squeeze_tail hc) (getLast?_tail_ne hlast)
      cases m with
      | nil => cases h
      | cons d m =>
          have had : a = d := by
            by_contra hne
            rw [reads?, if_neg hne] at h
            cases h
          subst had
          by_cases hspace : a = space
          · -- The run is read as a whole, so that the rest of the text does not start with a space.
            subst hspace
            obtain ⟨r, behind, rfl, hbehind⟩ := exists_leading m
            rw [reads?_cons_space, dropWhile_run r hbehind, leadingSpaces_run r hbehind] at h
            obtain ⟨k, hk, rfl⟩ := Option.map_eq_some_iff.mp h
            obtain ⟨text, rest, rfl, rfl, htext⟩ := hread hk
            have hhead : text.head? ≠ some space := by
              rw [← head?_squeeze, htext]
              exact head?_ne_of_squeeze hc
            refine ⟨spaces (r + 1) ++ text, rest, ?_, ?_, ?_⟩
            · rw [List.append_assoc]
              rfl
            · rw [List.length_append, List.length_replicate]
              omega
            · rw [squeeze_append (.inr hhead), htext, squeeze_spaces, show min (r + 1) 1 = 1 by omega]
              rfl
          · rw [reads?_cons_of_ne hspace] at h
            obtain ⟨k, hk, rfl⟩ := Option.map_eq_some_iff.mp h
            obtain ⟨text, rest, rfl, rfl, htext⟩ := hread hk
            have hsplit : squeeze ([a] ++ text) = squeeze [a] ++ squeeze text :=
              squeeze_append (.inl fun heq => hspace (Option.some.inj heq))
            exact ⟨a :: text, rest, rfl, rfl, by rw [← List.singleton_append, hsplit, htext]; rfl⟩

/-- A squeezed constant reads the texts that squeeze to it. -/
theorem reads?_eq_some_iff {c m : List UInt8} {n : Nat} (hc : squeeze c = c)
    (hlast : c.getLast? ≠ some space) :
    reads? c m = some n ↔ ∃ text rest, m = text ++ rest ∧ text.length = n ∧ squeeze text = c := by
  refine ⟨exists_of_reads? hc hlast, ?_⟩
  rintro ⟨text, rest, rfl, rfl, rfl⟩
  rw [getLast?_squeeze] at hlast
  exact reads?_squeeze hlast rest

theorem occurrence?_space_eq_some_iff {m : List UInt8} {n : Nat} :
    occurrence? [space] m = some n ↔ n = 1 ∧ ∃ rest, m = space :: rest := by
  cases m with
  | nil => simp [occurrence?]
  | cons d m =>
      by_cases hd : space = d
      · subst hd
        simp [occurrence?, reads?, eq_comm]
      · have hd' : ¬ d = space := fun heq => hd heq.symm
        simp [occurrence?, hd, hd']

theorem occurrence?_eq_reads?_of_tidy {c : List UInt8} (hne : c ≠ []) (htidy : Tidy c)
    (m : List UInt8) : occurrence? c m = reads? c m := by
  obtain ⟨a, c, rfl⟩ := List.exists_cons_of_ne_nil hne
  have ha : a ≠ space := fun heq => htidy.1 (congrArg some heq)
  cases m with
  | nil => rfl
  | cons d m =>
      by_cases had : a = d
      · subst had
        exact occurrence?_eq_reads? ha c m
      · rw [occurrence?, if_neg had, reads?, if_neg had]

/-- An occurrence is a text that squeezes to the constant; for a space it is one space. -/
theorem occurrence?_eq_some_iff {c m : List UInt8} {n : Nat} (hc : Normal c) :
    occurrence? c m = some n ↔
      ∃ text rest, m = text ++ rest ∧ text.length = n ∧ squeeze text = c ∧ (c = [space] → n = 1) := by
  rcases hc with rfl | ⟨hne, htidy, hsq⟩
  · rw [occurrence?_space_eq_some_iff]
    constructor
    · rintro ⟨rfl, rest, rfl⟩
      exact ⟨[space], rest, rfl, rfl, rfl, fun _ => rfl⟩
    · rintro ⟨text, rest, rfl, rfl, htext, hlen⟩
      have hone := hlen rfl
      obtain ⟨d, rfl⟩ := List.length_eq_one_iff.mp hone
      cases htext
      exact ⟨rfl, rest, rfl⟩
  · have hspace : c ≠ [space] := by
      rintro rfl
      exact htidy.1 rfl
    rw [occurrence?_eq_reads?_of_tidy hne htidy, reads?_eq_some_iff hsq htidy.2]
    simp [hspace]

/-- The constant occurs in front of a message when a text that stands for it is there. -/
theorem occurrence?_ne_none_iff {c m : List UInt8} (hc : Normal c) :
    occurrence? c m ≠ none ↔ Occurs c m := by
  rw [Option.ne_none_iff_exists']
  simp only [occurrence?_eq_some_iff hc]
  constructor
  · rintro ⟨n, text, rest, rfl, rfl, htext, hlen⟩
    refine ⟨text, rest, rfl, (standsFor_iff hc).mpr ?_⟩
    exact ⟨text, 0, (List.append_nil text).symm, htext, hlen⟩
  · rintro ⟨text, rest, rfl, htext⟩
    obtain ⟨core, b, rfl, hcore, hlen⟩ := (standsFor_iff hc).mp htext
    exact ⟨core.length, core, spaces b ++ rest, List.append_assoc .., rfl, hcore, hlen⟩

/-! ### Skipping -/

/-- A constant at its place ends at its last byte, a space at the end of the run. -/
def EndsAt (c text rest : List UInt8) : Prop :=
  if c = [space] then rest.head? ≠ some space else text.getLast? ≠ some space

theorem skip?_eq_reads?_of_tidy {c : List UInt8} (hne : c ≠ []) (htidy : Tidy c) (m : List UInt8) :
    skip? c m = (reads? c (m.dropWhile (· == space))).map (· + leadingSpaces m) := by
  obtain ⟨a, c, rfl⟩ := List.exists_cons_of_ne_nil hne
  have ha : a ≠ space := fun heq => htidy.1 (congrArg some heq)
  simp only [skip?, if_neg ha, drop_leadingSpaces]

theorem skip?_space_eq_some_iff {m : List UInt8} {n : Nat} :
    skip? [space] m = some n ↔ n ≠ 0 ∧ leadingSpaces m = n := by
  by_cases hzero : leadingSpaces m = 0
  · have hnone : skip? [space] m = none := by simp [skip?, hzero]
    rw [hnone, hzero]
    exact iff_of_false (Option.some_ne_none n).symm fun h => h.1 h.2.symm
  · have hsome : skip? [space] m = some (leadingSpaces m) := by simp [skip?, hzero, reads?]
    rw [hsome, Option.some.injEq]
    constructor
    · rintro rfl
      exact ⟨hzero, rfl⟩
    · exact fun h => h.2

/-- A tidy constant is skipped with the spaces in front of it, and without those behind it. -/
theorem skip?_eq_some_iff_of_tidy {c m : List UInt8} {n : Nat} (hne : c ≠ []) (htidy : Tidy c)
    (hsq : squeeze c = c) :
    skip? c m = some n ↔ ∃ a core rest, m = spaces a ++ (core ++ rest) ∧ core.length + a = n ∧
      squeeze core = c := by
  rw [skip?_eq_reads?_of_tidy hne htidy, Option.map_eq_some_iff]
  simp only [reads?_eq_some_iff hsq htidy.2]
  constructor
  · rintro ⟨k, ⟨core, rest, hm, rfl, hcore⟩, rfl⟩
    obtain ⟨a, behind, rfl, hbehind⟩ := exists_leading m
    rw [dropWhile_run a hbehind] at hm
    subst hm
    exact ⟨a, core, rest, rfl, by rw [leadingSpaces_run a hbehind], hcore⟩
  · rintro ⟨a, core, rest, rfl, rfl, hcore⟩
    have hhead : (core ++ rest).head? ≠ some space := by
      rw [List.head?_append_of_ne_nil _ (ne_nil_of_squeeze hcore hne)]
      exact (tidy_of_squeeze hcore htidy).1
    rw [dropWhile_run a hhead, leadingSpaces_run a hhead]
    exact ⟨core.length, ⟨core, rest, rfl, rfl, hcore⟩, rfl⟩

/-- What is skipped are spaces and a text that stands for the constant. -/
theorem skip?_eq_some_iff {c m : List UInt8} {n : Nat} (hc : Normal c) :
    skip? c m = some n ↔ ∃ a text rest, m = spaces a ++ text ++ rest ∧
      (spaces a ++ text).length = n ∧ StandsFor c text ∧ EndsAt c text rest := by
  rcases hc with rfl | ⟨hne, htidy, hsq⟩
  · rw [skip?_space_eq_some_iff]
    constructor
    · rintro ⟨hzero, rfl⟩
      obtain ⟨k, rest, rfl, hrest⟩ := exists_leading m
      rw [leadingSpaces_run k hrest] at hzero ⊢
      obtain ⟨k, rfl⟩ := Nat.exists_eq_succ_of_ne_zero hzero
      exact ⟨0, spaces (k + 1), rest, rfl, List.length_replicate .., standsFor_space_iff.mpr ⟨k, rfl⟩,
        by rwa [EndsAt, if_pos rfl]⟩
    · rintro ⟨a, text, rest, rfl, rfl, htext, hends⟩
      obtain ⟨k, rfl⟩ := standsFor_space_iff.mp htext
      rw [EndsAt, if_pos rfl] at hends
      rw [List.append_assoc, leadingSpaces_spaces_append, leadingSpaces_run _ hends,
        List.length_append, List.length_replicate, List.length_replicate]
      omega
  · have hspace : c ≠ [space] := by
      rintro rfl
      exact htidy.1 rfl
    rw [skip?_eq_some_iff_of_tidy hne htidy hsq]
    simp only [EndsAt, if_neg hspace, standsFor_iff_of_tidy hne htidy]
    constructor
    · rintro ⟨a, core, rest, rfl, rfl, hcore⟩
      refine ⟨a, core, rest, (List.append_assoc ..).symm, ?_, ?_, (tidy_of_squeeze hcore htidy).2⟩
      · rw [List.length_append, List.length_replicate, Nat.add_comm]
      · exact ⟨core, 0, (List.append_nil core).symm, hcore⟩
    · rintro ⟨a, text, rest, rfl, rfl, ⟨core, b, rfl, hcore⟩, hends⟩
      cases b with
      | zero =>
          have hzero : core ++ spaces 0 = core := List.append_nil core
          rw [hzero, List.append_assoc, List.length_append, List.length_replicate]
          exact ⟨a, core, rest, rfl, Nat.add_comm .., hcore⟩
      | succ b =>
          refine absurd ?_ hends
          rw [spaces, List.replicate_succ', ← List.append_assoc, List.getLast?_concat]

/-! ### Searching -/

theorem find?_eq_some_iff {c m : List UInt8} {start length : Nat} :
    find? c m = some (start, length) ↔
      (∀ k < start, occurrence? c (m.drop k) = none) ∧ occurrence? c (m.drop start) = some length := by
  refine ⟨fun h => ?_, fun h => find?_eq_some h.1 h.2⟩
  induction m generalizing start with
  | nil => cases h
  | cons d m ih =>
      rw [find?] at h
      cases hhere : occurrence? c (d :: m) with
      | some n =>
          rw [hhere] at h
          obtain ⟨rfl, rfl⟩ := Prod.mk.inj (Option.some.inj h)
          exact ⟨fun k hk => absurd hk (Nat.not_lt_zero k), hhere⟩
      | none =>
          rw [hhere] at h
          obtain ⟨⟨s, l⟩, hs, heq⟩ := Option.map_eq_some_iff.mp h
          obtain ⟨rfl, rfl⟩ := Prod.mk.inj heq
          obtain ⟨hfirst, hfound⟩ := ih hs
          refine ⟨fun k hk => ?_, hfound⟩
          cases k with
          | zero => exact hhere
          | succ k => exact hfirst k (Nat.lt_of_succ_lt_succ hk)

/-- What is found with the spaces behind it is a text that stands for the constant, and the constant
does not occur earlier. -/
theorem exists_of_find? {c m : List UInt8} {start length : Nat} (hc : Normal c)
    (h : find? c m = some (start, length)) :
    ∃ before text rest, m = before ++ (text ++ rest) ∧ before.length = start ∧
      text.length = length + leadingSpaces (m.drop (start + length)) ∧ StandsFor c text ∧
      rest.head? ≠ some space ∧ ∀ k < before.length, ¬ Occurs c (m.drop k) := by
  obtain ⟨hfirst, hfound⟩ := find?_eq_some_iff.mp h
  obtain ⟨text, rest, hdrop, rfl, htext, hlen⟩ := (occurrence?_eq_some_iff hc).mp hfound
  obtain ⟨b, behind, rfl, hbehind⟩ := exists_leading rest
  have hle := find?_le h
  have hrest : m.drop (start + text.length) = spaces b ++ behind := by
    rw [← List.drop_drop, hdrop, List.drop_left]
  have hstart : (m.take start).length = start := List.length_take_of_le (by omega)
  refine ⟨m.take start, text ++ spaces b, behind, ?_, hstart, ?_, ?_, hbehind, ?_⟩
  · rw [List.append_assoc, ← hdrop, List.take_append_drop]
  · rw [hrest, leadingSpaces_run b hbehind, List.length_append, List.length_replicate]
  · exact (standsFor_iff hc).mpr ⟨text, b, rfl, htext, hlen⟩
  · intro k hk hoccurs
    rw [hstart] at hk
    exact (occurrence?_ne_none_iff hc).mpr hoccurs (hfirst k hk)

/-- A constant is found at the first text that stands for it, and ends with the spaces behind it. -/
theorem exists_find? {c before text rest : List UInt8} (hc : Normal c) (htext : StandsFor c text)
    (hrest : rest.head? ≠ some space)
    (hfirst : ∀ k < before.length, ¬ Occurs c ((before ++ (text ++ rest)).drop k)) :
    ∃ length, find? c (before ++ (text ++ rest)) = some (before.length, length) ∧
      text.length =
        length + leadingSpaces ((before ++ (text ++ rest)).drop (before.length + length)) := by
  have hnone : ∀ k < before.length, occurrence? c ((before ++ (text ++ rest)).drop k) = none :=
    fun k hk => by_contra fun hne => hfirst k hk ((occurrence?_ne_none_iff hc).mp hne)
  obtain ⟨core, b, rfl, hcore, hlen⟩ := (standsFor_iff hc).mp htext
  have hdrop : (before ++ (core ++ spaces b ++ rest)).drop before.length =
      core ++ (spaces b ++ rest) := by
    rw [List.drop_left, List.append_assoc]
  refine ⟨core.length, find?_eq_some_iff.mpr ⟨hnone, ?_⟩, ?_⟩
  · rw [hdrop]
    exact (occurrence?_eq_some_iff hc).mpr ⟨core, spaces b ++ rest, rfl, rfl, hcore, hlen⟩
  · rw [← List.drop_drop, hdrop, List.drop_left, leadingSpaces_run b hrest, List.length_append,
      List.length_replicate]

end LogRules.Matching

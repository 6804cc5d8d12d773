import LogRules.Proofs.Matching.Constants
import Mathlib.Order.Bounds.Basic

/-! # The leftmost occurrence of a constant

The search for a constant, told by the places of a message. `ReadsTo` and `OccursAt` say what it is to read a
constant between two places: a byte stands for itself, and a space behind the first byte for a maximal run of
spaces. The search finds the leftmost place at which the constant occurs, and finds nothing only when it occurs
nowhere (`search_finds_leftmost`). `seek?` is the search as a loop over places, which jumps to the next place of the
first byte, gives up when the constant is longer than what is left, and starts again one byte behind a place at
which something else is read. It finds the same (`seek?_eq_findFrom?`). -/

namespace LogRules.Matching

/-! ### Occurrences -/

/-- The bytes from `start` up to `stop` are a run of spaces that neither neighbour continues. -/
structure MaximalRun (m : List UInt8) (start stop : Nat) : Prop where
  lt : start < stop
  spaces : ∀ i, start ≤ i → i < stop → m[i]? = some space
  begins : ∀ i, i + 1 = start → m[i]? ≠ some space
  ends : m[stop]? ≠ some space

/-- The message reads a constant from one place up to another: a byte stands for itself, and a space for a
maximal run of spaces. -/
inductive ReadsTo (m : List UInt8) : (c : List UInt8) → (start stop : Nat) → Prop
  | done (start : Nat) : ReadsTo m [] start start
  | byte {d : UInt8} {c : List UInt8} {start stop : Nat} (hd : d ≠ space) (hat : m[start]? = some d)
      (hrest : ReadsTo m c (start + 1) stop) : ReadsTo m (d :: c) start stop
  | run {c : List UInt8} {start next stop : Nat} (hrun : MaximalRun m start next)
      (hrest : ReadsTo m c next stop) : ReadsTo m (space :: c) start stop

/-- The constant occurs from `start` up to `stop`. Its first byte stands for itself, also when it is a space. -/
def OccursAt (c m : List UInt8) (start stop : Nat) : Prop :=
  ∃ first rest, c = first :: rest ∧ m[start]? = some first ∧ ReadsTo m rest (start + 1) stop

/-! ### Searching -/

/-- The search for a constant from a place of the message on: where the leftmost occurrence starts, where it
ends, and where the spaces behind it end. -/
def findFrom? (c m : List UInt8) (pos : Nat) : Option (Nat × Nat × Nat) :=
  (find? c (m.drop pos)).map fun (start, length) =>
    let stop := pos + start + length
    (pos + start, stop, stop + leadingSpaces (m.drop stop))

/-- Where the next such byte is. -/
theorem isLeast_of_idxOf? {m : List UInt8} {pos ahead : Nat} {d : UInt8}
    (h : (m.drop pos).idxOf? d = some ahead) : IsLeast {i | pos ≤ i ∧ m[i]? = some d} (pos + ahead) := by
  obtain ⟨hlt, hat, hfirst⟩ := List.idxOf?_eq_some_iff.mp h
  refine ⟨⟨Nat.le_add_right _ _, ?_⟩, ?_⟩
  · rw [← List.getElem?_drop, List.getElem?_eq_getElem hlt, hat]
  · rintro i ⟨hle, hi⟩
    by_contra hbefore
    obtain ⟨k, rfl⟩ := Nat.exists_eq_add_of_le hle
    have hk : k < ahead := by omega
    rw [← List.getElem?_drop, List.getElem?_eq_getElem (Nat.lt_trans hk hlt)] at hi
    exact hfirst k hk (Option.some.inj hi)

/-- The search from place `pos` on for a constant with the bytes `rest` behind its first byte. -/
def seekFrom? (first : UInt8) (rest m : List UInt8) (pos : Nat) : Option (Nat × Nat × Nat) :=
  match _hnext : (m.drop pos).idxOf? first with
  | none => none
  | some ahead =>
    let start := pos + ahead
    if m.length < start + (rest.length + 1) then none
    else match reads? rest (m.drop (start + 1)) with
      | some n =>
        let stop := start + 1 + n
        some (start, stop, stop + leadingSpaces (m.drop stop))
      | none => seekFrom? first rest m (start + 1)
termination_by m.length - pos
decreasing_by
  have hlt := (List.getElem?_eq_some_iff.mp (isLeast_of_idxOf? _hnext).1.2).1
  omega

/-- The search for a constant as a loop over the places of the message. -/
def seek? (c m : List UInt8) (pos : Nat) : Option (Nat × Nat × Nat) :=
  match c with
  | [] => none
  | first :: rest => seekFrom? first rest m pos

/-- A capture in front of a constant extends to what the search from its place finds. -/
theorem place?_capture_findFrom? (field : String) (marked : Bool) (c : List UInt8) (rest : Elements)
    (pos exact : Nat) (m : List UInt8) :
    place? (.capture field marked :: .constant c :: rest) pos exact (m.drop pos) =
      (findFrom? c m pos).bind fun (start, stop, behind) =>
        (place? rest behind stop (m.drop behind)).map fun p =>
          markPayload marked pos
            (p.consCapture (.ofText field pos ((m.drop pos).take (start - pos)))) := by
  rw [place?, findFrom?, Option.bind_map, Option.bind_eq_bind]
  refine Option.bind_congr fun found _ => ?_
  obtain ⟨start, length⟩ := found
  simp only [Function.comp_apply, List.drop_drop, Nat.add_sub_cancel_left, Nat.add_assoc]
  rw [Option.map_eq_bind]
  rfl

/-! ### Runs of spaces by places -/

/-- The spaces from a place on end at the first place that holds none. -/
theorem isLeast_leadingSpaces (m : List UInt8) (start : Nat) :
    IsLeast {i | start ≤ i ∧ m[i]? ≠ some space} (start + leadingSpaces (m.drop start)) := by
  obtain ⟨n, rest, hdrop, hrest⟩ := exists_leading (m.drop start)
  have hat (k : Nat) : m[start + k]? = (spaces n ++ rest)[k]? := by rw [← hdrop, List.getElem?_drop]
  rw [hdrop, leadingSpaces_run n hrest]
  refine ⟨⟨Nat.le_add_right _ _, ?_⟩, ?_⟩
  · rw [hat, List.getElem?_append_right (by simp), List.length_replicate, Nat.sub_self,
      ← List.head?_eq_getElem?]
    exact hrest
  · rintro i ⟨hle, hne⟩
    by_contra hlt
    obtain ⟨k, rfl⟩ := Nat.exists_eq_add_of_le hle
    have hk : k < n := by omega
    refine hne ?_
    rw [hat, List.getElem?_append_left (by simpa using hk), List.getElem?_replicate_of_lt hk]

/-- Behind a byte that is no space a maximal run takes the spaces that come next. -/
theorem maximalRun_iff {m : List UInt8} {start stop : Nat} (hbegins : ∀ i, i + 1 = start → m[i]? ≠ some space) :
    MaximalRun m start stop ↔
      m[start]? = some space ∧ stop = start + 1 + leadingSpaces (m.drop (start + 1)) := by
  have hleast := isLeast_leadingSpaces m (start + 1)
  constructor
  · intro h
    have hstop : IsLeast {i | start + 1 ≤ i ∧ m[i]? ≠ some space} stop := by
      refine ⟨⟨h.lt, h.ends⟩, ?_⟩
      rintro i ⟨hle, hne⟩
      by_contra hlt
      exact hne (h.spaces i (by omega) (by omega))
    exact ⟨h.spaces start (Nat.le_refl _) h.lt, hstop.unique hleast⟩
  · rintro ⟨hspace, rfl⟩
    refine ⟨by omega, fun i hle hlt => ?_, hbegins, hleast.1.2⟩
    rcases Nat.eq_or_lt_of_le hle with rfl | hnext
    · exact hspace
    · by_contra hne
      have hmin := hleast.2 ⟨hnext, hne⟩
      omega

/-! ### Reading by places -/

section Reading

variable {c m : List UInt8} {d : UInt8} {start stop n : Nat}

theorem ReadsTo.le (h : ReadsTo m c start stop) : start ≤ stop := by
  induction h with
  | done start => exact Nat.le_refl start
  | byte _ _ _ ih => omega
  | run hrun _ ih => exact Nat.le_trans (Nat.le_of_lt hrun.lt) ih

theorem readsTo_nil_iff : ReadsTo m [] start stop ↔ stop = start := by
  constructor
  · rintro ⟨⟩
    rfl
  · rintro rfl
    exact .done stop

theorem readsTo_cons_iff_of_ne (hd : d ≠ space) :
    ReadsTo m (d :: c) start stop ↔ m[start]? = some d ∧ ReadsTo m c (start + 1) stop := by
  constructor
  · intro h
    cases h with
    | byte _ hat hrest => exact ⟨hat, hrest⟩
    | run hrun hrest => exact absurd rfl hd
  · exact fun h => .byte hd h.1 h.2

theorem readsTo_space_iff :
    ReadsTo m (space :: c) start stop ↔ ∃ next, MaximalRun m start next ∧ ReadsTo m c next stop := by
  constructor
  · intro h
    cases h with
    | byte hd _ _ => exact absurd rfl hd
    | run hrun hrest => exact ⟨_, hrun, hrest⟩
  · rintro ⟨next, hrun, hrest⟩
    exact .run hrun hrest

theorem drop_eq_cons_iff {tail : List UInt8} :
    m.drop start = d :: tail ↔ m[start]? = some d ∧ tail = m.drop (start + 1) := by
  rw [← List.head?_drop, ← List.tail_drop]
  constructor
  · intro h
    rw [h]
    exact ⟨rfl, rfl⟩
  · rintro ⟨hhead, rfl⟩
    obtain ⟨rest, hrest⟩ := List.head?_eq_some_iff.mp hhead
    rw [hrest]
    rfl

theorem reads?_cons_eq_some_iff {run : Nat}
    (hrun : run = if d = space then leadingSpaces (m.drop (start + 1)) else 0) :
    reads? (d :: c) (m.drop start) = some n ↔
      m[start]? = some d ∧ ∃ k, reads? c (m.drop (start + 1 + run)) = some k ∧ k + run + 1 = n := by
  cases hm : m.drop start with
  | nil =>
      have hnone : m[start]? = none := by rw [← List.head?_drop, hm]; rfl
      simp [reads?, hnone]
  | cons e tail =>
      obtain ⟨hat, rfl⟩ := drop_eq_cons_iff.mp hm
      by_cases hde : d = e
      · subst hde
        simp only [reads?, if_true, hat, ← hrun, List.drop_drop, Option.map_eq_some_iff, true_and]
      · simp [reads?, hde, hat, Ne.symm hde]

/-- A constant without two spaces side by side is read between places as the message says, when a space at its
front is not the second one of a run. -/
theorem reads?_eq_some_iff_readsTo (hc : squeeze c = c)
    (hbefore : c.head? = some space → ∀ i, i + 1 = start → m[i]? ≠ some space) :
    reads? c (m.drop start) = some n ↔ ReadsTo m c start (start + n) := by
  induction c generalizing start n with
  | nil =>
      rw [readsTo_nil_iff, reads?, Option.some.injEq]
      omega
  | cons d c ih =>
      have hread {start n : Nat} := @ih start n (squeeze_tail hc)
      rw [reads?_cons_eq_some_iff rfl]
      by_cases hd : d = space
      · subst hd
        -- The constant goes on with another byte, so that the run is read to its end.
        have hbegins := hbefore rfl
        have hnext : c.head? ≠ some space := head?_ne_of_squeeze hc
        rw [if_pos rfl, readsTo_space_iff]
        constructor
        · rintro ⟨hat, k, hk, rfl⟩
          refine ⟨_, (maximalRun_iff hbegins).mpr ⟨hat, rfl⟩, ?_⟩
          have hto := (hread fun hhead => absurd hhead hnext).mp hk
          convert hto using 1
          omega
        · rintro ⟨next, hrun, hto⟩
          obtain ⟨hat, rfl⟩ := (maximalRun_iff hbegins).mp hrun
          have hle := hto.le
          obtain ⟨k, hk⟩ := Nat.exists_eq_add_of_le hle
          rw [hk] at hto
          exact ⟨hat, k, (hread fun hhead => absurd hhead hnext).mpr hto, by omega⟩
      · rw [if_neg hd, readsTo_cons_iff_of_ne hd]
        refine and_congr_right fun hat => ?_
        have hnext : c.head? = some space → ∀ i, i + 1 = start + 1 → m[i]? ≠ some space := by
          rintro - i hi
          obtain rfl := Nat.succ.inj hi
          rw [hat]
          exact fun heq => hd (Option.some.inj heq)
        simp only [Nat.add_zero, hread hnext]
        constructor
        · rintro ⟨k, hto, rfl⟩
          convert hto using 1
          omega
        · intro hto
          have hle := hto.le
          refine ⟨n - 1, ?_, by omega⟩
          convert hto using 1
          omega

theorem OccursAt.le (h : OccursAt c m start stop) : start ≤ stop := by
  obtain ⟨_, _, _, _, hto⟩ := h
  exact Nat.le_of_succ_le hto.le

theorem occurrence?_cons_eq_some_iff :
    occurrence? (d :: c) (m.drop start) = some n ↔
      m[start]? = some d ∧ ∃ k, reads? c (m.drop (start + 1)) = some k ∧ k + 1 = n := by
  cases hm : m.drop start with
  | nil =>
      have hnone : m[start]? = none := by rw [← List.head?_drop, hm]; rfl
      simp [occurrence?, hnone]
  | cons e tail =>
      obtain ⟨hat, rfl⟩ := drop_eq_cons_iff.mp hm
      by_cases hde : d = e
      · subst hde
        simp only [occurrence?, if_true, hat, Option.map_eq_some_iff, true_and]
      · simp [occurrence?, hde, hat, Ne.symm hde]

/-- A constant without two spaces side by side occurs between places as the message says. -/
theorem occurrence?_eq_some_iff_occursAt (hc : squeeze c = c) :
    occurrence? c (m.drop start) = some n ↔ OccursAt c m start (start + n) := by
  cases c with
  | nil =>
      refine iff_of_false (Option.some_ne_none n).symm ?_
      rintro ⟨_, _, ⟨⟩, _⟩
  | cons first rest =>
      have hread {k : Nat} (hat : m[start]? = some first) :
          reads? rest (m.drop (start + 1)) = some k ↔ ReadsTo m rest (start + 1) (start + 1 + k) := by
        refine reads?_eq_some_iff_readsTo (squeeze_tail hc) ?_
        rintro hrest i hi hspace
        obtain rfl := Nat.succ.inj hi
        obtain rfl := Option.some.inj (hat.symm.trans hspace)
        exact head?_ne_of_squeeze hc hrest
      rw [occurrence?_cons_eq_some_iff]
      constructor
      · rintro ⟨hat, k, hk, rfl⟩
        refine ⟨first, rest, rfl, hat, ?_⟩
        convert (hread hat).mp hk using 1
        omega
      · rintro ⟨_, _, ⟨⟩, hat, hto⟩
        have hle := hto.le
        refine ⟨hat, n - 1, (hread hat).mpr ?_, by omega⟩
        convert hto using 1
        omega

/-- A constant without two spaces side by side occurs at a place when it is found there. -/
theorem occurrence?_eq_none_iff (hc : squeeze c = c) :
    occurrence? c (m.drop start) = none ↔ ¬ ∃ stop, OccursAt c m start stop := by
  rw [Option.eq_none_iff_forall_ne_some]
  constructor
  · rintro hnone ⟨stop, hoccurs⟩
    obtain ⟨n, rfl⟩ := Nat.exists_eq_add_of_le hoccurs.le
    exact hnone n ((occurrence?_eq_some_iff_occursAt hc).mpr hoccurs)
  · exact fun hnone n hn => hnone ⟨_, (occurrence?_eq_some_iff_occursAt hc).mp hn⟩

end Reading

/-! ### What the search finds -/

section Searching

variable {c m : List UInt8} {pos start stop behind n : Nat}

theorem find?_eq_none_iff : find? c m = none ↔ ∀ k, occurrence? c (m.drop k) = none := by
  induction m with
  | nil => simp [find?, occurrence?_nil]
  | cons d m ih =>
      rw [find?]
      cases hhere : occurrence? c (d :: m) with
      | some n =>
          refine iff_of_false (Option.some_ne_none _) fun h => ?_
          have hnone := h 0
          rw [List.drop_zero, hhere] at hnone
          cases hnone
      | none =>
          rw [Option.map_eq_none_iff, ih]
          constructor
          · rintro h (_ | k)
            · exact hhere
            · exact h k
          · exact fun h k => h (k + 1)

theorem findFrom?_eq_none_iff :
    findFrom? c m pos = none ↔ ∀ k, pos ≤ k → occurrence? c (m.drop k) = none := by
  rw [findFrom?, Option.map_eq_none_iff, find?_eq_none_iff]
  simp only [List.drop_drop]
  constructor
  · intro h k hk
    obtain ⟨i, rfl⟩ := Nat.exists_eq_add_of_le hk
    exact h i
  · exact fun h k => h _ (Nat.le_add_right _ _)

theorem findFrom?_eq_some_iff :
    findFrom? c m pos = some (start, stop, behind) ↔
      pos ≤ start ∧ (∀ k, pos ≤ k → k < start → occurrence? c (m.drop k) = none) ∧
        (∃ n, occurrence? c (m.drop start) = some n ∧ stop = start + n) ∧
        behind = stop + leadingSpaces (m.drop stop) := by
  rw [findFrom?, Option.map_eq_some_iff]
  constructor
  · rintro ⟨⟨ahead, n⟩, hfind, ⟨⟩⟩
    obtain ⟨hfirst, hfound⟩ := find?_eq_some_iff.mp hfind
    rw [List.drop_drop] at hfound
    refine ⟨Nat.le_add_right _ _, fun k hk hlt => ?_, ⟨n, hfound, rfl⟩, rfl⟩
    obtain ⟨i, rfl⟩ := Nat.exists_eq_add_of_le hk
    have hnone := hfirst i (by omega)
    rwa [List.drop_drop] at hnone
  · rintro ⟨hle, hfirst, ⟨n, hfound, rfl⟩, rfl⟩
    obtain ⟨ahead, rfl⟩ := Nat.exists_eq_add_of_le hle
    refine ⟨(ahead, n), find?_eq_some_iff.mpr ⟨fun k hk => ?_, ?_⟩, rfl⟩
    · rw [List.drop_drop]
      exact hfirst _ (Nat.le_add_right _ _) (by omega)
    · rwa [List.drop_drop]

/-- The search may start at a later place when the constant does not occur before. -/
theorem findFrom?_of_none_before {next : Nat} (hle : pos ≤ next)
    (hnone : ∀ k, pos ≤ k → k < next → occurrence? c (m.drop k) = none) :
    findFrom? c m pos = findFrom? c m next := by
  refine Option.ext fun ⟨start, stop, behind⟩ => ?_
  rw [findFrom?_eq_some_iff, findFrom?_eq_some_iff]
  constructor
  · rintro ⟨hpos, hfirst, ⟨n, hfound, hstop⟩, hbehind⟩
    have hstart : next ≤ start := by
      by_contra hlt
      rw [hnone start hpos (Nat.lt_of_not_le hlt)] at hfound
      cases hfound
    exact ⟨hstart, fun k hk => hfirst k (hle.trans hk), ⟨n, hfound, hstop⟩, hbehind⟩
  · rintro ⟨hstart, hfirst, hfound⟩
    refine ⟨hle.trans hstart, fun k hk hlt => ?_, hfound⟩
    rcases Nat.lt_or_ge k next with hbefore | hfrom
    · exact hnone k hk hbefore
    · exact hfirst k hfrom hlt

theorem length_le_of_reads? (h : reads? c (m.drop start) = some n) : c.length ≤ n := by
  induction c generalizing start n with
  | nil => exact Nat.zero_le n
  | cons d c ih =>
      obtain ⟨-, k, hk, rfl⟩ := (reads?_cons_eq_some_iff rfl).mp h
      have hle := ih hk
      rw [List.length_cons]
      omega

/-- A constant does not occur where another byte is than its first one. -/
theorem occurrence?_of_ne {first : UInt8} {rest : List UInt8} {k : Nat} (h : m[k]? ≠ some first) :
    occurrence? (first :: rest) (m.drop k) = none := by
  rw [Option.eq_none_iff_forall_ne_some]
  exact fun n hn => h (occurrence?_cons_eq_some_iff.mp hn).1

/-- A constant does not occur where fewer bytes are left than it has. -/
theorem occurrence?_of_length_lt {k : Nat} (h : m.length < k + c.length) :
    occurrence? c (m.drop k) = none := by
  rw [Option.eq_none_iff_forall_ne_some]
  intro n hn
  have hle := occurrence?_le hn
  cases c with
  | nil => cases hn
  | cons first rest =>
      obtain ⟨hat, k', hk', rfl⟩ := occurrence?_cons_eq_some_iff.mp hn
      have hlength := length_le_of_reads? hk'
      have hlt := (List.getElem?_eq_some_iff.mp hat).1
      rw [List.length_drop] at hle
      rw [List.length_cons] at h
      omega

/-- The loop jumps over places at which another byte is, gives up where the rest is too short, and starts again
behind a place at which something else is read: at none of them the constant occurs. -/
theorem seekFrom?_eq_findFrom? (first : UInt8) (rest m : List UInt8) (pos : Nat) :
    seekFrom? first rest m pos = findFrom? (first :: rest) m pos := by
  fun_induction seekFrom? first rest m pos with
  | case1 pos hnext =>
      symm
      rw [findFrom?_eq_none_iff]
      intro k hk
      refine occurrence?_of_ne fun hat => List.idxOf?_eq_none_iff.mp hnext ?_
      obtain ⟨i, rfl⟩ := Nat.exists_eq_add_of_le hk
      rw [← List.getElem?_drop] at hat
      exact List.mem_of_getElem? hat
  | case2 pos ahead hnext start hshort =>
      symm
      rw [findFrom?_eq_none_iff]
      intro k hk
      by_cases hat : m[k]? = some first
      · have hstart : start ≤ k := (isLeast_of_idxOf? hnext).2 ⟨hk, hat⟩
        refine occurrence?_of_length_lt ?_
        rw [List.length_cons]
        omega
      · exact occurrence?_of_ne hat
  | case3 pos ahead hnext start hlong n hn stop =>
      have hleast := isLeast_of_idxOf? hnext
      symm
      rw [findFrom?_eq_some_iff]
      refine ⟨hleast.1.1, fun k hk hlt => occurrence?_of_ne fun hat => ?_, ⟨n + 1, ?_, ?_⟩, rfl⟩
      · exact absurd (hleast.2 ⟨hk, hat⟩) (Nat.not_le_of_lt hlt)
      · exact occurrence?_cons_eq_some_iff.mpr ⟨hleast.1.2, n, hn, rfl⟩
      · omega
  | case4 pos ahead hnext start hlong hnone ih =>
      have hleast := isLeast_of_idxOf? hnext
      rw [ih]
      symm
      refine findFrom?_of_none_before (Nat.le_succ_of_le hleast.1.1) fun k hk hlt => ?_
      by_cases hat : m[k]? = some first
      · -- The first place of the byte is `start`, and there something else is read behind it.
        obtain rfl : k = start := Nat.le_antisymm (Nat.le_of_lt_succ hlt) (hleast.2 ⟨hk, hat⟩)
        rw [Option.eq_none_iff_forall_ne_some]
        intro n hn
        obtain ⟨-, i, hi, -⟩ := occurrence?_cons_eq_some_iff.mp hn
        rw [hnone] at hi
        cases hi
      · exact occurrence?_of_ne hat

theorem seek?_eq_findFrom? (c m : List UInt8) (pos : Nat) : seek? c m pos = findFrom? c m pos := by
  cases c with
  | nil =>
      symm
      exact findFrom?_eq_none_iff.mpr fun k _ => rfl
  | cons first rest => exact seekFrom?_eq_findFrom? first rest m pos

theorem squeeze_normalize (text : List UInt8) : squeeze (normalize text) = normalize text := by
  by_cases hnil : normalize text = []
  · rw [hnil]
    rfl
  · rcases normal_normalize hnil with hspace | ⟨-, -, hsqueeze⟩
    · rw [hspace]
      rfl
    · exact hsqueeze

/-- The search finds the leftmost occurrence of the normal form of a text, and finds nothing only when there is
none. As a loop over places it finds the same. -/
theorem search_finds_leftmost (text m : List UInt8) (pos : Nat) :
    (findFrom? (normalize text) m pos = none ↔
      ¬ ∃ start stop, pos ≤ start ∧ OccursAt (normalize text) m start stop) ∧
    (∀ start stop behind, findFrom? (normalize text) m pos = some (start, stop, behind) ↔
      IsLeast {s | pos ≤ s ∧ ∃ e, OccursAt (normalize text) m s e} start ∧
      OccursAt (normalize text) m start stop ∧
      IsLeast {i | stop ≤ i ∧ m[i]? ≠ some space} behind) ∧
    seek? (normalize text) m pos = findFrom? (normalize text) m pos := by
  have hc := squeeze_normalize text
  refine ⟨?_, fun start stop behind => ?_, seek?_eq_findFrom? _ _ _⟩
  · rw [findFrom?_eq_none_iff]
    constructor
    · rintro hnone ⟨start, stop, hle, hoccurs⟩
      exact (occurrence?_eq_none_iff hc).mp (hnone start hle) ⟨stop, hoccurs⟩
    · exact fun hnone k hk => (occurrence?_eq_none_iff hc).mpr fun ⟨stop, hoccurs⟩ =>
        hnone ⟨k, stop, hk, hoccurs⟩
  · rw [findFrom?_eq_some_iff]
    constructor
    · rintro ⟨hle, hfirst, ⟨n, hfound, rfl⟩, rfl⟩
      have hoccurs := (occurrence?_eq_some_iff_occursAt hc).mp hfound
      refine ⟨⟨⟨hle, _, hoccurs⟩, ?_⟩, hoccurs, isLeast_leadingSpaces m _⟩
      rintro k ⟨hk, hother⟩
      by_contra hlt
      exact (occurrence?_eq_none_iff hc).mp (hfirst k hk (Nat.lt_of_not_le hlt)) hother
    · rintro ⟨⟨⟨hle, -⟩, hfirst⟩, hoccurs, hbehind⟩
      obtain ⟨n, rfl⟩ := Nat.exists_eq_add_of_le hoccurs.le
      refine ⟨hle, fun k hk hlt => ?_, ⟨n, (occurrence?_eq_some_iff_occursAt hc).mpr hoccurs, rfl⟩,
        hbehind.unique (isLeast_leadingSpaces m _)⟩
      rw [occurrence?_eq_none_iff hc]
      exact fun hother => absurd (hfirst ⟨hk, hother⟩) (Nat.not_le_of_lt hlt)

/-- The search passes a place at which only the first byte is right, and reads a run inside as a whole. -/
example : findFrom? (normalize (Text.encode " a  b ")) (Text.encode "a c a   b  x") 0 = some (4, 9, 11) := by
  decide

end Searching

end LogRules.Matching

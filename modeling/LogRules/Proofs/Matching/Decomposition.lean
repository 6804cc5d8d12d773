import LogRules.Proofs.Matching.Constants
import LogRules.Proofs.Matching.Filling

/-! # Decompositions of a message

`Laid` says, without placing anything, how the elements of an alternative lie in a message: every element
has its bytes, one behind the other. An alternative is placed exactly when it can lie in front of the
message (`place?_isSome_iff`), and a matcher cuts a message into the bytes of one alternative for each
chunk (`Cut`), the first that can lie where the chunk before ended. -/

namespace LogRules.Matching

/-! ### Parts of a message -/

/-- An element with the bytes that it takes. -/
structure Part where
  element : Element
  bytes : List UInt8
  deriving DecidableEq, Repr

/-- The bytes of some parts. -/
def bytesOf (parts : List Part) : List UInt8 := parts.flatMap Part.bytes

/-- The elements of some parts. -/
def elementsIn (parts : List Part) : Elements := parts.map Part.element

@[simp] theorem bytesOf_cons (part : Part) (parts : List Part) :
    bytesOf (part :: parts) = part.bytes ++ bytesOf parts := rfl

@[simp] theorem bytesOf_append (first second : List Part) :
    bytesOf (first ++ second) = bytesOf first ++ bytesOf second := List.flatMap_append

@[simp] theorem elementsIn_cons (part : Part) (parts : List Part) :
    elementsIn (part :: parts) = part.element :: elementsIn parts := rfl

/-- The parts lie one behind the other in front of `behind`. -/
inductive Laid : List Part → List UInt8 → Prop
  | nil {behind : List UInt8} : Laid [] behind
  /-- A constant at its place: spaces, and a text that stands for it. -/
  | constant {c text behind : List UInt8} {parts : List Part} (a : Nat) (htext : StandsFor c text)
      (hends : EndsAt c text (bytesOf parts ++ behind)) (hrest : Laid parts behind) :
      Laid (⟨.constant c, spaces a ++ text⟩ :: parts) behind
  | payload {behind : List UInt8} {parts : List Part} (hrest : Laid parts behind) :
      Laid (⟨.payload, []⟩ :: parts) behind
  /-- A capture ends at the leftmost text that stands for the constant behind it. That text ends with
  all spaces behind it. -/
  | field {name : String} {marked : Bool} {c before text behind : List UInt8} {parts : List Part}
      (htext : StandsFor c text) (hends : (bytesOf parts ++ behind).head? ≠ some space)
      (hfirst : ∀ k < before.length,
        ¬ Occurs c ((before ++ (text ++ (bytesOf parts ++ behind))).drop k))
      (hrest : Laid parts behind) :
      Laid (⟨.capture name marked, before⟩ :: ⟨.constant c, text⟩ :: parts) behind
  /-- A capture with no constant behind it takes all that is left. -/
  | last {name : String} {marked : Bool} {bytes : List UInt8} {parts : List Part}
      (hnext : ∀ c rest, elementsIn parts ≠ .constant c :: rest) (hnone : bytesOf parts = [])
      (hrest : Laid parts []) : Laid (⟨.capture name marked, bytes⟩ :: parts) []

/-- The elements can lie in front of the message. -/
def CanLie (elements : Elements) (m : List UInt8) : Prop :=
  ∃ parts behind, elementsIn parts = elements ∧ m = bytesOf parts ++ behind ∧ Laid parts behind

/-- The capture of a part whose first byte is at `pos`: its bytes without the spaces around them. -/
def Part.capture? (pos : Nat) (part : Part) : Option Capture :=
  match part.element with
  | .capture field _ => some (.ofText field pos part.bytes)
  | _ => none

/-- The captures of some parts, the first of which starts at `pos`. -/
def capturesOf : Nat → List Part → List Capture
  | _, [] => []
  | pos, part :: parts => (part.capture? pos).toList ++ capturesOf (pos + part.bytes.length) parts

/-- The field of a part with its bytes, without the spaces around them. -/
def Part.trimmed? (part : Part) : Option (String × List UInt8) :=
  match part.element with
  | .capture field _ => some (field, trimSpaces part.bytes)
  | _ => none

/-! ### Captures of parts -/

theorem capturesOf_append (pos : Nat) (first second : List Part) :
    capturesOf pos (first ++ second) =
      capturesOf pos first ++ capturesOf (pos + (bytesOf first).length) second := by
  induction first generalizing pos with
  | nil => rfl
  | cons part first ih =>
      rw [List.cons_append, capturesOf, capturesOf, ih, List.append_assoc, bytesOf_cons,
        List.length_append, Nat.add_assoc]

/-- A text is a core with spaces around it. -/
theorem exists_core (text : List UInt8) :
    ∃ a core b, text = spaces a ++ core ++ spaces b ∧ Tidy core := by
  by_cases hall : ∃ c ∈ text, c ≠ space
  · obtain ⟨a, core, b, htext, -, htidy⟩ := exists_padded hall
    exact ⟨a, core, b, htext, htidy⟩
  · have hspaces : text = spaces text.length :=
      List.eq_replicate_of_mem fun c hc => by_contra fun hne => hall ⟨c, hc, hne⟩
    exact ⟨text.length, [], 0, by simpa using hspaces, nofun, nofun⟩

/-- Captured bytes are without the spaces around them. -/
theorem Capture.bytes_ofText_eq (field : String) {message text rest : List UInt8} {pos : Nat}
    (hpos : message.drop pos = text ++ rest) :
    (Capture.ofText field pos text).bytes message = trimSpaces text := by
  obtain ⟨a, core, b, rfl, htidy⟩ := exists_core text
  rw [Capture.bytes_ofText field a b htidy hpos, trimSpaces_padded a b htidy]

theorem tidy_trimSpaces (text : List UInt8) : Tidy (trimSpaces text) := by
  obtain ⟨a, core, b, rfl, htidy⟩ := exists_core text
  rwa [trimSpaces_padded a b htidy]

theorem Capture.ofText_bounds (field : String) (pos : Nat) (text : List UInt8) :
    pos ≤ (Capture.ofText field pos text).start ∧
      (Capture.ofText field pos text).start ≤ (Capture.ofText field pos text).stop ∧
      (Capture.ofText field pos text).stop ≤ pos + text.length := by
  have hlead := leadingSpaces_le text
  unfold ofText
  dsimp only
  omega

/-- Captures lie in order within the message and without spaces at their ends. -/
structure InOrder (captures : List Capture) (message : List UInt8) : Prop where
  bounds : ∀ c ∈ captures, c.start ≤ c.stop ∧ c.stop ≤ message.length
  apart : captures.Pairwise fun a b => a.stop ≤ b.start
  tidy : ∀ c ∈ captures, Tidy (c.bytes message)

/-- Every capture of some parts comes from one of them, at its place. -/
theorem exists_of_mem_capturesOf {pos : Nat} {parts : List Part} {c : Capture}
    (h : c ∈ capturesOf pos parts) :
    ∃ before part after, parts = before ++ part :: after ∧
      part.capture? (pos + (bytesOf before).length) = some c := by
  induction parts generalizing pos with
  | nil => cases h
  | cons part parts ih =>
      rcases List.mem_append.mp h with h | h
      · exact ⟨[], part, parts, rfl, Option.mem_toList.mp h⟩
      · obtain ⟨before, other, after, rfl, hc⟩ := ih h
        refine ⟨part :: before, other, after, rfl, ?_⟩
        rwa [bytesOf_cons, List.length_append, ← Nat.add_assoc]

theorem Part.exists_of_capture? {pos : Nat} {part : Part} {c : Capture}
    (h : part.capture? pos = some c) :
    ∃ field marked, part.element = .capture field marked ∧ c = .ofText field pos part.bytes := by
  unfold capture? at h
  split at h
  · next field marked helement => exact ⟨field, marked, helement, (Option.some.inj h).symm⟩
  · cases h

theorem capturesOf_bounds {pos : Nat} {parts : List Part} {c : Capture}
    (h : c ∈ capturesOf pos parts) :
    pos ≤ c.start ∧ c.start ≤ c.stop ∧ c.stop ≤ pos + (bytesOf parts).length := by
  obtain ⟨before, part, after, rfl, hc⟩ := exists_of_mem_capturesOf h
  obtain ⟨field, marked, -, rfl⟩ := Part.exists_of_capture? hc
  have hbounds := Capture.ofText_bounds field (pos + (bytesOf before).length) part.bytes
  rw [bytesOf_append, bytesOf_cons, List.length_append, List.length_append]
  omega

theorem capturesOf_pairwise (pos : Nat) (parts : List Part) :
    (capturesOf pos parts).Pairwise fun a b => a.stop ≤ b.start := by
  induction parts generalizing pos with
  | nil => exact .nil
  | cons part parts ih =>
      rw [capturesOf, List.pairwise_append]
      refine ⟨?_, ih _, ?_⟩
      · cases part.capture? pos with
        | none => exact .nil
        | some c => exact List.pairwise_singleton _ _
      · intro a ha b hb
        obtain ⟨field, marked, -, rfl⟩ := Part.exists_of_capture? (Option.mem_toList.mp ha)
        have hstop := (Capture.ofText_bounds field pos part.bytes).2.2
        have hstart := (capturesOf_bounds hb).1
        omega

theorem inOrder_capturesOf (parts : List Part) (behind : List UInt8) :
    InOrder (capturesOf 0 parts) (bytesOf parts ++ behind) where
  bounds := by
    intro c hc
    have hbounds := capturesOf_bounds hc
    rw [List.length_append]
    omega
  apart := capturesOf_pairwise 0 parts
  tidy := by
    intro c hc
    obtain ⟨before, part, after, rfl, hcapture⟩ := exists_of_mem_capturesOf hc
    obtain ⟨field, marked, -, rfl⟩ := Part.exists_of_capture? hcapture
    have hdrop : (bytesOf (before ++ part :: after) ++ behind).drop (0 + (bytesOf before).length) =
        part.bytes ++ (bytesOf after ++ behind) := by
      rw [Nat.zero_add, bytesOf_append, bytesOf_cons, List.append_assoc, List.drop_left,
        List.append_assoc]
    rw [Capture.bytes_ofText_eq field hdrop]
    exact tidy_trimSpaces part.bytes

/-- Captures have the bytes of their parts, without the spaces around them. -/
theorem textsOf_capturesOf {message behind : List UInt8} {pos : Nat} {parts : List Part}
    (h : message.drop pos = bytesOf parts ++ behind) :
    textsOf (capturesOf pos parts) message = parts.filterMap Part.trimmed? := by
  induction parts generalizing pos with
  | nil => rfl
  | cons part parts ih =>
      rw [bytesOf_cons, List.append_assoc] at h
      have hdrop : message.drop (pos + part.bytes.length) = bytesOf parts ++ behind := by
        rw [← List.drop_drop, h, List.drop_left]
      have hrest := ih hdrop
      rw [textsOf, capturesOf, List.map_append, ← textsOf, ← textsOf, hrest]
      unfold Part.capture?
      rcases part with ⟨element, bytes⟩
      cases element with
      | constant c => rfl
      | payload => rfl
      | capture field marked =>
          have hbytes := Capture.bytes_ofText_eq field h
          show (field, _) :: List.filterMap Part.trimmed? parts = _
          rw [hbytes]
          rfl

/-! ### Placing and lying -/

@[simp] theorem markPayload_captures (marked : Bool) (pos : Nat) (p : Placement) :
    (markPayload marked pos p).captures = p.captures := by
  cases marked <;> rfl

@[simp] theorem markPayload_stop (marked : Bool) (pos : Nat) (p : Placement) :
    (markPayload marked pos p).stop = p.stop := by
  cases marked <;> rfl

@[simp] theorem Placement.consCapture_captures (capture : Capture) (p : Placement) :
    (p.consCapture capture).captures = capture :: p.captures := rfl

@[simp] theorem Placement.consCapture_stop (capture : Capture) (p : Placement) :
    (p.consCapture capture).stop = p.stop := rfl

/-- Elements that are placed lie in front of the message, and the captures are those of their parts. -/
theorem exists_laid {elements : Elements} {pos exact : Nat} {m : List UInt8} {p : Placement}
    (hnormal : NormalConstants elements) (h : place? elements pos exact m = some p) :
    ∃ parts behind, elementsIn parts = elements ∧ m = bytesOf parts ++ behind ∧ Laid parts behind ∧
      p.captures = capturesOf pos parts ∧ p.stop = pos + (bytesOf parts).length := by
  fun_induction place? elements pos exact m generalizing p with
  | case1 pos exact m =>
      cases h
      exact ⟨[], m, rfl, rfl, .nil, rfl, rfl⟩
  | case2 exact c rest pos m ih =>
      obtain ⟨n, hskip, hplace⟩ := Option.bind_eq_some_iff.mp h
      obtain ⟨parts, behind, rfl, hm, hlaid, hcaptures, hstop⟩ := ih n hnormal.tail hplace
      obtain ⟨a, text, after, rfl, rfl, htext, hends⟩ :=
        (skip?_eq_some_iff (hnormal c List.mem_cons_self)).mp hskip
      obtain rfl : after = bytesOf parts ++ behind := by rw [← hm, List.drop_left]
      refine ⟨⟨.constant c, spaces a ++ text⟩ :: parts, behind, rfl, ?_, .constant a htext hends hlaid,
        hcaptures, ?_⟩
      · exact (List.append_assoc ..).symm
      · rw [hstop, bytesOf_cons, Nat.add_assoc, ← List.length_append]
  | case3 rest pos exact m ih =>
      obtain ⟨q, hplace, rfl⟩ := Option.map_eq_some_iff.mp h
      obtain ⟨parts, behind, rfl, rfl, hlaid, hcaptures, hstop⟩ := ih hnormal.tail hplace
      exact ⟨⟨.payload, []⟩ :: parts, behind, rfl, rfl, .payload hlaid, hcaptures, hstop⟩
  | case4 exact field marked c rest pos m ih =>
      obtain ⟨⟨start, length⟩, hfind, hfound⟩ := Option.bind_eq_some_iff.mp h
      obtain ⟨q, hplace, heq⟩ := Option.bind_eq_some_iff.mp hfound
      obtain rfl := Option.some.inj heq
      obtain ⟨parts, behind, rfl, hm, hlaid, hcaptures, hstop⟩ :=
        ih start length hnormal.tail.tail hplace
      obtain ⟨before, text, after, rfl, rfl, hlen, htext, hends, hfirst⟩ :=
        exists_of_find? (hnormal c (List.mem_cons_of_mem _ List.mem_cons_self)) hfind
      have hend : before.length + length +
          leadingSpaces ((before ++ (text ++ after)).drop (before.length + length)) =
            (before ++ text).length := by
        rw [List.length_append, hlen, Nat.add_assoc]
      obtain rfl : after = bytesOf parts ++ behind := by
        rw [← hm, hend, ← List.append_assoc, List.drop_left]
      refine ⟨⟨.capture field marked, before⟩ :: ⟨.constant c, text⟩ :: parts, behind, rfl, ?_,
        .field htext hends hfirst hlaid, ?_, ?_⟩
      · rw [bytesOf_cons, bytesOf_cons, List.append_assoc, List.append_assoc]
      · rw [markPayload_captures, Placement.consCapture_captures, hcaptures, List.take_left,
          Nat.add_assoc pos, hend, List.length_append, ← Nat.add_assoc]
        rfl
      · rw [markPayload_stop, Placement.consCapture_stop, hstop, Nat.add_assoc pos, hend, bytesOf_cons,
          bytesOf_cons]
        simp only [List.length_append]
        omega
  | case5 exact field marked rest pos m hnext stop =>
      rename_i ih
      obtain ⟨q, hplace, heq⟩ := Option.bind_eq_some_iff.mp h
      obtain rfl := Option.some.inj heq
      obtain ⟨parts, behind, rfl, hnil, hlaid, hcaptures, hstop⟩ := ih hnormal.tail hplace
      obtain ⟨hparts, rfl⟩ := List.append_eq_nil_iff.mp hnil.symm
      refine ⟨⟨.capture field marked, m⟩ :: parts, [], rfl, ?_, .last (fun c rest => hnext c rest)
        hparts hlaid, ?_, ?_⟩
      · rw [bytesOf_cons, hparts, List.append_nil, List.append_nil]
      · rw [markPayload_captures, Placement.consCapture_captures, hcaptures]
        rfl
      · rw [markPayload_stop, Placement.consCapture_stop, hstop, bytesOf_cons, hparts, List.append_nil]
        rfl

/-- The element is a capture with which the payload starts. -/
def Element.isMarked : Element → Bool
  | capture _ marked => marked
  | _ => false

/-- Where the marked captures of some parts start, the first of which starts at `pos`. -/
def marksOf : Nat → List Part → List Nat
  | _, [] => []
  | pos, part :: parts => (if part.element.isMarked then [pos] else []) ++ marksOf (pos + part.bytes.length) parts

theorem markPayload_payload? (marked : Bool) (pos : Nat) (p : Placement) :
    (markPayload marked pos p).payload? = p.payload?.or (if marked then some pos else none) := by
  cases marked with
  | false => exact (Option.or_none (o := p.payload?)).symm
  | true => rfl

/-- The mark of a part stands before those behind it, of which the last one counts. -/
theorem getLast?_marksOf_cons (pos : Nat) (part : Part) (parts : List Part) :
    (marksOf pos (part :: parts)).getLast? =
      (marksOf (pos + part.bytes.length) parts).getLast?.or
        (if part.element.isMarked then some pos else none) := by
  rw [marksOf, List.getLast?_append]
  cases part.element.isMarked <;> rfl

/-- A constant at its place is skipped. -/
theorem place?_laid_constant {c text behind : List UInt8} {parts : List Part} (hc : Normal c) (a : Nat)
    (htext : StandsFor c text) (hends : EndsAt c text (bytesOf parts ++ behind)) (pos exact : Nat) :
    place? (.constant c :: elementsIn parts) pos exact
        (bytesOf (⟨.constant c, spaces a ++ text⟩ :: parts) ++ behind) =
      place? (elementsIn parts) (pos + (spaces a ++ text).length) (pos + (spaces a ++ text).length)
        (bytesOf parts ++ behind) := by
  have hskip : skip? c (bytesOf (⟨.constant c, spaces a ++ text⟩ :: parts) ++ behind) =
      some (spaces a ++ text).length :=
    (skip?_eq_some_iff hc).mpr ⟨a, text, bytesOf parts ++ behind, List.append_assoc .., rfl, htext, hends⟩
  have hdrop : (bytesOf (⟨.constant c, spaces a ++ text⟩ :: parts) ++ behind).drop
      (spaces a ++ text).length = bytesOf parts ++ behind := by
    rw [bytesOf_cons, List.append_assoc, List.drop_left]
  rw [place?, hskip, Option.bind_eq_bind, Option.bind_some, hdrop]

/-- The constant behind a capture is found where it lies. -/
theorem place?_laid_field (name : String) (marked : Bool) {c before text behind : List UInt8}
    {parts : List Part} (hc : Normal c) (htext : StandsFor c text)
    (hends : (bytesOf parts ++ behind).head? ≠ some space)
    (hfirst : ∀ k < before.length, ¬ Occurs c ((before ++ (text ++ (bytesOf parts ++ behind))).drop k))
    (pos exact : Nat) :
    ∃ length, find? c (before ++ (text ++ (bytesOf parts ++ behind))) = some (before.length, length) ∧
      place? (.capture name marked :: .constant c :: elementsIn parts) pos exact
          (bytesOf (⟨.capture name marked, before⟩ :: ⟨.constant c, text⟩ :: parts) ++ behind) =
        (place? (elementsIn parts) (pos + before.length + text.length) (pos + (before.length + length))
          (bytesOf parts ++ behind)).map
            fun p => markPayload marked pos (p.consCapture (.ofText name pos before)) := by
  obtain ⟨length, hfind, hlen⟩ := exists_find? hc htext hends hfirst
  refine ⟨length, hfind, ?_⟩
  have hm : bytesOf (⟨.capture name marked, before⟩ :: ⟨.constant c, text⟩ :: parts) ++ behind =
      before ++ (text ++ (bytesOf parts ++ behind)) := by
    rw [bytesOf_cons, bytesOf_cons, List.append_assoc, List.append_assoc]
  have hdrop : (before ++ (text ++ (bytesOf parts ++ behind))).drop (before.length + length +
      leadingSpaces ((before ++ (text ++ (bytesOf parts ++ behind))).drop
        (before.length + length))) = bytesOf parts ++ behind := by
    rw [Nat.add_assoc, ← hlen, ← List.append_assoc, ← List.length_append, List.drop_left]
  have hpos : pos + (before.length + length) + leadingSpaces ((before ++ (text ++
      (bytesOf parts ++ behind))).drop (before.length + length)) =
        pos + before.length + text.length := by
    rw [hlen]
    omega
  rw [hm, place?, hfind, Option.bind_eq_bind, Option.bind_some]
  dsimp only
  rw [hdrop, hpos, List.take_left, Option.map_eq_bind]
  rfl

/-- A capture with no constant behind it takes all that is left. -/
theorem place?_laid_last {name : String} {marked : Bool} {bytes : List UInt8} {parts : List Part}
    (hnext : ∀ c rest, elementsIn parts ≠ .constant c :: rest) (hnone : bytesOf parts = [])
    (pos exact : Nat) :
    place? (.capture name marked :: elementsIn parts) pos exact
        (bytesOf (⟨.capture name marked, bytes⟩ :: parts) ++ []) =
      (place? (elementsIn parts) (pos + bytes.length) (pos + bytes.length) (bytesOf parts ++ [])).map
        fun p => markPayload marked pos (p.consCapture (.ofText name pos bytes)) := by
  rw [bytesOf_cons, hnone, List.append_nil, List.append_nil, List.append_nil, place?, Option.map_eq_bind]
  · rfl
  · exact hnext

/-- Elements that lie in front of a message are placed there, and the payload starts with the last capture that is
marked. -/
theorem place?_of_laid {parts : List Part} {behind : List UInt8} (h : Laid parts behind)
    (hnormal : NormalConstants (elementsIn parts)) (pos exact : Nat) :
    ∃ p, place? (elementsIn parts) pos exact (bytesOf parts ++ behind) = some p ∧
      p.captures = capturesOf pos parts ∧ p.stop = pos + (bytesOf parts).length ∧
      (.payload ∉ elementsIn parts → p.payload? = (marksOf pos parts).getLast?) := by
  induction h generalizing pos exact with
  | nil => exact ⟨.empty pos, rfl, rfl, rfl, fun _ => rfl⟩
  | @constant c text behind parts a htext hends hrest ih =>
      obtain ⟨p, hp, hcaptures, hstop, hpayload⟩ := ih hnormal.tail (pos + (spaces a ++ text).length)
        (pos + (spaces a ++ text).length)
      refine ⟨p, ?_, hcaptures, ?_, fun hnone => ?_⟩
      · rw [elementsIn_cons, place?_laid_constant (hnormal c List.mem_cons_self) a htext hends]
        exact hp
      · rw [hstop, bytesOf_cons]
        simp only [List.length_append]
        omega
      · exact hpayload fun hmem => hnone (List.mem_cons_of_mem _ hmem)
  | payload hrest ih =>
      obtain ⟨p, hp, hcaptures, hstop, -⟩ := ih hnormal.tail pos exact
      refine ⟨p.consPayload exact, ?_, hcaptures, hstop, fun hnone => absurd List.mem_cons_self hnone⟩
      rw [elementsIn_cons, place?]
      exact congrArg (Option.map (·.consPayload exact)) hp
  | @field name marked c before text behind parts htext hends hfirst hrest ih =>
      obtain ⟨length, -, hplace⟩ := place?_laid_field name marked
        (hnormal c (List.mem_cons_of_mem _ List.mem_cons_self)) htext hends hfirst pos exact
      obtain ⟨p, hp, hcaptures, hstop, hpayload⟩ := ih hnormal.tail.tail (pos + before.length + text.length)
        (pos + (before.length + length))
      refine ⟨markPayload marked pos (p.consCapture (.ofText name pos before)), ?_, ?_, ?_, fun hnone => ?_⟩
      · rw [elementsIn_cons, elementsIn_cons, hplace, hp]
        rfl
      · rw [markPayload_captures, Placement.consCapture_captures, hcaptures]
        rfl
      · rw [markPayload_stop, Placement.consCapture_stop, hstop, bytesOf_cons, bytesOf_cons]
        simp only [List.length_append]
        omega
      · rw [getLast?_marksOf_cons, markPayload_payload?]
        congr 1
        exact hpayload fun hmem => hnone (List.mem_cons_of_mem _ (List.mem_cons_of_mem _ hmem))
  | @last name marked bytes parts hnext hnone hrest ih =>
      obtain ⟨p, hp, hcaptures, hstop, hpayload⟩ := ih hnormal.tail (pos + bytes.length) (pos + bytes.length)
      refine ⟨markPayload marked pos (p.consCapture (.ofText name pos bytes)), ?_, ?_, ?_, fun hplain => ?_⟩
      · rw [elementsIn_cons, place?_laid_last hnext hnone, hp]
        rfl
      · rw [markPayload_captures, Placement.consCapture_captures, hcaptures]
        rfl
      · rw [markPayload_stop, Placement.consCapture_stop, hstop, bytesOf_cons, hnone, List.append_nil]
        rfl
      · rw [getLast?_marksOf_cons, markPayload_payload?]
        congr 1
        exact hpayload fun hmem => hplain (List.mem_cons_of_mem _ hmem)

theorem place?_isSome_of_laid {parts : List Part} {behind : List UInt8} (h : Laid parts behind)
    (hnormal : NormalConstants (elementsIn parts)) (pos exact : Nat) :
    (place? (elementsIn parts) pos exact (bytesOf parts ++ behind)).isSome := by
  obtain ⟨p, hp, -⟩ := place?_of_laid h hnormal pos exact
  rw [hp]
  rfl

/-- The elements of an alternative are placed exactly when they can lie in front of the message. -/
theorem place?_isSome_iff {elements : Elements} (hnormal : NormalConstants elements)
    (pos exact : Nat) (m : List UInt8) :
    (place? elements pos exact m).isSome ↔ CanLie elements m := by
  constructor
  · intro h
    obtain ⟨p, hp⟩ := Option.isSome_iff_exists.mp h
    obtain ⟨parts, behind, helements, hm, hlaid, -, -⟩ := exists_laid hnormal hp
    exact ⟨parts, behind, helements, hm, hlaid⟩
  · rintro ⟨parts, behind, rfl, rfl, hlaid⟩
    exact place?_isSome_of_laid hlaid hnormal pos exact

/-- The payload starts where a later element says, or at `start`. -/
theorem Placement.mem_consPayload {start at' : Nat} {p : Placement}
    (h : at' ∈ (p.consPayload start).payload?) : at' ∈ p.payload? ∨ at' = start := by
  unfold consPayload at h
  cases hp : p.payload? with
  | none =>
      simp only [hp, Option.none_or, Option.mem_def, Option.some.injEq] at h
      exact .inr h.symm
  | some first =>
      simp only [hp, Option.some_or] at h
      exact .inl h

/-- What is placed reaches from `pos` to its end, and the payload starts before the end. -/
def Placement.Within (pos : Nat) (p : Placement) : Prop :=
  pos ≤ p.stop ∧ ∀ start ∈ p.payload?, start ≤ p.stop

theorem Placement.Within.consPayload {pos start : Nat} {p : Placement} (h : p.Within pos)
    (hstart : start ≤ pos) : (p.consPayload start).Within pos := by
  refine ⟨h.1, fun at' hmem => ?_⟩
  rcases mem_consPayload hmem with hmem | rfl
  · exact h.2 at' hmem
  · exact hstart.trans h.1

theorem Placement.Within.markPayload {pos : Nat} {p : Placement} (h : p.Within pos) (marked : Bool) :
    (markPayload marked pos p).Within pos := by
  cases marked with
  | false => exact h
  | true => exact h.consPayload (Nat.le_refl pos)

theorem Placement.Within.mono {pos before : Nat} {p : Placement} (h : p.Within pos)
    (hbefore : before ≤ pos) : p.Within before := ⟨hbefore.trans h.1, h.2⟩

theorem within_of_place? {elements : Elements} {pos exact : Nat} {m : List UInt8} {p : Placement}
    (hexact : exact ≤ pos) (h : place? elements pos exact m = some p) : p.Within pos := by
  fun_induction place? elements pos exact m generalizing p with
  | case1 pos exact m =>
      cases h
      exact ⟨Nat.le_refl _, fun _ hmem => nomatch hmem⟩
  | case2 exact c rest pos m ih =>
      obtain ⟨n, -, hplace⟩ := Option.bind_eq_some_iff.mp h
      exact (ih n (Nat.le_refl _) hplace).mono (Nat.le_add_right pos n)
  | case3 rest pos exact m ih =>
      obtain ⟨q, hplace, rfl⟩ := Option.map_eq_some_iff.mp h
      exact (ih hexact hplace).consPayload hexact
  | case4 exact field marked c rest pos m ih =>
      obtain ⟨⟨start, length⟩, -, hfound⟩ := Option.bind_eq_some_iff.mp h
      obtain ⟨q, hplace, heq⟩ := Option.bind_eq_some_iff.mp hfound
      obtain rfl := Option.some.inj heq
      have hrest := ih start length (Nat.le_add_right _ _) hplace
      have hpos : q.Within pos := hrest.mono (by omega)
      exact Placement.Within.markPayload (p := q.consCapture _) hpos marked
  | case5 exact field marked rest pos m hnext stop =>
      rename_i ih
      obtain ⟨q, hplace, heq⟩ := Option.bind_eq_some_iff.mp h
      obtain rfl := Option.some.inj heq
      have hpos : q.Within pos := (ih (Nat.le_refl _) hplace).mono (Nat.le_add_right pos m.length)
      exact Placement.Within.markPayload (p := q.consCapture _) hpos marked

theorem Placement.Within.append {pos : Nat} {first second : Placement} (hfirst : first.Within pos)
    (hsecond : second.Within first.stop) : (first.append second).Within pos := by
  refine ⟨hfirst.1.trans hsecond.1, fun start hmem => ?_⟩
  unfold Placement.append at hmem ⊢
  dsimp only at hmem ⊢
  cases hpayload : first.payload? with
  | none =>
      rw [hpayload, Option.none_or] at hmem
      exact hsecond.2 start hmem
  | some s =>
      rw [hpayload, Option.some_or] at hmem
      exact (hfirst.2 start (hpayload ▸ hmem)).trans hsecond.1

/-! ### Chunks -/

/-- The alternative of a chunk that is taken, by its number, with the parts of its elements. -/
structure Commitment where
  alternative : Nat
  parts : List Part

/-- The parts of some commitments. -/
def partsOf (commitments : List Commitment) : List Part := commitments.flatMap Commitment.parts

/-- Chunks cut `m` up to `rest`: each takes its first alternative that can lie where the chunk before
ended. -/
inductive Cut : List Chunk → List Commitment → (m rest : List UInt8) → Prop
  | nil {rest : List UInt8} : Cut [] [] rest rest
  | cons {chunk : Chunk} {chunks : List Chunk} {i : Nat} {parts : List Part}
      {commitments : List Commitment} {behind rest : List UInt8}
      (hchunk : chunk.alternatives[i]? = some (elementsIn parts)) (hlaid : Laid parts behind)
      (hfirst : ∀ elements ∈ chunk.alternatives.take i, ¬ CanLie elements (bytesOf parts ++ behind))
      (hrest : Cut chunks commitments behind rest) :
      Cut (chunk :: chunks) (⟨i, parts⟩ :: commitments) (bytesOf parts ++ behind) rest

/-- Some chunk is reached that has no alternative for what is left of the message. -/
def Stuck (chunks : List Chunk) (m : List UInt8) : Prop :=
  ∃ done chunk others commitments rest, chunks = done ++ chunk :: others ∧
    Cut done commitments m rest ∧ ∀ elements ∈ chunk.alternatives, ¬ CanLie elements rest

/-- The numbers of the alternatives that matched. -/
def matchedIn (tried : List Attempt) : List Nat :=
  (tried.filter Attempt.matched).map Attempt.alternative

theorem Cut.bytes {chunks : List Chunk} {commitments : List Commitment} {m rest : List UInt8}
    (h : Cut chunks commitments m rest) : m = bytesOf (partsOf commitments) ++ rest := by
  induction h with
  | nil => rfl
  | @cons chunk chunks i parts commitments behind rest hchunk hlaid hfirst hrest ih =>
      have hparts : partsOf (⟨i, parts⟩ :: commitments) = parts ++ partsOf commitments := rfl
      rw [hparts, bytesOf_append, List.append_assoc, ← ih]

theorem chooseFrom?_eq_some {pos number i : Nat} {m : List UInt8} {alternatives : List Elements}
    {p : Placement} (h : chooseFrom? pos m number alternatives = some (i, p)) :
    ∃ k elements, i = number + k ∧ alternatives[k]? = some elements ∧
      place? elements pos pos m = some p ∧
      ∀ other ∈ alternatives.take k, place? other pos pos m = none := by
  induction alternatives generalizing number with
  | nil => cases h
  | cons elements alternatives ih =>
      rw [chooseFrom?] at h
      cases hplace : place? elements pos pos m with
      | some q =>
          rw [hplace] at h
          obtain ⟨rfl, rfl⟩ := Prod.mk.inj (Option.some.inj h)
          exact ⟨0, elements, rfl, rfl, hplace, fun _ hmem => nomatch hmem⟩
      | none =>
          rw [hplace] at h
          obtain ⟨k, other, rfl, hother, hp, hfirst⟩ := ih h
          refine ⟨k + 1, other, by omega, hother, hp, ?_⟩
          rw [List.take_succ_cons, List.forall_mem_cons]
          exact ⟨hplace, hfirst⟩

theorem chooseFrom?_eq_none {pos number : Nat} {m : List UInt8} {alternatives : List Elements} :
    chooseFrom? pos m number alternatives = none ↔
      ∀ elements ∈ alternatives, place? elements pos pos m = none := by
  induction alternatives generalizing number with
  | nil => simp [chooseFrom?]
  | cons elements alternatives ih =>
      rw [chooseFrom?, List.forall_mem_cons]
      cases hplace : place? elements pos pos m with
      | some q => simp
      | none => simpa using ih

theorem matchedIn_append (first second : List Attempt) :
    matchedIn (first ++ second) = matchedIn first ++ matchedIn second := by
  simp [matchedIn]

theorem matchedIn_failures (chunk count : Nat) : matchedIn (failures chunk count) = [] := by
  simp [matchedIn, failures]

/-- The alternative that a chunk takes is the first that can lie in front of the message. -/
theorem exists_of_choose? {chunk : Chunk} (hnormal : ∀ elements ∈ chunk.alternatives,
    NormalConstants elements) {pos i : Nat} {m : List UInt8} {p : Placement}
    (h : chunk.choose? pos m = some (i, p)) :
    p.Within pos ∧ ∃ parts behind, chunk.alternatives[i]? = some (elementsIn parts) ∧
      m = bytesOf parts ++ behind ∧ Laid parts behind ∧
      (∀ elements ∈ chunk.alternatives.take i, ¬ CanLie elements m) ∧
      p.captures = capturesOf pos parts ∧ p.stop = pos + (bytesOf parts).length := by
  obtain ⟨k, elements, hi, helements, hplace, hfirst⟩ := chooseFrom?_eq_some h
  obtain rfl : i = k := by omega
  have hmem := List.mem_of_getElem? helements
  obtain ⟨parts, behind, rfl, hm, hlaid, hcaptures, hstop⟩ := exists_laid (hnormal _ hmem) hplace
  refine ⟨within_of_place? (Nat.le_refl pos) hplace, parts, behind, helements, hm, hlaid, ?_,
    hcaptures, hstop⟩
  intro other hother hlies
  have hnone := hfirst other hother
  have hsome := (place?_isSome_iff (hnormal other (List.mem_of_mem_take hother)) pos pos m).mpr hlies
  rw [hnone] at hsome
  cases hsome

theorem placeChunks_cons {chunk : Chunk} {pos i : Nat} {m : List UInt8} {p : Placement}
    (h : chunk.choose? pos m = some (i, p)) (number : Nat) (chunks : List Chunk) :
    placeChunks number pos m (chunk :: chunks) =
      (failures number i ++ ⟨number, i, true⟩ ::
        (placeChunks (number + 1) p.stop (m.drop (p.stop - pos)) chunks).1,
      (placeChunks (number + 1) p.stop (m.drop (p.stop - pos)) chunks).2.map p.append) := by
  rw [placeChunks, h]

/-- Chunks that are placed cut the message, and the captures are those of their parts. -/
theorem exists_cut {chunks : List Chunk} (hnormal : NormalChunks chunks) {number pos : Nat}
    {m : List UInt8} {p : Placement} (h : (placeChunks number pos m chunks).2 = some p) :
    p.Within pos ∧ ∃ commitments rest, Cut chunks commitments m rest ∧
      matchedIn (placeChunks number pos m chunks).1 = commitments.map Commitment.alternative ∧
      p.captures = capturesOf pos (partsOf commitments) ∧
      p.stop = pos + (bytesOf (partsOf commitments)).length := by
  induction chunks generalizing number pos m p with
  | nil =>
      cases h
      exact ⟨⟨Nat.le_refl pos, fun _ hmem => nomatch hmem⟩, [], m, .nil, rfl, rfl, rfl⟩
  | cons chunk chunks ih =>
      cases hchoose : chunk.choose? pos m with
      | none =>
          rw [placeChunks, hchoose] at h
          cases h
      | some choice =>
          obtain ⟨i, q⟩ := choice
          rw [placeChunks_cons hchoose] at h ⊢
          obtain ⟨hwithin, parts, behind, hchunk, rfl, hlaid, hfirst, hcaptures, hstop⟩ :=
            exists_of_choose? (hnormal chunk List.mem_cons_self) hchoose
          obtain ⟨r, hr, rfl⟩ := Option.map_eq_some_iff.mp h
          have hdrop : (bytesOf parts ++ behind).drop (q.stop - pos) = behind := by
            rw [hstop, Nat.add_sub_cancel_left, List.drop_left]
          rw [hdrop] at hr ⊢
          obtain ⟨hrestwithin, commitments, rest, hcut, hmatched, hrest, hend⟩ :=
            ih (fun c hc => hnormal c (List.mem_cons_of_mem _ hc)) hr
          have hparts : partsOf (⟨i, parts⟩ :: commitments) = parts ++ partsOf commitments := rfl
          refine ⟨hwithin.append hrestwithin, ⟨i, parts⟩ :: commitments, rest,
            .cons hchunk hlaid hfirst hcut, ?_, ?_, ?_⟩
          · dsimp only
            rw [matchedIn_append, matchedIn_failures, List.map_cons, ← hmatched]
            rfl
          · rw [hparts, capturesOf_append, ← hstop, ← hcaptures, ← hrest]
            rfl
          · rw [hparts, bytesOf_append, List.length_append, ← Nat.add_assoc, ← hstop, ← hend]
            rfl

/-- Chunks that are not placed are stuck. -/
theorem stuck_of_placeChunks {chunks : List Chunk} (hnormal : NormalChunks chunks) {number pos : Nat}
    {m : List UInt8} (h : (placeChunks number pos m chunks).2 = none) : Stuck chunks m := by
  induction chunks generalizing number pos m with
  | nil => cases h
  | cons chunk chunks ih =>
      have hchunk := hnormal chunk List.mem_cons_self
      cases hchoose : chunk.choose? pos m with
      | none =>
          refine ⟨[], chunk, chunks, [], m, rfl, .nil, fun elements hmem hlies => ?_⟩
          have hsome := (place?_isSome_iff (hchunk elements hmem) pos pos m).mpr hlies
          rw [chooseFrom?_eq_none.mp hchoose elements hmem] at hsome
          cases hsome
      | some choice =>
          obtain ⟨i, q⟩ := choice
          rw [placeChunks_cons hchoose] at h
          obtain ⟨-, parts, behind, hi, rfl, hlaid, hfirst, -, hstop⟩ := exists_of_choose? hchunk hchoose
          have hdrop : (bytesOf parts ++ behind).drop (q.stop - pos) = behind := by
            rw [hstop, Nat.add_sub_cancel_left, List.drop_left]
          rw [hdrop] at h
          obtain ⟨done, next, others, commitments, rest, rfl, hcut, hnone⟩ :=
            ih (fun c hc => hnormal c (List.mem_cons_of_mem _ hc)) (Option.map_eq_none_iff.mp h)
          exact ⟨chunk :: done, next, others, ⟨i, parts⟩ :: commitments, rest, rfl,
            .cons hi hlaid hfirst hcut, hnone⟩

/-! ### Matches -/

/-- What a matcher finds in a message is a decomposition of the message along the commitments. -/
structure Decomposes (matcher : Matcher) (message : List UInt8) (found : Match)
    (commitments : List Commitment) (behind : List UInt8) : Prop where
  cut : Cut matcher.chunks commitments message behind
  committed : matchedIn (matcher.attempts message).1 = commitments.map Commitment.alternative
  captures : found.captures = capturesOf 0 (partsOf commitments)
  texts : textsOf found.captures message = (partsOf commitments).filterMap Part.trimmed?
  inOrder : InOrder found.captures message
  rest_le : found.rest ≤ message.length

/-- A match is a decomposition of the message. -/
theorem exists_decomposes {p : Pattern} {matcher : Matcher} (h : Matcher.ofPattern p = .ok matcher)
    {message : List UInt8} {found : Match} (hrun : matcher.run message = some found) :
    ∃ commitments behind, Decomposes matcher message found commitments behind := by
  obtain ⟨placement, hplace, rfl⟩ := Option.map_eq_some_iff.mp hrun
  obtain ⟨hwithin, commitments, behind, hcut, hmatched, hcaptures, hstop⟩ :=
    exists_cut (normal_of_ofPattern h) hplace
  have hbytes := hcut.bytes
  have htexts : textsOf placement.captures message = (partsOf commitments).filterMap Part.trimmed? := by
    rw [hcaptures]
    exact textsOf_capturesOf hbytes
  have hinorder : InOrder placement.captures message := by
    rw [hcaptures, hbytes]
    exact inOrder_capturesOf (partsOf commitments) behind
  refine ⟨commitments, behind, hcut, hmatched, hcaptures, htexts, hinorder, ?_⟩
  have hle : placement.stop ≤ message.length := by
    rw [hstop, hbytes, List.length_append]
    omega
  dsimp only
  split
  · exact Nat.zero_le _
  · cases hpayload : placement.payload? with
    | none => exact hle
    | some start => exact (hwithin.2 start hpayload).trans hle

/-- A match is a decomposition of the message into the bytes of one alternative for each chunk, and
without a match some chunk is reached that has no alternative for what is left. -/
theorem run_decomposes {p : Pattern} {matcher : Matcher} (h : Matcher.ofPattern p = .ok matcher)
    (message : List UInt8) :
    (∀ found, matcher.run message = some found →
      ∃ commitments behind, Decomposes matcher message found commitments behind) ∧
    (matcher.run message = none → Stuck matcher.chunks message) :=
  ⟨fun _ hrun => exists_decomposes h hrun,
    fun hrun => stuck_of_placeChunks (normal_of_ofPattern h) (Option.map_eq_none_iff.mp hrun)⟩

/-- `<a>:{x|<b>,}` takes its second branch in `k :  b  ,z` and is stuck in `k: b`. -/
theorem run_decomposes_branches :
    (∃ commitments behind, Decomposes
      ⟨[⟨[[.capture "a" false, .constant [58]]]⟩,
        ⟨[[.constant [120]], [.capture "b" false, .constant [44]]]⟩], false⟩
      [107, 32, 58, 32, 32, 98, 32, 32, 44, 122] ⟨[⟨"a", 0, 1⟩, ⟨"b", 5, 6⟩], 9⟩ commitments behind) ∧
    Stuck [⟨[[.capture "a" false, .constant [58]]]⟩,
      ⟨[[.constant [120]], [.capture "b" false, .constant [44]]]⟩] [107, 58, 32, 98] := by
  have hmatcher : Matcher.ofPattern [.value (.field "a"), .value (.constant ":"),
      .alternatives [[.value (.constant "x")], [.value (.field "b"), .value (.constant ",")]]] =
      .ok ⟨[⟨[[.capture "a" false, .constant [58]]]⟩,
        ⟨[[.constant [120]], [.capture "b" false, .constant [44]]]⟩], false⟩ :=
    eq_ok_of_toOption (by decide +kernel)
  exact ⟨(run_decomposes hmatcher _).1 _ (by decide), (run_decomposes hmatcher _).2 (by decide)⟩

end LogRules.Matching

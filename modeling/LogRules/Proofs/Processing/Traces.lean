import LogRules.Proofs.Processing.Watching

/-! # Well-formed traces

The events of a run tell of every rule that is run, on its message and in its place (`Tells`): the rule starts,
its alternatives are tried, and it ends; a rule that matched tells its captures, the runs of its actions and the
rest of the message in between. So every start is closed by the end of its rule (`stillOpen?_append`). The most
detailed trace has the lines of every event (`shows_veryVerbose`), and a less detailed trace is a more detailed one
without the lines of some events (`lines_default`, `lines_verbose`). -/

namespace LogRules

open Matching

/-! ### Attempts of a matcher -/

namespace Matching

/-- In every chunk some alternatives fail, and the next one is taken. -/
inductive Commits : (number : Nat) → List Chunk → List Attempt → Prop
  | nil {number : Nat} : Commits number [] []
  | cons {number i : Nat} {chunk : Chunk} {chunks : List Chunk} {tried : List Attempt}
      (hi : i < chunk.alternatives.length) (hrest : Commits (number + 1) chunks tried) :
      Commits number (chunk :: chunks)
        ((List.range i).map (⟨number, ·, false⟩) ++ ⟨number, i, true⟩ :: tried)

/-- In some chunk all alternatives fail; the chunks in front of it take one. -/
inductive Stops : (number : Nat) → List Chunk → List Attempt → Prop
  | here {number : Nat} {chunk : Chunk} {chunks : List Chunk} :
      Stops number (chunk :: chunks) ((List.range chunk.alternatives.length).map (⟨number, ·, false⟩))
  | later {number i : Nat} {chunk : Chunk} {chunks : List Chunk} {tried : List Attempt}
      (hi : i < chunk.alternatives.length) (hrest : Stops (number + 1) chunks tried) :
      Stops number (chunk :: chunks)
        ((List.range i).map (⟨number, ·, false⟩) ++ ⟨number, i, true⟩ :: tried)

theorem lt_of_choose? {chunk : Chunk} {pos i : Nat} {m : List UInt8} {p : Placement}
    (h : chunk.choose? pos m = some (i, p)) : i < chunk.alternatives.length := by
  obtain ⟨k, elements, rfl, helements, -⟩ := chooseFrom?_eq_some h
  rw [Nat.zero_add]
  exact (List.getElem?_eq_some_iff.mp helements).1

/-- Chunks that are placed commit to an alternative each, and others stop at one that has none. -/
theorem placeChunks_attempts (number pos : Nat) (m : List UInt8) (chunks : List Chunk) :
    ((placeChunks number pos m chunks).2 ≠ none → Commits number chunks (placeChunks number pos m chunks).1) ∧
      ((placeChunks number pos m chunks).2 = none → Stops number chunks (placeChunks number pos m chunks).1) := by
  induction chunks generalizing number pos m with
  | nil => exact ⟨fun _ => .nil, nofun⟩
  | cons chunk chunks ih =>
      cases hchoose : chunk.choose? pos m with
      | none =>
          rw [placeChunks, hchoose]
          exact ⟨fun h => absurd rfl h, fun _ => .here⟩
      | some choice =>
          obtain ⟨i, p⟩ := choice
          have hi := lt_of_choose? hchoose
          rw [placeChunks_cons hchoose]
          dsimp only
          rw [Ne, Option.map_eq_none_iff]
          exact ⟨fun h => .cons hi ((ih ..).1 h), fun h => .later hi ((ih ..).2 h)⟩

end Matching

theorem Matcher.commits_of_attempts {matcher : Matcher} {message : List UInt8} {tried : List Attempt}
    {found : Match} (h : matcher.attempts message = (tried, some found)) : Commits 0 matcher.chunks tried := by
  obtain ⟨rfl, hfound⟩ := Prod.mk.inj h
  refine (placeChunks_attempts 0 0 message matcher.chunks).1 fun hnone => ?_
  rw [hnone] at hfound
  cases hfound

theorem Matcher.stops_of_attempts {matcher : Matcher} {message : List UInt8} {tried : List Attempt}
    (h : matcher.attempts message = (tried, none)) : Stops 0 matcher.chunks tried := by
  obtain ⟨rfl, hfound⟩ := Prod.mk.inj h
  exact (placeChunks_attempts 0 0 message matcher.chunks).2 (Option.map_eq_none_iff.mp hfound)

/-! ### Runs of rules -/

/-- What there is to run: a program, programs in order, or programs in order until one succeeds. -/
inductive Task where
  | one (p : Program)
  | all (programs : List Program)
  | first (programs : List Program)

/-- The events are those of the rules that run, each told where it is run. The events of a rule stand between its
start and its end: the alternatives of its matcher, and if it matched, its captures, the events of its actions, and
what it leaves of the message. Nothing else has events. -/
inductive Tells (settings : Settings) : Task → State → List Event → Prop
  | chain {programs : List Program} {s : State} {events : List Event}
      (h : Tells settings (.all programs) s events) : Tells settings (.one (.chain programs)) s events
  | linearSelect {programs : List Program} {s : State} {events : List Event}
      (h : Tells settings (.first programs) s events) : Tells settings (.one (.linearSelect programs)) s events
  | chosen {programs : List (String × Program)} {s : State} {events : List Event} {id key : String} {p : Program}
      (hid : s.fields.get? messageIdField = some id) (hfind : programs.find? (·.1 = id) = some (key, p))
      (h : Tells settings (.one p) s events) : Tells settings (.one (.messageIdSelect programs)) s events
  | notChosen {programs : List (String × Program)} {s : State}
      (h : ∀ id, s.fields.get? messageIdField = some id → programs.find? (·.1 = id) = none) :
      Tells settings (.one (.messageIdSelect programs)) s []
  | unmatched {id : String} {matcher : Matcher} {onSuccess : List Program} {s : State} {tried : List Attempt}
      (hrun : matcher.attempts s.message = (tried, none)) (hstops : Stops 0 matcher.chunks tried) :
      Tells settings (.one (.matchRule id matcher onSuccess)) s
        (.enter id s.message :: tried.map .attempt ++ [.exit id false])
  | matched {id : String} {matcher : Matcher} {onSuccess : List Program} {s : State} {tried : List Attempt}
      {found : Match} {inner : List Event} (hrun : matcher.attempts s.message = (tried, some found))
      (hcommits : Commits 0 matcher.chunks tried)
      (hinner : Tells settings (.all onSuccess)
        { s with fields := s.fields.insertAll (found.values s.message) } inner) :
      Tells settings (.one (.matchRule id matcher onSuccess)) s
        (.enter id s.message :: tried.map .attempt
          ++ (found.values s.message).map (fun (field, value) => .capture field value) ++ inner
          ++ [.remaining (s.message.drop found.rest), .exit id true])
  | operation {op : Operation} {s : State} : Tells settings (.one (.operation op)) s []
  | noop {s : State} : Tells settings (.one .noop) s []
  | allNil {s : State} : Tells settings (.all []) s []
  | allCons {p : Program} {rest : List Program} {s : State} {events others : List Event}
      (hp : Tells settings (.one p) s events)
      (hrest : Tells settings (.all rest) (p.run settings s).noted.state others) :
      Tells settings (.all (p :: rest)) s (events ++ others)
  | firstNil {s : State} : Tells settings (.first []) s []
  | succeeds {p : Program} {rest : List Program} {s : State} {events : List Event}
      (hp : Tells settings (.one p) s events) (hsucceeds : (p.run settings s).failure? = none) :
      Tells settings (.first (p :: rest)) s events
  | fails {p : Program} {rest : List Program} {s : State} {events others : List Event}
      (hp : Tells settings (.one p) s events) (hfails : (p.run settings s).failure? ≠ none)
      (hrest : Tells settings (.first rest) (p.run settings s).state others) :
      Tells settings (.first (p :: rest)) s (events ++ others)

namespace Program

variable (settings : Settings)

theorem tells_matchRule (id : String) (matcher : Matcher) {onSuccess : List Program} (s : State)
    (h : ∀ s : State, Tells settings (.all onSuccess) s (runAll settings onSuccess s).events) :
    Tells settings (.one (matchRule id matcher onSuccess)) s
      ((matchRule id matcher onSuccess).run settings s).events := by
  rw [run]
  rcases hrun : matcher.attempts s.message with ⟨tried, match?⟩
  cases match? with
  | none => exact .unmatched hrun (Matcher.stops_of_attempts hrun)
  | some found => exact .matched hrun (Matcher.commits_of_attempts hrun) (h _)

mutual
/-- The events of a run are those of the rules that run. -/
theorem tells_run : ∀ (p : Program) (s : State), Tells settings (.one p) s (p.run settings s).events
  | chain programs, s => by
      rw [run]
      exact .chain (tells_runAll programs s)
  | linearSelect programs, s => by
      rw [run]
      exact .linearSelect (tells_runFirst programs s)
  | messageIdSelect programs, s => by
      rw [run]
      cases hid : s.fields.get? messageIdField with
      | none =>
          refine .notChosen fun id h => ?_
          rw [hid] at h
          cases h
      | some id => exact tells_runChosen hid programs
  | matchRule id matcher onSuccess, s => tells_matchRule settings id matcher s fun s' => tells_runAll onSuccess s'
  | operation op, s => by
      rw [run]
      cases op.apply settings s.fields <;> exact .operation
  | noop, s => .noop

theorem tells_runAll : ∀ (programs : List Program) (s : State),
    Tells settings (.all programs) s (runAll settings programs s).events
  | [], s => .allNil
  | p :: rest, s => by
      rw [runAll]
      exact .allCons (tells_run p s) (tells_runAll rest _)

theorem tells_runFirst : ∀ (programs : List Program) (s : State),
    Tells settings (.first programs) s (runFirst settings programs s).events
  | [], s => .firstNil
  | p :: rest, s => by
      have hfirst := tells_run p s
      rw [runFirst]
      cases hfailure : (run settings p s).failure? with
      | none => exact .succeeds hfirst hfailure
      | some e =>
          refine .fails hfirst ?_ (tells_runFirst rest _)
          rw [hfailure]
          exact Option.some_ne_none e

theorem tells_runChosen {id : String} {s : State} (hid : s.fields.get? messageIdField = some id) :
    ∀ programs : List (String × Program),
      Tells settings (.one (.messageIdSelect programs)) s (runChosen settings id programs s).events
  | [] => .notChosen fun _ _ => rfl
  | (key, p) :: rest => by
      rw [runChosen]
      split
      · next hkey => exact .chosen hid (List.find?_cons_of_pos (by simpa using hkey)) (tells_run p s)
      · next hkey =>
          have hskip : ∀ id', s.fields.get? messageIdField = some id' →
              ((key, p) :: rest).find? (·.1 = id') = rest.find? (·.1 = id') := by
            intro id' hid'
            cases hid.symm.trans hid'
            exact List.find?_cons_of_neg (by simpa using hkey)
          have hrest := tells_runChosen hid rest
          generalize (runChosen settings id rest s).events = events at hrest ⊢
          cases hrest with
          | chosen hid' hfind h => exact .chosen hid' ((hskip _ hid').trans hfind) h
          | notChosen h => exact .notChosen fun id' hid' => (hskip id' hid').trans (h id' hid')
end

end Program

/-! ### Brackets -/

/-- The rules that are open after some events, the last one first, when every end is that of the rule which was
opened last. -/
def stillOpen? : List String → List Event → Option (List String)
  | ids, [] => some ids
  | ids, .enter id _ :: rest => stillOpen? (id :: ids) rest
  | [], .exit _ _ :: _ => none
  | last :: ids, .exit id _ :: rest => if id = last then stillOpen? ids rest else none
  | ids, .attempt _ :: rest => stillOpen? ids rest
  | ids, .capture _ _ :: rest => stillOpen? ids rest
  | ids, .remaining _ :: rest => stillOpen? ids rest

theorem stillOpen?_attempts (ids : List String) (tried : List Attempt) (rest : List Event) :
    stillOpen? ids (tried.map .attempt ++ rest) = stillOpen? ids rest := by
  induction tried with
  | nil => rfl
  | cons a tried ih => rw [List.map_cons, List.cons_append, stillOpen?, ih]

theorem stillOpen?_captures (ids : List String) (values : List (String × String)) (rest : List Event) :
    stillOpen? ids (values.map (fun (field, value) => .capture field value) ++ rest) = stillOpen? ids rest := by
  induction values with
  | nil => rfl
  | cons v values ih => rw [List.map_cons, List.cons_append, stillOpen?, ih]

/-- Rules that run close what they open, and nothing else. -/
theorem Tells.stillOpen?_append {settings : Settings} {task : Task} {s : State} {events : List Event}
    (h : Tells settings task s events) (ids : List String) (rest : List Event) :
    stillOpen? ids (events ++ rest) = stillOpen? ids rest := by
  induction h generalizing ids rest with
  | chain h ih => exact ih ids rest
  | linearSelect h ih => exact ih ids rest
  | chosen hid hfind h ih => exact ih ids rest
  | unmatched hrun hstops =>
      rw [List.cons_append, List.cons_append, stillOpen?, List.append_assoc, stillOpen?_attempts,
        List.singleton_append, stillOpen?, if_pos rfl]
  | matched hrun hcommits hinner ih =>
      simp only [List.cons_append, List.append_assoc]
      rw [stillOpen?, stillOpen?_attempts, stillOpen?_captures, ih, List.nil_append, stillOpen?, stillOpen?,
        if_pos rfl]
  | allCons hp hrest ihp ihrest => rw [List.append_assoc, ihp, ihrest]
  | succeeds hp hsucceeds ih => exact ih ids rest
  | fails hp hfails hrest ihp ihrest => rw [List.append_assoc, ihp, ihrest]
  | _ => rfl

/-! ### Lines of events -/

/-- The lines of an event in the most detailed trace. -/
inductive Event.Shows : Event → List String → Prop
  | enter (id : String) (message : List UInt8) :
      Shows (.enter id message) ["-> " ++ id, "   msg " ++ Text.quoted (Text.decode message)]
  | matched (chunk alternative : Nat) : Shows (.attempt ⟨chunk, alternative, true⟩)
      ["   chunk " ++ toString chunk ++ " alternative " ++ toString alternative ++ " matched"]
  | failed (chunk alternative : Nat) : Shows (.attempt ⟨chunk, alternative, false⟩)
      ["   chunk " ++ toString chunk ++ " alternative " ++ toString alternative ++ " failed"]
  | capture (field value : String) :
      Shows (.capture field value) ["   + " ++ field ++ " = " ++ Text.quoted value]
  | remaining (message : List UInt8) :
      Shows (.remaining message) ["   rest " ++ Text.quoted (Text.decode message)]
  | exitMatched (id : String) : Shows (.exit id true) ["<- " ++ id ++ " matched"]
  | exitUnmatched (id : String) : Shows (.exit id false) ["<- " ++ id ++ " not matched"]

theorem Event.shows_lines (e : Event) : Shows e (e.lines.map TraceLine.text) := by
  rcases e with ⟨id, message⟩ | ⟨chunk, alternative, _ | _⟩ | ⟨field, value⟩ | message | ⟨id, _ | _⟩
  · exact .enter id message
  · have h := Shows.failed chunk alternative
    simpa [lines, attemptText, String.append_assoc] using h
  · have h := Shows.matched chunk alternative
    simpa [lines, attemptText, String.append_assoc] using h
  · exact .capture field value
  · exact .remaining message
  · exact .exitUnmatched id
  · exact .exitMatched id

/-! ### Less detailed traces -/

/-- The line starts like this. -/
def startsWith (start line : String) : Bool := start.toList.isPrefixOf line.toList

/-- The line is about an alternative or a captured value. -/
def isStepLine (line : String) : Bool := startsWith "   chunk " line || startsWith "   + " line

/-- The line shows a message. -/
def isMessageLine (line : String) : Bool := startsWith "   msg " line || startsWith "   rest " line

theorem startsWith_append (start rest : String) : startsWith start (start ++ rest) = true := by
  simp [startsWith]

/-- A line does not start with a text that differs from its front. -/
theorem isPrefixOf_eq_false {start front : List Char} (rest : List Char)
    (h : (start.zip front).any (fun e => e.1 != e.2) = true) : start.isPrefixOf (front ++ rest) = false := by
  induction start generalizing front with
  | nil => cases h
  | cons a start ih =>
      cases front with
      | nil => cases h
      | cons b front =>
          rw [List.cons_append, List.isPrefixOf]
          by_cases hab : a = b
          · subst hab
            rw [ih (by simpa using h), Bool.and_false]
          · rw [beq_false_of_ne hab, Bool.false_and]

theorem startsWith_eq_false {start front : String} (rest : String)
    (h : (start.toList.zip front.toList).any (fun e => e.1 != e.2) = true) :
    startsWith start (front ++ rest) = false := by
  rw [startsWith, String.toList_append]
  exact isPrefixOf_eq_false rest.toList h

namespace Event

variable (id field value : String) (message : List UInt8) (a : Attempt) (matched : Bool)

@[simp] theorem isStepLine_enterText : isStepLine (enterText id) = false := by
  rw [isStepLine, enterText, startsWith_eq_false id rfl, startsWith_eq_false id rfl, Bool.or_false]

@[simp] theorem isStepLine_attemptText : isStepLine (attemptText a) = true := by
  simp only [isStepLine, attemptText, String.append_assoc]
  rw [startsWith_append, Bool.true_or]

@[simp] theorem isStepLine_captureText : isStepLine (captureText field value) = true := by
  simp only [isStepLine, captureText, String.append_assoc]
  rw [startsWith_append, Bool.or_true]

@[simp] theorem isStepLine_exitText : isStepLine (exitText id matched) = false := by
  simp only [isStepLine, exitText, String.append_assoc]
  rw [startsWith_eq_false _ rfl, startsWith_eq_false _ rfl, Bool.or_false]

@[simp] theorem isMessageLine_enterText : isMessageLine (enterText id) = false := by
  rw [isMessageLine, enterText, startsWith_eq_false id rfl, startsWith_eq_false id rfl, Bool.or_false]

@[simp] theorem isMessageLine_attemptText : isMessageLine (attemptText a) = false := by
  simp only [isMessageLine, attemptText, String.append_assoc]
  rw [startsWith_eq_false _ rfl, startsWith_eq_false _ rfl, Bool.or_false]

@[simp] theorem isMessageLine_captureText : isMessageLine (captureText field value) = false := by
  simp only [isMessageLine, captureText, String.append_assoc]
  rw [startsWith_eq_false _ rfl, startsWith_eq_false _ rfl, Bool.or_false]

@[simp] theorem isMessageLine_exitText : isMessageLine (exitText id matched) = false := by
  simp only [isMessageLine, exitText, String.append_assoc]
  rw [startsWith_eq_false _ rfl, startsWith_eq_false _ rfl, Bool.or_false]

@[simp] theorem isMessageLine_msg : isMessageLine (messageText "msg" message) = true := by
  rw [isMessageLine, messageText, show "   " ++ "msg" ++ " " = "   msg " from rfl, startsWith_append,
    Bool.true_or]

@[simp] theorem isMessageLine_rest : isMessageLine (messageText "rest" message) = true := by
  rw [isMessageLine, messageText, show "   " ++ "rest" ++ " " = "   rest " from rfl, startsWith_append,
    Bool.or_true]

end Event

namespace Trace

theorem lines_cons (verbosity : Verbosity) (e : Event) (events : List Event) :
    lines verbosity (e :: events) = lines verbosity [e] ++ lines verbosity events := by
  simp [lines]

/-- The default trace is the verbose one without the lines of alternatives and captured values. -/
theorem lines_default (events : List Event) :
    lines .default events = (lines .verbose events).filter (!isStepLine ·) := by
  induction events with
  | nil => rfl
  | cons e events ih =>
      rw [lines_cons, lines_cons .verbose, List.filter_append, ← ih]
      cases e <;> simp [lines, Event.lines, Verbosity.level]

/-- The most verbose trace has all lines of all events. -/
theorem shows_veryVerbose (events : List Event) :
    ∃ shown, List.Forall₂ Event.Shows events shown ∧ lines .veryVerbose events = shown.flatten := by
  refine ⟨events.map fun e => e.lines.map TraceLine.text, ?_, ?_⟩
  · rw [List.forall₂_map_right_iff, List.forall₂_same]
    exact fun e _ => e.shows_lines
  · induction events with
    | nil => rfl
    | cons e events ih =>
        rw [lines_cons, ih, List.map_cons, List.flatten_cons]
        cases e <;> simp [lines, Event.lines, Verbosity.level]

/-- The verbose trace is the most verbose one without the lines of messages. -/
theorem lines_verbose (events : List Event) :
    lines .verbose events = (lines .veryVerbose events).filter (!isMessageLine ·) := by
  induction events with
  | nil => rfl
  | cons e events ih =>
      rw [lines_cons, lines_cons .veryVerbose, List.filter_append, ← ih]
      cases e <;> simp [lines, Event.lines, Verbosity.level]

end Trace

/-! ### Processors -/

/-- **Traces are well formed and harmless.** Whatever watches a message leaves its fields and errors as they are,
and it is told the events of the message: those of the rules that run, every one of them closed by its own end. A
print tracer of the highest verbosity writes all lines of these events. The verbose trace is the most verbose one
without the messages, and the default trace is the verbose one without the lines of alternatives and captures. -/
theorem Processor.traces_wellFormed (p : Processor) (message : List UInt8) :
    (∀ (τ : Type) (tracer : Tracer τ) (t : τ),
      (p.processWith tracer message t).state.fields = (p.process message).fields ∧
        (p.processWith tracer message t).state.errors = (p.process message).errors ∧
        (p.processWith tracer message t).trace = tracer.notes (p.process message).events t) ∧
    Tells p.settings (.one p.program) (.start message) (p.process message).events ∧
    stillOpen? [] (p.process message).events = some [] ∧
    (∀ verbosity,
      (p.traced verbosity message).1 = ⟨(p.process message).fields, (p.process message).errors, []⟩) ∧
    (∃ shown, List.Forall₂ Event.Shows (p.process message).events shown ∧
      (p.traced .veryVerbose message).2 = shown.flatten) ∧
    (p.traced .default message).2 = (p.traced .verbose message).2.filter (!isStepLine ·) ∧
    (p.traced .verbose message).2 = (p.traced .veryVerbose message).2.filter (!isMessageLine ·) := by
  have htraced (verbosity : Verbosity) : p.traced verbosity message =
      (⟨(p.process message).fields, (p.process message).errors, []⟩,
        Trace.lines verbosity (p.process message).events) := by
    obtain ⟨hfields, herrors, htrace⟩ := p.processWith_eq (.print verbosity) message #[]
    rw [traced, hfields, herrors, htrace, Tracer.toList_notes_print]
    rfl
  have htells : Tells p.settings (.one p.program) (.start message) (p.process message).events :=
    p.program.tells_run p.settings (.start message)
  have hclosed := htells.stillOpen?_append [] []
  rw [List.append_nil] at hclosed
  refine ⟨fun τ tracer t => p.processWith_eq tracer message t, htells, hclosed, fun verbosity => ?_, ?_, ?_, ?_⟩
  · rw [htraced]
  · rw [htraced]
    exact Trace.shows_veryVerbose _
  · rw [htraced, htraced]
    exact Trace.lines_default _
  · rw [htraced, htraced]
    exact Trace.lines_verbose _

/-- A rule that fails is closed before the next one starts. -/
example :
    let rule (id : String) (constant : List UInt8) : Program :=
      .matchRule id ⟨[⟨[[.constant constant]]⟩], false⟩ []
    let p : Processor := ⟨.linearSelect [rule "A" [97], rule "B" [98]], ⟨.utc, 2021, []⟩, none⟩
    (p.traced .verbose [98]).2 = ["-> A", "   chunk 0 alternative 0 failed", "<- A not matched",
      "-> B", "   chunk 0 alternative 0 matched", "<- B matched"] := by
  decide +kernel

end LogRules

import LogRules.Proofs.Pipeline.Targets

/-! # Arguments of the calls that are left

Numbers of arguments are checked before anything is replaced. The calls that are left in the end are assembled
calls without the special field in front of their arguments (`Calls.exists_call_of_finished`), and nothing
counts the arguments again. Joining does with one argument less, and so does a check of directions with
another one; every other function takes an exact number, so a call of it that loses an argument is left with
too few (`Invocation.isAccepted_withoutSpecial_iff`). -/

namespace LogRules

namespace Invocation

/-- The call names a function that takes its number of arguments. -/
def IsAccepted (inv : Invocation) : Prop :=
  ∃ b, Builtin.ofName? inv.function = some b ∧ b.accepts inv.args.length = true

instance (inv : Invocation) : Decidable inv.IsAccepted :=
  decidable_of_iff ((Builtin.ofName? inv.function).any (·.accepts inv.args.length) = true)
    (Option.any_eq_true _ _)

/-- The call without a special field in front of its arguments. -/
def withoutSpecial (inv : Invocation) : Invocation := { inv with args := Calls.dropSpecial inv.args }

/-- The call has no special field in front of its arguments, or does without it. -/
def SparesSpecial (inv : Invocation) : Prop :=
  inv.withoutSpecial = inv ∨ inv.function = "STRCAT" ∨ inv.function = "DIRCHK" ∧ 2 ≤ inv.args.length

instance (inv : Invocation) : Decidable inv.SparesSpecial := by
  unfold SparesSpecial
  infer_instance

end Invocation

/-! ### Calls that are left -/

theorem Node.action?_eq_some {n : Node} {a : Action} : n.action? = some a ↔ n = .action a := by
  cases n <;> simp [action?]

namespace Calls

variable {maps : List String} {a b : Action} {inv : Invocation}

theorem call?_eq_some : call? a = some inv ↔ a.effect = .call inv := by
  unfold call?
  cases a.effect <;> simp

/-- An edit of effects that only lets some calls through. -/
theorem call_of_withEffect? {P : Invocation → Prop} {f : Action → Except PassError Effect}
    (hf : ∀ inv, f a = .ok (.call inv) → a.effect = .call inv ∧ P inv)
    (h : Node.withEffect? f a = some b) (hb : b.effect = .call inv) : a.effect = .call inv ∧ P inv := by
  obtain ⟨effect, heffect, rfl⟩ := Option.map_eq_some_iff.mp h
  obtain rfl : effect = .call inv := hb
  exact hf inv (eq_ok_of_toOption heffect)

theorem call_of_lookupEffect (h : lookupEffect maps a = .ok (.call inv)) :
    a.effect = .call inv ∧ inv.function ∉ maps := by
  unfold lookupEffect at h
  split at h
  · next inv' heffect =>
      split at h
      · split at h <;> cases h
      · next hmaps =>
          rw [heffect] at h
          cases h
          exact ⟨heffect, hmaps⟩
  · next heffect => exact absurd (Except.ok.inj h) (heffect inv)

theorem call_of_assignmentEffect (h : assignmentEffect a = .ok (.call inv)) :
    a.effect = .call inv ∧ inv.function ∉ [Invocation.constantFunction, "PARMVAL", "HDR"] := by
  unfold assignmentEffect at h
  split at h
  · next inv' heffect =>
      split at h
      · obtain ⟨arg, -, heq⟩ := map_eq_ok.mp h
        cases heq
      · next hassign =>
          split at h
          · obtain ⟨arg, -, heq⟩ := map_eq_ok.mp h
            cases heq
          · next hheader =>
              rw [heffect] at h
              cases h
              simp only [Bool.or_eq_true, beq_iff_eq, not_or] at hassign hheader
              exact ⟨heffect, by simp [hassign, hheader]⟩
  · next heffect => exact absurd (Except.ok.inj h) (heffect inv)

theorem call_of_sysvalNode (h : sysvalNode a = .action b) :
    b = a ∧ ∀ inv, a.effect = .call inv → inv.function ≠ "SYSVAL" := by
  obtain ⟨effect, source⟩ := a
  cases effect with
  | call inv =>
      simp only [sysvalNode, call?] at h
      split at h
      · cases h
      · next hfunction =>
          cases h
          refine ⟨rfl, fun inv' heffect => ?_⟩
          cases heffect
          simpa using hfunction
  | _ =>
      cases h
      refine ⟨rfl, fun inv' heffect => ?_⟩
      cases heffect

theorem eq_of_copyNode (h : copyNode a = .action b) : b = a := by
  unfold copyNode at h
  split at h
  · split at h <;> cases h
    rfl
  · cases h
    rfl

theorem call_of_specialNode (h : specialNode a = .action b) (hb : b.effect = .call inv) :
    ∃ inv', a.effect = .call inv' ∧ inv = inv'.withoutSpecial := by
  unfold specialNode at h
  split at h
  · next inv' heffect =>
      cases h
      cases hb
      exact ⟨inv', heffect, rfl⟩
  · next heffect =>
      cases h
      exact absurd hb (heffect inv)

theorem call_of_timeEffect (h : timeEffect a = .ok (.call inv)) :
    a.effect = .call inv ∧ inv.function ∉ timeFunctions := by
  unfold timeEffect at h
  split at h
  · next inv' heffect =>
      split at h
      · obtain ⟨reading, -, heq⟩ := bind_eq_ok.mp h
        replace heq := Except.ok.inj heq
        split at heq <;> cases heq
      · next htime =>
          rw [heffect] at h
          cases h
          exact ⟨heffect, htime⟩
  · next heffect => exact absurd (Except.ok.inj h) (heffect inv)

theorem exists_mapM_of_isConstant {args : List Value} (h : ∀ arg ∈ args, arg.isConstant = true) :
    ∃ texts, args.mapM Value.constant? = some texts := by
  induction args with
  | nil => exact ⟨[], rfl⟩
  | cons arg rest ih =>
      rw [List.forall_mem_cons] at h
      obtain ⟨text, htext⟩ := Option.isSome_iff_exists.mp h.1
      obtain ⟨texts, htexts⟩ := ih h.2
      refine ⟨text :: texts, ?_⟩
      rw [List.mapM_cons, htext, htexts]
      rfl

theorem call_of_constantNode (h : constantNode a = .action b) (hb : b.effect = .call inv) :
    b = a ∧ ¬ (inv.function = "STRCAT" ∧ ∀ arg ∈ inv.args, arg.isConstant = true) := by
  unfold constantNode at h
  split at h
  · next inv' heffect =>
      split at h
      · split at h
        · cases h
          cases hb
        · next hnone =>
            cases h
            obtain rfl : inv' = inv := Effect.call.inj (heffect.symm.trans hb)
            refine ⟨rfl, fun ⟨_, hconstants⟩ => ?_⟩
            obtain ⟨texts, htexts⟩ := exists_mapM_of_isConstant hconstants
            rw [hnone] at htexts
            cases htexts
      · next hfunction =>
          cases h
          obtain rfl : inv' = inv := Effect.call.inj (heffect.symm.trans hb)
          exact ⟨rfl, fun ⟨hname, _⟩ => hfunction (by rw [hname]; rfl)⟩
  · next heffect =>
      cases h
      exact absurd hb (heffect inv)

/-- A call that is left is an assembled call that is not replaced, without a special field in front of its
arguments. -/
theorem exists_call_of_finished (h : finished maps a = some b) (hb : b.effect = .call inv) :
    ∃ inv', a.effect = .call inv' ∧ ¬ a.effect.IsReplaced maps ∧ inv'.function ≠ "SYSVAL" ∧
      inv = inv'.withoutSpecial := by
  obtain ⟨a₆, hrewritten, hconstant⟩ := Option.bind_eq_some_iff.mp h
  obtain ⟨a₁, hlookup, hrewritten⟩ := Option.bind_eq_some_iff.mp hrewritten
  obtain ⟨a₂, hassignment, hrewritten⟩ := Option.bind_eq_some_iff.mp hrewritten
  obtain ⟨a₃, hsysval, hrewritten⟩ := Option.bind_eq_some_iff.mp hrewritten
  obtain ⟨a₄, hcopy, hrewritten⟩ := Option.bind_eq_some_iff.mp hrewritten
  obtain ⟨a₅, hspecial, hreading⟩ := Option.bind_eq_some_iff.mp hrewritten
  -- backwards from the last pass, each of which only lets a call through that it does not replace
  obtain ⟨rfl, hjoin⟩ := call_of_constantNode (Node.action?_eq_some.mp hconstant) hb
  obtain ⟨heffect₅, htimes⟩ := call_of_withEffect? (fun _ => call_of_timeEffect) hreading hb
  obtain ⟨inv', heffect₄, rfl⟩ := call_of_specialNode (Node.action?_eq_some.mp hspecial) heffect₅
  obtain rfl := eq_of_copyNode (Node.action?_eq_some.mp hcopy)
  obtain ⟨rfl, hfunction⟩ := call_of_sysvalNode (Node.action?_eq_some.mp hsysval)
  obtain ⟨heffect₁, hassignments⟩ :=
    call_of_withEffect? (fun _ => call_of_assignmentEffect) hassignment heffect₄
  obtain ⟨heffect, hmaps⟩ := call_of_withEffect? (fun _ => call_of_lookupEffect) hlookup heffect₁
  refine ⟨inv', heffect, ?_, hfunction inv' heffect₄, rfl⟩
  rw [heffect]
  rintro (hmap | hassign | htimed | hjoined)
  · exact hmaps hmap
  · exact hassignments hassign
  · exact htimes htimed
  · exact hjoin hjoined

end Calls

/-! ### Arguments that a call does without -/

namespace Builtin

theorem mem_of_ofName? {name : String} {b : Builtin} (h : ofName? name = some b) :
    b ∈ all ∧ b.name = name :=
  ⟨List.mem_of_find?_eq_some h, by simpa using List.find?_some h⟩

/-- The functions that are replaced. -/
theorem name_of_replaced : ∀ b ∈ all, b.replaced = true →
    b.name = "SYSVAL" ∨ b.name ∈ [Invocation.constantFunction, "PARMVAL", "HDR"] ∨
      b.name ∈ Calls.timeFunctions := by
  decide

/-- A function that runs takes an exact number of arguments, or any number but none. -/
theorem exact_or_variadic : ∀ b ∈ all, b.replaced = false →
    b.maxArgs = some b.minArgs ∧ b.name ≠ "STRCAT" ∧ b.name ≠ "DIRCHK" ∨
      b.maxArgs = none ∧ b.minArgs = 1 ∧ (b.name = "STRCAT" ∨ b.name = "DIRCHK") := by
  decide

theorem accepts_exact {b : Builtin} (h : b.maxArgs = some b.minArgs) {count : Nat} :
    b.accepts count = true ↔ count = b.minArgs := by
  simp only [accepts, h, Option.all_some, Bool.and_eq_true, decide_eq_true_eq]
  omega

theorem accepts_variadic {b : Builtin} (h : b.maxArgs = none) {count : Nat} :
    b.accepts count = true ↔ b.minArgs ≤ count := by
  simp [accepts, h]

/-- Only joining and the check of directions do with one argument less, and not without any. -/
theorem accepts_one_less {b : Builtin} (hb : b ∈ all) (hruns : b.replaced = false) {count : Nat}
    (h : b.accepts (count + 1) = true) :
    b.accepts count = true ↔ 1 ≤ count ∧ (b.name = "STRCAT" ∨ b.name = "DIRCHK") := by
  rcases exact_or_variadic b hb hruns with ⟨hmax, hstrcat, hdirchk⟩ | ⟨hmax, hmin, hnames⟩
  · rw [accepts_exact hmax] at h ⊢
    constructor
    · omega
    · tauto
  · rw [accepts_variadic hmax, hmin]
    exact ⟨fun hcount => ⟨hcount, hnames⟩, fun hcount => hcount.1⟩

/-- The function of a call that is neither replaced nor removed is none that is replaced. -/
theorem replaced_eq_false {maps : List String} {inv : Invocation} {b : Builtin}
    (hb : ofName? inv.function = some b) (hkept : ¬ (Effect.call inv).IsReplaced maps)
    (hsysval : inv.function ≠ "SYSVAL") : b.replaced = false := by
  obtain ⟨hmem, hname⟩ := mem_of_ofName? hb
  cases hreplaced : b.replaced with
  | false => rfl
  | true =>
      have h := name_of_replaced b hmem hreplaced
      rw [hname] at h
      rcases h with h | h | h
      · exact absurd h hsysval
      · exact absurd (.inr (.inl h)) hkept
      · exact absurd (.inr (.inr (.inl h))) hkept

end Builtin

/-- At most one argument is lost. -/
theorem Calls.length_dropSpecial (args : List Value) :
    dropSpecial args = args ∨ (dropSpecial args).length + 1 = args.length := by
  unfold dropSpecial
  split
  · split
    · exact .inr rfl
    · exact .inl rfl
  · exact .inl rfl

namespace Invocation

theorem isAccepted_iff {inv : Invocation} {b : Builtin} (hb : Builtin.ofName? inv.function = some b) :
    inv.IsAccepted ↔ b.accepts inv.args.length = true := by
  rw [IsAccepted, hb]
  simp

/-- A call that keeps a number of arguments that its function takes is one that can spare what it loses. -/
theorem isAccepted_withoutSpecial_iff {maps : List String} {inv : Invocation}
    (haccepted : inv.IsAccepted) (hkept : ¬ (Effect.call inv).IsReplaced maps)
    (hsysval : inv.function ≠ "SYSVAL") : inv.withoutSpecial.IsAccepted ↔ inv.SparesSpecial := by
  rcases Calls.length_dropSpecial inv.args with hsame | hlost
  · have heq : inv.withoutSpecial = inv := by rw [withoutSpecial, hsame]
    rw [heq]
    exact iff_of_true haccepted (.inl heq)
  · have hne : inv.withoutSpecial ≠ inv := by
      intro heq
      have hlength : (Calls.dropSpecial inv.args).length = inv.args.length :=
        congrArg (fun i : Invocation => i.args.length) heq
      omega
    obtain ⟨b, hb, hcount⟩ := haccepted
    obtain ⟨hmem, hname⟩ := Builtin.mem_of_ofName? hb
    have hfewer : inv.withoutSpecial.IsAccepted ↔ 1 ≤ (Calls.dropSpecial inv.args).length ∧
        (inv.function = "STRCAT" ∨ inv.function = "DIRCHK") := by
      have hknown : Builtin.ofName? inv.withoutSpecial.function = some b := hb
      rw [isAccepted_iff hknown, ← hname]
      refine Builtin.accepts_one_less hmem (Builtin.replaced_eq_false hb hkept hsysval) ?_
      exact hlost ▸ hcount
    -- joining without arguments is joining constants, and replaced
    have hjoin : inv.function = "STRCAT" → 1 ≤ (Calls.dropSpecial inv.args).length := by
      intro hstrcat
      refine List.length_pos_of_ne_nil fun hnil => hkept (.inr (.inr (.inr ⟨hstrcat, ?_⟩)))
      rw [hnil]
      exact fun _ h => nomatch h
    rw [hfewer, SparesSpecial]
    constructor
    · rintro ⟨hpos, hstrcat | hdirchk⟩
      · exact .inr (.inl hstrcat)
      · exact .inr (.inr ⟨hdirchk, by omega⟩)
    · rintro (h | hstrcat | ⟨hdirchk, htwo⟩)
      · exact absurd h hne
      · exact ⟨hjoin hstrcat, .inl hstrcat⟩
      · exact ⟨by omega, .inr hdirchk⟩

end Invocation

/-! ### Finished trees -/

theorem Pipeline.checkArity_of_beforeSharing {config : Config} {t t' : RuleTree}
    {reports : List Diagnostic} (h : (beforeSharing config).run config t = .ok (t', reports)) :
    Calls.checkArity t = .ok () := by
  obtain ⟨t₁, first, others, hchecks, -, -⟩ := run_cons_eq_ok.mp h
  obtain ⟨-, hchecks⟩ := runPasses_check_cons_eq_ok.mp hchecks
  obtain ⟨-, hchecks⟩ := runPasses_check_cons_eq_ok.mp hchecks
  obtain ⟨-, hchecks⟩ := runPasses_check_cons_eq_ok.mp hchecks
  exact (runPasses_check_cons_eq_ok.mp hchecks).1

/-- A call that passes the check and is not replaced is accepted. -/
theorem Calls.isAccepted_of_checkArity {maps : List String} {a : Action} {inv : Invocation}
    (h : checkArityOf maps a = .ok ()) (heffect : a.effect = .call inv)
    (hkept : ¬ a.effect.IsReplaced maps) : inv.IsAccepted := by
  rw [heffect] at hkept
  have hmaps : inv.function ∉ maps := fun hmap => hkept (.inl hmap)
  simp only [checkArityOf, call?, heffect, hmaps, if_false] at h
  split at h
  · cases h
  · next b hb =>
      split at h
      · next hcount => exact ⟨b, hb, hcount⟩
      · cases h

/-! ### Calls that cannot run -/

/-- A function that gets another number of arguments than it takes fails, but for joining. -/
theorem Function.exists_call_eq_error {settings : Settings} {f : Function} {b : Builtin}
    (hb : Builtin.ofName? f.name = some b) (hconcat : f ≠ .concat) {args : List String}
    (h : ¬ b.accepts args.length = true) : ∃ e, f.call settings args = .error e := by
  cases f with
  | concat => exact absurd rfl hconcat
  | convertDomain => exact ⟨_, rfl⟩
  | url => exact ⟨_, rfl⟩
  | calculate =>
      obtain rfl : b = ⟨"CALC", 3, some 3, false⟩ := Option.some.inj (hb.symm.trans rfl)
      rcases args with _ | ⟨x, _ | ⟨y, _ | ⟨z, _ | ⟨w, rest⟩⟩⟩⟩
      · exact ⟨_, rfl⟩
      · exact ⟨_, rfl⟩
      · exact ⟨_, rfl⟩
      · exact absurd rfl h
      · exact ⟨_, rfl⟩
  | removeQuotes =>
      obtain rfl : b = ⟨"RMQ", 1, some 1, false⟩ := Option.some.inj (hb.symm.trans rfl)
      rcases args with _ | ⟨x, _ | ⟨y, rest⟩⟩
      · exact ⟨_, rfl⟩
      · exact absurd rfl h
      · exact ⟨_, rfl⟩
  | direction =>
      obtain rfl : b = ⟨"DIRCHK", 1, none, false⟩ := Option.some.inj (hb.symm.trans rfl)
      cases args with
      | nil => exact ⟨_, rfl⟩
      | cons x rest => exact absurd (by simp [Builtin.accepts]) h

/-- A call fails on all fields when its function fails on all texts of the number of its arguments. -/
theorem Operation.exists_apply_eq_error {settings : Settings} {target : String} {f : Function}
    {args : List Value}
    (hf : ∀ texts : List String, texts.length = args.length → ∃ e, f.call settings texts = .error e)
    (fields : Fields) : ∃ e, apply settings ⟨target, .call f args⟩ fields = .error e := by
  simp only [apply, compute]
  cases hread : args.mapM fields.readValue with
  | error e => exact ⟨e, rfl⟩
  | ok texts =>
      obtain ⟨reason, hreason⟩ := hf texts (mapM_eq_ok.mp hread).length_eq.symm
      simp only [bind, Except.bind, hreason]
      cases reason <;> exact ⟨_, rfl⟩

/-- A call with another number of arguments than its function takes fails on all fields, but for joining. -/
theorem Invocation.exists_apply_eq_error {settings : Settings} {maps : Table ValueMap} {inv : Invocation}
    {b : Builtin} (hb : Builtin.ofName? inv.function = some b) (hcount : ¬ inv.IsAccepted)
    (hstrcat : inv.function ≠ "STRCAT") {a : Action} (heffect : a.effect = .call inv) {op : Operation}
    (hop : Node.compileAction settings maps a = .ok op) (fields : Fields) :
    ∃ e, op.apply settings fields = .error e := by
  simp only [Node.compileAction, heffect] at hop
  split at hop
  · cases hop
  · next f hf =>
      cases hop
      have hname : f.name = inv.function := by simpa using List.find?_some hf
      refine Operation.exists_apply_eq_error (fun texts hlength => ?_) fields
      refine Function.exists_call_eq_error (hname ▸ hb) ?_ ?_
      · rintro rfl
        exact hstrcat hname.symm
      · rw [hlength]
        exact fun h => hcount ⟨b, hb, h⟩

namespace Parser

variable {config : Config} {d : Device} {parser : Parser}

/-- The call is assembled, and neither replaced nor removed. -/
def Keeps (d : Device) (inv : Invocation) : Prop :=
  ∃ a ∈ (assemble d).1.actions, a.effect = .call inv ∧
    ¬ a.effect.IsReplaced (assemble d).1.valueMaps.keys ∧ inv.function ≠ "SYSVAL"

theorem isAccepted_of_keeps {inv : Invocation} (hbuild : build config d = .ok parser)
    (h : Keeps d inv) : inv.IsAccepted := by
  obtain ⟨t, more, hbefore, -⟩ := exists_run_of_build hbuild
  obtain ⟨a, ha, heffect, hkept, -⟩ := h
  have hcheck := forM_eq_ok.mp (Pipeline.checkArity_of_beforeSharing hbefore) a ha
  exact Calls.isAccepted_of_checkArity hcheck heffect hkept

theorem isAccepted_withoutSpecial_iff {inv : Invocation} (hbuild : build config d = .ok parser)
    (h : Keeps d inv) : inv.withoutSpecial.IsAccepted ↔ inv.SparesSpecial := by
  have haccepted := isAccepted_of_keeps hbuild h
  obtain ⟨a, -, heffect, hkept, hsysval⟩ := h
  exact Invocation.isAccepted_withoutSpecial_iff haccepted (heffect ▸ hkept) hsysval

/-- The calls of a finished tree are the calls that are kept, without special fields in front. -/
theorem exists_keeps_of_build (hbuild : build config d = .ok parser) {a : Action}
    (ha : a ∈ parser.tree.actions) {inv : Invocation} (heffect : a.effect = .call inv) :
    ∃ inv', Keeps d inv' ∧ inv = inv'.withoutSpecial := by
  obtain ⟨t, ht, -, -, htree, -⟩ := exists_unshared_of_build hbuild
  have hcalls : ∀ b ∈ t.actions, ∀ inv, b.effect = .call inv →
      ∃ inv', Keeps d inv' ∧ inv = inv'.withoutSpecial := by
    intro b hb inv heffect
    rw [actions_unshared ht] at hb
    obtain ⟨a, ha, hmade⟩ := List.mem_filterMap.mp hb
    obtain ⟨inv', heffect', hkept, hfunction, rfl⟩ := Calls.exists_call_of_finished hmade heffect
    exact ⟨inv', ⟨a, ha, heffect', hkept, hfunction⟩, rfl⟩
  have hshared := (RuleTree.forall_extractShared config (R := fun _ => True) (fun _ _ => trivial)
    hcalls).2
  rw [← htree] at hshared
  exact hshared a ha inv heffect

/-- **Arguments of the calls of a finished tree.** When every call that is kept can spare a special field in
front of its arguments, every call of a finished tree has a number of arguments that its function takes. A
call that cannot is in the finished tree with too few, and fails on all fields. Where nodes are shared, nodes
with one signature have to be equal up to labels for a call to be found again. -/
theorem arity_of_build (config : Config) (d : Device) (parser : Parser)
    (hbuild : build config d = .ok parser) :
    ((∀ inv, Keeps d inv → inv.SparesSpecial) →
      ∀ a ∈ parser.tree.actions, ∀ inv, a.effect = .call inv → inv.IsAccepted) ∧
    ((config.globalEntities = true ∨ config.detectDuplicates = true →
        ∀ t ∈ unshared? config d, Sharing.SignaturesDecide (Sharing.met config t)) →
      ∀ inv, Keeps d inv → ¬ inv.SparesSpecial →
        ∃ a ∈ parser.tree.actions, a.effect = .call inv.withoutSpecial ∧
          ¬ inv.withoutSpecial.IsAccepted ∧
          ∀ settings maps op, Node.compileAction settings maps a = .ok op →
            ∀ fields, ∃ e, op.apply settings fields = .error e) := by
  refine ⟨fun hspare a ha inv heffect => ?_, fun hmet inv hkeeps hspare => ?_⟩
  · obtain ⟨inv', hkeeps, rfl⟩ := exists_keeps_of_build hbuild ha heffect
    exact (isAccepted_withoutSpecial_iff hbuild hkeeps).mpr (hspare inv' hkeeps)
  · have hfew := mt (isAccepted_withoutSpecial_iff hbuild hkeeps).mp hspare
    obtain ⟨b, hb, -⟩ := isAccepted_of_keeps hbuild hkeeps
    obtain ⟨a, ha, heffect, hkept, hfunction⟩ := hkeeps
    obtain ⟨effect, source⟩ := a
    obtain rfl : effect = .call inv := heffect
    obtain ⟨c, hc, hsame⟩ := exists_finished_of_build (b := ⟨.call inv.withoutSpecial, source⟩) hbuild hmet
      ha (by rw [Calls.finished_of_not_isReplaced hkept, if_neg hfunction]; rfl)
    refine ⟨c, hc, hsame, hfew, fun settings maps op hop fields => ?_⟩
    have hstrcat : inv.withoutSpecial.function ≠ "STRCAT" := fun h => hspare (.inr (.inl h))
    have hknown : Builtin.ofName? inv.withoutSpecial.function = some b := hb
    exact Invocation.exists_apply_eq_error hknown hfew hstrcat hsame hop fields

/-- Without a special field a device builds calls that are accepted. With one in front of the only argument
of a call that takes one, it builds a call without arguments. -/
theorem arity_of_build_quoted :
    (∃ parser, build {} (deviceCalling "<@c:*RMQ(a)><@d:*DIRCHK($HDR,b)>") = .ok parser ∧
      ∀ a ∈ parser.tree.actions, ∀ inv, a.effect = .call inv → inv.IsAccepted) ∧
    ∃ parser, build {} (deviceCalling "<@c:*RMQ($MSG)>") = .ok parser ∧
      ∃ a ∈ parser.tree.actions, a.effect = .call ⟨"c", "RMQ", []⟩ := by
  constructor
  · have hsome : (build {} (deviceCalling "<@c:*RMQ(a)><@d:*DIRCHK($HDR,b)>")).toOption.isSome = true := by
      decide +kernel
    obtain ⟨parser, hparser⟩ := Option.isSome_iff_exists.mp hsome
    have hbuild := eq_ok_of_toOption hparser
    have hall : (assemble (deviceCalling "<@c:*RMQ(a)><@d:*DIRCHK($HDR,b)>")).1.actions.all (fun a =>
        (Calls.call? a).all fun inv => decide inv.SparesSpecial) = true := by decide +kernel
    refine ⟨parser, hbuild, (arity_of_build {} _ parser hbuild).1 fun inv hkeeps => ?_⟩
    obtain ⟨a, ha, heffect, -⟩ := hkeeps
    have hspares := List.all_eq_true.mp hall a ha
    rw [Calls.call?_eq_some.mpr heffect] at hspares
    simpa using hspares
  · have hsome : (build {} (deviceCalling "<@c:*RMQ($MSG)>")).toOption.isSome = true := by decide +kernel
    obtain ⟨parser, hparser⟩ := Option.isSome_iff_exists.mp hsome
    have hbuild := eq_ok_of_toOption hparser
    have hany : (assemble (deviceCalling "<@c:*RMQ($MSG)>")).1.actions.any (fun a =>
        decide (¬ a.effect.IsReplaced (assemble (deviceCalling "<@c:*RMQ($MSG)>")).1.valueMaps.keys) &&
          Calls.call? a == some ⟨"c", "RMQ", [.field "$MSG"]⟩) = true := by
      decide +kernel
    obtain ⟨a, ha, hcall⟩ := List.any_eq_true.mp hany
    simp only [Bool.and_eq_true, decide_eq_true_eq, beq_iff_eq, Calls.call?_eq_some] at hcall
    have hkeeps : Keeps (deviceCalling "<@c:*RMQ($MSG)>") ⟨"c", "RMQ", [.field "$MSG"]⟩ :=
      ⟨a, ha, hcall.2, hcall.1, by decide⟩
    obtain ⟨c, hc, hleft, -⟩ := (arity_of_build {} _ parser hbuild).2
      (fun hshared => absurd hshared (by decide)) _ hkeeps (by decide)
    exact ⟨parser, hbuild, c, hc, hleft⟩

/-- A call may be left with too few arguments. -/
theorem not_forall_arity_of_build : ¬ ∀ (config : Config) (d : Device) (parser : Parser),
    build config d = .ok parser →
      ∀ a ∈ parser.tree.actions, ∀ inv, a.effect = .call inv → inv.IsAccepted := by
  intro h
  have hfew : (build {} (deviceCalling "<@c:*RMQ($MSG)>")).toOption.any (fun parser =>
      parser.tree.actions.any fun a => (Calls.call? a).any fun inv => !decide inv.IsAccepted) = true := by
    decide +kernel
  obtain ⟨parser, hparser, hany⟩ := (Option.any_eq_true _ _).mp hfew
  obtain ⟨a, ha, hany⟩ := List.any_eq_true.mp hany
  obtain ⟨inv, hcall, hinv⟩ := (Option.any_eq_true _ _).mp hany
  have haccepted := h {} _ parser (eq_ok_of_toOption hparser) a ha inv (Calls.call?_eq_some.mp hcall)
  simp [haccepted] at hinv

end Parser

end LogRules

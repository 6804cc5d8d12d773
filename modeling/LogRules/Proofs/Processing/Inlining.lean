import LogRules.Proofs.Processing.References
import LogRules.Proofs.Processing.Relabelling

/-! # A tree runs as what it inlines to

A tree has the program of the tree that it inlines to (`RuleTree.compile_eq_inlined`), and labels do not
matter to a run. Trees that inline to one tree up to labels, with the same value maps, therefore make
processors that take every message to the same fields and the same errors
(`Processor.ofTree_process_eq`). -/

namespace LogRules

namespace RuleTree

/-- Trees that inline to one tree up to labels have one program up to labels. -/
theorem compile_unlabelled_eq {t t' : RuleTree} (settings : Settings) (ht : t.inlined.IsPlain)
    (ht' : t'.inlined.IsPlain) (hmaps : t'.valueMaps = t.valueMaps)
    (hinlined : t'.inlined.unlabelled = t.inlined.unlabelled) :
    (t'.compile settings).toOption.map Program.unlabelled =
      (t.compile settings).toOption.map Program.unlabelled := by
  have hnoop : ∀ _ : String, (pure Program.noop : Except CompileError Program).toOption =
      (pure Program.noop : Except CompileError Program).toOption.map Program.unlabelled :=
    fun _ => rfl
  rw [compile_eq_inlined settings ht, compile_eq_inlined settings ht', hmaps,
    ← (Node.compile_unlabelled hnoop).1, ← (Node.compile_unlabelled hnoop).1, hinlined]

end RuleTree

namespace Processor

/-- Programs that are equal up to labels take every message to the same fields and errors. -/
theorem process_eq_of_unlabelled_eq {p q : Processor} (hsettings : q.settings = p.settings)
    (hprogram : q.program.unlabelled = p.program.unlabelled) (message : List UInt8) :
    (q.process message).fields = (p.process message).fields ∧
      (q.process message).errors = (p.process message).errors := by
  have hp := Program.run_unlabelled p.settings p.program (.start message)
  have hq := Program.run_unlabelled p.settings q.program (.start message)
  rw [hprogram] at hq
  have hagree : (q.program.run p.settings (.start message)).Agrees
      (p.program.run p.settings (.start message)) := ⟨hq.1.symm.trans hp.1, hq.2.symm.trans hp.2⟩
  have hstate := hagree.noted.2
  unfold process
  rw [hsettings]
  exact ⟨congrArg State.fields hstate, congrArg State.errors hstate⟩

/-- A processor is made of settings and a program. -/
theorem ofTree_eq_ok_iff {year : Int} {config : Config} {t : RuleTree} {p : Processor} :
    ofTree year config t = .ok p ↔ ∃ settings program,
      Settings.ofConfig year config = .ok settings ∧ t.compile settings = .ok program ∧
        p = ⟨program, settings, t.timestampField⟩ := by
  unfold ofTree
  simp only [bind_eq_ok, pure, Except.pure, Except.ok.injEq]
  constructor
  · rintro ⟨settings, hs, program, hc, rfl⟩
    exact ⟨settings, program, hs, hc, rfl⟩
  · rintro ⟨settings, program, hs, hc, rfl⟩
    exact ⟨settings, hs, program, hc, rfl⟩

/-- Trees that inline to one tree up to labels make processors that do the same. -/
theorem ofTree_process_eq {t t' : RuleTree} {config config' : Config} {year : Int} {p : Processor}
    (ht : t.inlined.IsPlain) (ht' : t'.inlined.IsPlain) (hmaps : t'.valueMaps = t.valueMaps)
    (hinlined : t'.inlined.unlabelled = t.inlined.unlabelled)
    (hsettings : Settings.ofConfig year config' = Settings.ofConfig year config)
    (hp : ofTree year config t = .ok p) :
    ∃ q, ofTree year config' t' = .ok q ∧ ∀ message,
      (q.process message).fields = (p.process message).fields ∧
        (q.process message).errors = (p.process message).errors := by
  obtain ⟨settings, program, hs, hc, rfl⟩ := ofTree_eq_ok_iff.mp hp
  have hprograms := RuleTree.compile_unlabelled_eq settings ht ht' hmaps hinlined
  rw [hc] at hprograms
  obtain ⟨program', hprogram', hsame⟩ := Option.map_eq_some_iff.mp hprograms
  refine ⟨⟨program', settings, t'.timestampField⟩, ?_, process_eq_of_unlabelled_eq rfl hsame⟩
  exact ofTree_eq_ok_iff.mpr ⟨settings, program', hsettings.trans hs,
    eq_ok_of_toOption hprogram', rfl⟩

end Processor

end LogRules

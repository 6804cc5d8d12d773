import LogRules.Processing.Settings
import LogRules.Proofs.Result

/-! # Settings of options

When options have settings, and which: the time zone is read first, then the networks. -/

namespace LogRules.Settings

variable {year : Int} {config : Config} {settings : Settings}

/-- Reads the text of a network. -/
def readNetwork (text : String) : Except CompileError Network.Block :=
  match Network.Block.ofText? text with
  | some block => .ok block
  | none => .error (.invalidNetwork text)

theorem readNetwork_eq_ok_iff {text : String} {block : Network.Block} :
    readNetwork text = .ok block ↔ Network.Block.ofText? text = some block := by
  unfold readNetwork
  cases Network.Block.ofText? text with
  | none =>
      constructor
      · exact fun h => nomatch h
      · exact fun h => nomatch h
  | some b =>
      constructor
      · exact fun h => congrArg some (Except.ok.inj h)
      · exact fun h => congrArg Except.ok (Option.some.inj h)

/-- The settings of options whose time zone has this offset. -/
def ofOffset (year : Int) (config : Config) (offset : Time.Offset) : Except CompileError Settings := do
  let networks ← config.localNetworks.mapM readNetwork
  return { offset, year := config.year.getD year, networks }

theorem ofConfig_eq (year : Int) (config : Config) :
    ofConfig year config =
      match config.timezone with
      | none => ofOffset year config .utc
      | some text =>
        match Time.Offset.ofText? text with
        | some offset => ofOffset year config offset
        | none => .error (.invalidTimezone text) := by
  unfold ofConfig ofOffset readNetwork
  -- what the readers do does not matter here
  generalize Network.Block.ofText? = readBlock
  cases config.timezone with
  | none => rfl
  | some text =>
      simp only
      generalize Time.Offset.ofText? text = offset?
      cases offset? <;> rfl

theorem ofOffset_eq_ok_iff {offset : Time.Offset} :
    ofOffset year config offset = .ok settings ↔
      settings.offset = offset ∧ settings.year = config.year.getD year ∧
      List.Forall₂ (fun text block => Network.Block.ofText? text = some block)
        config.localNetworks settings.networks := by
  unfold ofOffset
  simp only [bind_eq_ok, mapM_eq_ok, readNetwork_eq_ok_iff]
  constructor
  · rintro ⟨networks, hnetworks, h⟩
    cases h
    exact ⟨rfl, rfl, hnetworks⟩
  · rintro ⟨rfl, hyear, hnetworks⟩
    refine ⟨settings.networks, hnetworks, ?_⟩
    rw [← hyear]
    rfl

/-- The offset, the year and the networks of the settings are those of the options. -/
theorem of_ofConfig (h : ofConfig year config = .ok settings) :
    (∀ text, config.timezone = some text → Time.Offset.ofText? text = some settings.offset) ∧
    settings.year = config.year.getD year ∧
    List.Forall₂ (fun text block => Network.Block.ofText? text = some block)
      config.localNetworks settings.networks := by
  rw [ofConfig_eq] at h
  split at h
  · next hzone =>
      obtain ⟨-, hrest⟩ := ofOffset_eq_ok_iff.mp h
      exact ⟨fun text htext => (nomatch hzone.symm.trans htext), hrest⟩
  · next text hzone =>
      split at h
      · next offset hoffset =>
          obtain ⟨hsame, hrest⟩ := ofOffset_eq_ok_iff.mp h
          refine ⟨fun text' htext => ?_, hrest⟩
          cases hzone.symm.trans htext
          rw [hoffset, hsame]
      · cases h

/-- A time zone that cannot be read is the first thing that is refused, and it is refused for nothing else. -/
theorem ofConfig_eq_invalidTimezone_iff {text : String} :
    ofConfig year config = .error (.invalidTimezone text) ↔
      config.timezone = some text ∧ Time.Offset.ofText? text = none := by
  have hnetworks : ∀ offset, ofOffset year config offset ≠ .error (.invalidTimezone text) := by
    intro offset h
    rcases bind_eq_error.mp h with h | ⟨networks, -, h⟩
    · obtain ⟨-, name, -, -, -, h⟩ := exists_of_mapM_eq_error h
      unfold readNetwork at h
      split at h
      · cases h
      · cases h
    · cases h
  rw [ofConfig_eq]
  split
  · next hzone => simp [hzone, hnetworks]
  · next text' hzone =>
      split
      · next offset hoffset =>
          simp only [hnetworks, hzone, Option.some.injEq, false_iff, not_and]
          rintro rfl h
          exact nomatch h.symm.trans hoffset
      · next hnone =>
          simp only [hzone, Except.error.injEq, CompileError.invalidTimezone.injEq, Option.some.injEq]
          exact ⟨fun h => ⟨h, h ▸ hnone⟩, fun h => h.1⟩

end LogRules.Settings

import LogRules.Proofs.Result
import LogRules.TimeFormat
import Mathlib.Data.List.Chain

/-! # Formats and their texts

A source text of a format is `Cut` at its specifiers into runs of literal characters. The reader takes every text
with known specifiers for the format of its cut (`read_source`), and accepts no other (`exists_cut`). The format
leaves out the blank runs, so that it is written as the source without them. A `Canonical` format is read back from
its text, and only such formats are read (`read_inverts_render`). -/

namespace LogRules

/-- The part is a known specifier or a literal with more in it than spaces. -/
def FormatPart.WellFormed : FormatPart → Prop
  | .literal text => ∃ c ∈ text.toList, c ≠ ' '
  | .spec letter => letter ∈ TimeFormat.specifiers

instance : DecidablePred FormatPart.WellFormed := fun part =>
  match part with
  | .literal text => inferInstanceAs (Decidable (∃ c ∈ text.toList, c ≠ ' '))
  | .spec letter => inferInstanceAs (Decidable (letter ∈ TimeFormat.specifiers))

/-- The part is a literal. -/
def FormatPart.isLiteral : FormatPart → Bool
  | .literal _ => true
  | .spec _ => false

namespace TimeFormat

/-- Known specifiers and literals that are neither empty nor blank, no two literals side by side. -/
structure Canonical (f : TimeFormat) : Prop where
  parts : ∀ part ∈ f, part.WellFormed
  apart : f.IsChain fun a b => ¬ (a.isLiteral = true ∧ b.isLiteral = true)

/-! ### Cutting a text at its specifiers -/

/-- A text cut at its specifiers: the run of literal characters in front, and every specifier with the run behind
it. -/
structure Cut where
  front : List Char
  behind : List (Char × List Char)

/-- The text of a run, with its percent signs doubled. -/
def written (run : List Char) : List Char := run.flatMap literalChar

/-- The run is made only of spaces, or empty. -/
def isBlankRun (run : List Char) : Bool := run.all (· == ' ')

/-- The text of a run that is not blank. -/
def writtenUnlessBlank (run : List Char) : List Char := if isBlankRun run then [] else written run

/-- The literal of a run that is not blank. -/
def literalUnlessBlank (run : List Char) : TimeFormat :=
  if isBlankRun run then [] else [.literal (String.ofList run)]

namespace Cut

/-- The runs and the specifiers of a cut in order, each as `run` and `spec` say. -/
def inOrder {α : Type} (run : List Char → List α) (spec : Char → List α) (cut : Cut) : List α :=
  run cut.front ++ cut.behind.flatMap fun (letter, others) => spec letter ++ run others

/-- The specifiers are known. -/
def Known (cut : Cut) : Prop := ∀ piece ∈ cut.behind, piece.1 ∈ specifiers

instance : DecidablePred Known :=
  fun cut => inferInstanceAs (Decidable (∀ piece ∈ cut.behind, piece.1 ∈ specifiers))

/-- The text that is cut. -/
def source : Cut → List Char := inOrder written fun letter => ['%', letter]

/-- The text without its blank runs. -/
def withoutBlankRuns : Cut → List Char := inOrder writtenUnlessBlank fun letter => ['%', letter]

/-- The specifiers, and the literals of the runs that are not blank. -/
def format : Cut → TimeFormat := inOrder literalUnlessBlank fun letter => [.spec letter]

/-- The units of the text. -/
def units : Cut → List Lexeme := inOrder (List.map .char) fun letter => [.spec letter]

variable {α β : Type} {run : List Char → List α} {spec : Char → List α}

theorem inOrder_nil (front : List Char) : inOrder run spec ⟨front, []⟩ = run front :=
  List.append_nil _

theorem inOrder_cons (front : List Char) (letter : Char) (others : List Char)
    (behind : List (Char × List Char)) :
    inOrder run spec ⟨front, (letter, others) :: behind⟩ =
      run front ++ (spec letter ++ inOrder run spec ⟨others, behind⟩) := by
  simp [inOrder]

theorem flatMap_inOrder (g : α → List β) (cut : Cut) :
    (inOrder run spec cut).flatMap g =
      inOrder (fun others => (run others).flatMap g) (fun letter => (spec letter).flatMap g) cut := by
  simp [inOrder, List.flatMap_assoc, List.flatMap_append]

end Cut

/-! ### Units of a cut text -/

theorem lexemes_literalChar {rest : List Char} {ls : List Lexeme}
    (hrest : ∀ offset, lexemes offset rest = .ok ls) (c : Char) (offset : Nat) :
    lexemes offset (literalChar c ++ rest) = .ok (.char c :: ls) := by
  by_cases hc : c = '%'
  · subst hc
    have htext : literalChar '%' ++ rest = '%' :: '%' :: rest := rfl
    rw [htext, lexemes, hrest]
    rfl
  · have htext : literalChar c ++ rest = c :: rest := by rw [literalChar, if_neg hc, List.singleton_append]
    rw [htext, lexemes, hrest]
    · rfl
    · exact fun heq _ => hc heq
    · exact fun _ heq => absurd heq hc
    · exact fun _ _ heq => absurd heq hc

/-- The characters of a run are read one by one, whatever follows. -/
theorem lexemes_written {rest : List Char} {ls : List Lexeme}
    (hrest : ∀ offset, lexemes offset rest = .ok ls) (run : List Char) (offset : Nat) :
    lexemes offset (written run ++ rest) = .ok (run.map .char ++ ls) := by
  induction run generalizing offset with
  | nil => exact hrest offset
  | cons c run ih =>
      have htext : written (c :: run) ++ rest = literalChar c ++ (written run ++ rest) := by
        simp [written]
      rw [htext, lexemes_literalChar ih]
      rfl

theorem lexemes_spec {letter : Char} (hletter : letter ∈ specifiers) {rest : List Char} {ls : List Lexeme}
    (hrest : ∀ offset, lexemes offset rest = .ok ls) (offset : Nat) :
    lexemes offset ('%' :: letter :: rest) = .ok (.spec letter :: ls) := by
  have hpercent : letter ≠ '%' := by
    rintro rfl
    revert hletter
    decide
  rw [lexemes, if_pos hletter, hrest]
  · rfl
  · exact fun heq => absurd heq hpercent

theorem lexemes_source {cut : Cut} (h : cut.Known) (offset : Nat) :
    lexemes offset cut.source = .ok cut.units := by
  obtain ⟨front, behind⟩ := cut
  induction behind generalizing front offset with
  | nil =>
      rw [Cut.source, Cut.units, Cut.inOrder_nil, Cut.inOrder_nil]
      have hread := lexemes_written (fun offset => by rw [lexemes]) front offset
      rwa [List.append_nil, List.append_nil] at hread
  | cons piece behind ih =>
      obtain ⟨letter, others⟩ := piece
      obtain ⟨hletter, hbehind⟩ := List.forall_mem_cons.mp h
      rw [Cut.source, Cut.units, Cut.inOrder_cons, Cut.inOrder_cons]
      exact lexemes_written (lexemes_spec hletter fun offset => ih offset others hbehind) front offset

/-- A text that is read is cut at its specifiers. -/
theorem exists_cut_of_lexemes {offset : Nat} {cs : List Char} {ls : List Lexeme}
    (h : lexemes offset cs = .ok ls) : ∃ cut : Cut, cut.Known ∧ cut.source = cs := by
  fun_induction lexemes offset cs generalizing ls with
  | case1 offset => exact ⟨⟨[], []⟩, (fun _ hmem => nomatch hmem), rfl⟩
  | case2 offset => cases h
  | case3 offset rest ih =>
      obtain ⟨ls', hls, -⟩ := map_eq_ok.mp h
      obtain ⟨⟨front, behind⟩, hknown, rfl⟩ := ih hls
      exact ⟨⟨'%' :: front, behind⟩, hknown, rfl⟩
  | case4 offset letter rest hpercent hletter ih =>
      obtain ⟨ls', hls, -⟩ := map_eq_ok.mp h
      obtain ⟨⟨front, behind⟩, hknown, rfl⟩ := ih hls
      refine ⟨⟨[], (letter, front) :: behind⟩, List.forall_mem_cons.mpr ⟨hletter, hknown⟩, ?_⟩
      rw [Cut.source, Cut.inOrder_cons]
      rfl
  | case5 offset letter rest hpercent hletter => cases h
  | case6 offset c rest hlast hdoubled hc ih =>
      have hpercent : c ≠ '%' := by
        rintro rfl
        cases rest with
        | nil => exact hlast rfl rfl
        | cons d rest => exact hc d rest rfl rfl
      obtain ⟨ls', hls, -⟩ := map_eq_ok.mp h
      obtain ⟨⟨front, behind⟩, hknown, rfl⟩ := ih hls
      refine ⟨⟨c :: front, behind⟩, hknown, ?_⟩
      simp [Cut.source, Cut.inOrder, written, literalChar, hpercent]

/-! ### Formats of a cut text -/

theorem runAndParts_chars (run : List Char) (ls : List Lexeme) :
    runAndParts (run.map .char ++ ls) = (run ++ (runAndParts ls).1, (runAndParts ls).2) := by
  induction run with
  | nil => rfl
  | cons c run ih =>
      rw [List.map_cons, List.cons_append, runAndParts, ih]
      rfl

/-- Of a run and the parts behind it the blank literals are dropped. -/
theorem filter_behindRun (run : List Char) (parts : TimeFormat) :
    (behindRun run parts).filter isMeaningful = literalUnlessBlank run ++ parts.filter isMeaningful := by
  cases run with
  | nil => rfl
  | cons c run =>
      have hmeaning : isMeaningful (.literal (String.ofList (c :: run))) = !isBlankRun (c :: run) := by
        rw [isMeaningful, String.toList_ofList, isBlankRun, List.not_all_eq_any_not]
        rfl
      rw [behindRun, List.filter_cons, hmeaning, literalUnlessBlank]
      · cases isBlankRun (c :: run) <;> rfl
      · exact List.cons_ne_nil c run

theorem exists_runAndParts_units (cut : Cut) :
    ∃ parts, runAndParts cut.units = (cut.front, parts) ∧
      literalUnlessBlank cut.front ++ parts.filter isMeaningful = cut.format := by
  obtain ⟨front, behind⟩ := cut
  induction behind generalizing front with
  | nil =>
      have hruns := runAndParts_chars front []
      rw [List.append_nil] at hruns
      refine ⟨[], ?_, ?_⟩
      · rw [Cut.units, Cut.inOrder_nil, hruns]
        simp [runAndParts]
      · rw [Cut.format, Cut.inOrder_nil]
        exact List.append_nil _
  | cons piece behind ih =>
      obtain ⟨letter, others⟩ := piece
      obtain ⟨parts, hparts, hformat⟩ := ih others
      refine ⟨.spec letter :: behindRun others parts, ?_, ?_⟩
      · have hbehind : runAndParts (.spec letter :: Cut.units ⟨others, behind⟩) =
            ([], .spec letter :: behindRun others parts) := by
          rw [runAndParts, hparts]
        rw [Cut.units, Cut.inOrder_cons, runAndParts_chars, List.singleton_append]
        rw [Cut.units] at hbehind
        rw [hbehind, List.append_nil]
      · rw [Cut.format, Cut.inOrder_cons, List.filter_cons_of_pos rfl, filter_behindRun, hformat]
        rfl

theorem read_source {cut : Cut} (h : cut.Known) {source : String} (hsource : cut.source = source.toList) :
    read source = .ok cut.format := by
  obtain ⟨parts, hparts, hformat⟩ := exists_runAndParts_units cut
  have hparts' : ofLexemes cut.units = behindRun cut.front parts := by rw [ofLexemes, hparts]
  rw [read, ← hsource, lexemes_source h, ← hformat, ← filter_behindRun, ← hparts']
  rfl

theorem exists_cut {source : String} {f : TimeFormat} (h : read source = .ok f) :
    ∃ cut : Cut, cut.Known ∧ cut.source = source.toList := by
  obtain ⟨ls, hls, -⟩ := map_eq_ok.mp h
  exact exists_cut_of_lexemes hls

/-! ### What a format is written as -/

theorem toList_render_format (cut : Cut) : (render cut.format).toList = cut.withoutBlankRuns := by
  have hrun (others : List Char) : (literalUnlessBlank others).flatMap renderPart = writtenUnlessBlank others := by
    unfold literalUnlessBlank writtenUnlessBlank
    split
    · rfl
    · simp [renderPart, written]
  rw [render, String.toList_ofList, Cut.format, Cut.flatMap_inOrder]
  simp only [hrun]
  rfl

theorem isBlankRun_eq_false_iff {run : List Char} : isBlankRun run = false ↔ ∃ c ∈ run, c ≠ ' ' := by
  rw [isBlankRun, List.all_eq_false]
  simp

theorem wellFormed_of_mem_literalUnlessBlank {run : List Char} {part : FormatPart}
    (h : part ∈ literalUnlessBlank run) : part.WellFormed := by
  unfold literalUnlessBlank at h
  split at h
  · cases h
  · next hblank =>
      obtain rfl := List.mem_singleton.mp h
      rw [Bool.not_eq_true, isBlankRun_eq_false_iff] at hblank
      rwa [FormatPart.WellFormed, String.toList_ofList]

/-- A literal may stand in front of a specifier and at the end. -/
theorem isChain_literalUnlessBlank_append (run : List Char) {f : TimeFormat}
    (hchain : f.IsChain fun a b => ¬ (a.isLiteral = true ∧ b.isLiteral = true))
    (hhead : ∀ part ∈ f.head?, ¬ part.isLiteral = true) :
    (literalUnlessBlank run ++ f).IsChain fun a b => ¬ (a.isLiteral = true ∧ b.isLiteral = true) := by
  unfold literalUnlessBlank
  split
  · exact hchain
  · exact List.isChain_cons.mpr ⟨fun next hnext hboth => hhead next hnext hboth.2, hchain⟩

theorem canonical_format {cut : Cut} (h : cut.Known) : cut.format.Canonical := by
  obtain ⟨front, behind⟩ := cut
  induction behind generalizing front with
  | nil =>
      rw [Cut.format, Cut.inOrder_nil]
      refine ⟨fun part hpart => wellFormed_of_mem_literalUnlessBlank hpart, ?_⟩
      rw [← List.append_nil (literalUnlessBlank front)]
      exact isChain_literalUnlessBlank_append front .nil fun _ hmem => nomatch hmem
  | cons piece behind ih =>
      obtain ⟨letter, others⟩ := piece
      obtain ⟨hletter, hbehind⟩ := List.forall_mem_cons.mp h
      obtain ⟨hparts, hapart⟩ := ih others hbehind
      rw [Cut.format, Cut.inOrder_cons, List.singleton_append]
      refine ⟨fun part hpart => ?_, isChain_literalUnlessBlank_append front ?_ ?_⟩
      · rcases List.mem_append.mp hpart with hfront | hrest
        · exact wellFormed_of_mem_literalUnlessBlank hfront
        · rcases List.mem_cons.mp hrest with rfl | hrest
          · exact hletter
          · exact hparts part hrest
      · exact List.isChain_cons.mpr ⟨fun next _ hboth => Bool.false_ne_true hboth.1, hapart⟩
      · rintro part ⟨⟩
        exact Bool.false_ne_true

/-- A canonical format is the format of the text that it is written as. No run of this text is blank. -/
theorem Canonical.exists_cut {f : TimeFormat} (h : f.Canonical) :
    ∃ cut : Cut, cut.Known ∧ cut.format = f ∧ cut.source = (render f).toList ∧
      ((∀ part ∈ f.head?, ¬ part.isLiteral = true) → cut.front = []) := by
  induction f with
  | nil => exact ⟨⟨[], []⟩, (fun _ hmem => nomatch hmem), rfl, rfl, fun _ => rfl⟩
  | cons part f ih =>
      obtain ⟨hpart, hparts⟩ := List.forall_mem_cons.mp h.parts
      obtain ⟨hnext, hapart⟩ := List.isChain_cons.mp h.apart
      obtain ⟨⟨front, behind⟩, hknown, hformat, hsource, hfront⟩ := ih ⟨hparts, hapart⟩
      have hrender : (render (part :: f)).toList = renderPart part ++ (render f).toList := by
        rw [render, render, String.toList_ofList, String.toList_ofList, List.flatMap_cons]
      rw [hrender, ← hsource]
      cases part with
      | spec letter =>
          refine ⟨⟨[], (letter, front) :: behind⟩, List.forall_mem_cons.mpr ⟨hpart, hknown⟩, ?_, ?_, fun _ => rfl⟩
          · rw [← hformat, Cut.format, Cut.inOrder_cons]
            rfl
          · rw [Cut.source, Cut.inOrder_cons]
            rfl
      | literal text =>
          -- A specifier or the end comes next, so that the run of the literal ends there.
          have hnil : front = [] := hfront fun next hmem hliteral => hnext next hmem ⟨rfl, hliteral⟩
          subst hnil
          have hblank : isBlankRun text.toList = false := isBlankRun_eq_false_iff.mpr hpart
          refine ⟨⟨text.toList, behind⟩, hknown, ?_, ?_, fun hhead => absurd rfl (hhead _ rfl)⟩
          · have hliteral : literalUnlessBlank text.toList = [.literal text] := by
              rw [literalUnlessBlank, hblank, if_neg Bool.false_ne_true, String.ofList_toList]
            have hformat' : Cut.format ⟨text.toList, behind⟩ =
                literalUnlessBlank text.toList ++ Cut.format ⟨[], behind⟩ := rfl
            rw [hformat', hformat, hliteral, List.singleton_append]
          · simp [Cut.source, Cut.inOrder, renderPart, written]

/-- A canonical format is read back from the text that it is written as. A text is read exactly when it is cut at
known specifiers. What is read is canonical, and is written as the text without its blank runs. -/
theorem read_inverts_render :
    (∀ f : TimeFormat, f.Canonical → read f.render = .ok f) ∧
    ∀ source : String,
      ((∃ f, read source = .ok f) ↔ ∃ cut : Cut, cut.Known ∧ cut.source = source.toList) ∧
      ∀ f, read source = .ok f → f.Canonical ∧
        ∀ cut : Cut, cut.Known → cut.source = source.toList → f.render.toList = cut.withoutBlankRuns := by
  refine ⟨fun f h => ?_, fun source => ⟨⟨fun ⟨f, h⟩ => exists_cut h, ?_⟩, fun f h => ⟨?_, ?_⟩⟩⟩
  · obtain ⟨cut, hknown, hformat, hsource, -⟩ := h.exists_cut
    rw [read_source hknown hsource, hformat]
  · rintro ⟨cut, hknown, hsource⟩
    exact ⟨cut.format, read_source hknown hsource⟩
  · obtain ⟨cut, hknown, hsource⟩ := exists_cut h
    obtain rfl := Except.ok.inj ((read_source hknown hsource).symm.trans h)
    exact canonical_format hknown
  · intro cut hknown hsource
    obtain rfl := Except.ok.inj ((read_source hknown hsource).symm.trans h)
    exact toList_render_format cut

/-- A blank run in front, one between two specifiers, and a run that is kept for its percent sign. -/
theorem read_inverts_render_blankRuns :
    read "  %H %U %%" = .ok [.spec 'H', .spec 'U', .literal " %"] ∧
    Canonical [.spec 'H', .spec 'U', .literal " %"] ∧
    read (render [.spec 'H', .spec 'U', .literal " %"]) = .ok [.spec 'H', .spec 'U', .literal " %"] ∧
    (render [.spec 'H', .spec 'U', .literal " %"]).toList = "%H%U %%".toList := by
  have hread : read "  %H %U %%" = .ok [.spec 'H', .spec 'U', .literal " %"] := by decide
  obtain ⟨hcanonical, hcut⟩ := (read_inverts_render.2 "  %H %U %%").2 _ hread
  have hrender := hcut ⟨"  ".toList, [('H', " ".toList), ('U', " %".toList)]⟩ (by decide) (by decide)
  exact ⟨hread, hcanonical, read_inverts_render.1 _ hcanonical, hrender.trans (by decide)⟩

end TimeFormat

end LogRules

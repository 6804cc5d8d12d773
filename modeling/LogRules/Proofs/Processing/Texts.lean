import LogRules.Processing.Program
import LogRules.Proofs.Matching.Characters

/-! # Rules on texts

A match rule that is run on a text captures texts, so that nothing is lost when captured bytes are decoded, and
hands a text on (`matchRule_keeps_texts`). -/

namespace LogRules

open Matching Text

variable {p : Pattern} {matcher : Matcher}

/-- The bytes between two places of a text are a text. -/
theorem isText_between {cs : List Char} {start stop : Nat} (hstart : IsPlace 0 cs start)
    (hstop : IsPlace 0 cs stop) (hle : start ≤ stop) :
    IsText (((encodeChars cs).drop start).take (stop - start)) := by
  have htext := (isPlace_iff.mp hstart).2
  have hbehind := (isPlace_iff.mp hstop).2
  rw [← List.take_append_drop (stop - start) ((encodeChars cs).drop start)] at htext
  refine (htext.of_append fun b hb => ?_).1
  rw [List.drop_drop, Nat.add_sub_cancel' hle] at hb
  exact hbehind.head?_eq hb

/-- Captured bytes are what their decoded values are written as. -/
theorem encode_values (h : Matcher.ofPattern p = .ok matcher) {cs : List Char} {found : Match}
    (hrun : matcher.run (encodeChars cs) = some found) :
    (found.values (encodeChars cs)).map (fun (field, value) => (field, encode value)) =
      textsOf found.captures (encodeChars cs) := by
  obtain ⟨commitments, behind, hdecomposes⟩ := exists_decomposes h hrun
  obtain ⟨hcaptures, -⟩ := atCharacters_of_run h hrun
  rw [Match.values, textsOf, List.map_map]
  refine List.map_congr_left fun c hc => ?_
  obtain ⟨hstart, hstop⟩ := hcaptures c hc
  have htext := isText_between hstart hstop (hdecomposes.inOrder.bounds c hc).1
  exact congrArg (c.field, ·) htext.encode_decode

/-- A match in a text begins and ends its captures at characters of the text, and the rest of the message, too.
So captured bytes are decoded without a loss, and a rule hands a text on. -/
theorem matchRule_keeps_texts (h : Matcher.ofPattern p = .ok matcher) (text : String) {found : Match}
    (hrun : matcher.run (encode text) = some found) :
    (∀ c ∈ found.captures, IsPlace 0 text.toList c.start ∧ IsPlace 0 text.toList c.stop) ∧
    IsPlace 0 text.toList found.rest ∧
    (found.values (encode text)).map (fun (field, value) => (field, encode value)) =
      textsOf found.captures (encode text) ∧
    ∀ (settings : Settings) (id : String) (onSuccess : List Program) (s : State), s.message = encode text →
      ∃ rest : String, encode rest = (encode text).drop found.rest ∧
        ((Program.matchRule id matcher onSuccess).run settings s).state.message = encode rest := by
  obtain ⟨hcaptures, hrest⟩ := atCharacters_of_run h hrun
  refine ⟨hcaptures, hrest, encode_values h hrun, ?_⟩
  intro settings id onSuccess s hmessage
  obtain ⟨cs, hcs⟩ := (isPlace_iff.mp hrest).2
  have hencode : encode (String.ofList cs) = (encode text).drop found.rest := by
    rw [encode, String.toList_ofList, ← hcs]
    rfl
  refine ⟨String.ofList cs, hencode, ?_⟩
  have hattempts : (matcher.attempts s.message).2 = some found := by
    rw [hmessage]
    exact hrun
  rw [Program.run]
  rcases hrule : matcher.attempts s.message with ⟨attempts, match?⟩
  rw [hrule] at hattempts
  cases hattempts
  rw [hencode, ← hmessage]

/-- `<a>é<b>` in `Ü  ñ é x`, whose bytes are more than its characters. -/
theorem matchRule_keeps_texts_accents :
    ∃ matcher found, Matcher.ofPattern [.value (.field "a"), .value (.constant "é"), .value (.field "b")] =
        .ok matcher ∧
      matcher.run (encode "Ü  ñ é x") = some found ∧
      found.captures = [⟨"a", 0, 6⟩, ⟨"b", 10, 11⟩] ∧
      (∀ c ∈ found.captures, IsPlace 0 "Ü  ñ é x".toList c.start ∧ IsPlace 0 "Ü  ñ é x".toList c.stop) ∧
      IsPlace 0 "Ü  ñ é x".toList found.rest ∧
      (found.values (encode "Ü  ñ é x")).map (fun (field, value) => (field, encode value)) =
        textsOf found.captures (encode "Ü  ñ é x") := by
  have hmatcher : Matcher.ofPattern [.value (.field "a"), .value (.constant "é"), .value (.field "b")] =
      .ok ⟨[⟨[[.capture "a" false, .constant [0xC3, 0xA9], .capture "b" false]]⟩], false⟩ :=
    eq_ok_of_toOption (by decide +kernel)
  have hrun : Matcher.run ⟨[⟨[[.capture "a" false, .constant [0xC3, 0xA9], .capture "b" false]]⟩], false⟩
      (encode "Ü  ñ é x") = some ⟨[⟨"a", 0, 6⟩, ⟨"b", 10, 11⟩], 11⟩ := by decide +kernel
  obtain ⟨hcaptures, hrest, hvalues, -⟩ := matchRule_keeps_texts hmatcher "Ü  ñ é x" hrun
  exact ⟨_, _, hmatcher, hrun, rfl, hcaptures, hrest, hvalues⟩

end LogRules

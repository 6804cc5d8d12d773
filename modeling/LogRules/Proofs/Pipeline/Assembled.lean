import LogRules.Proofs.Assembly.Groups
import LogRules.Proofs.Pattern.RoundTrip
import LogRules.Proofs.Pipeline.Unshared
import LogRules.Proofs.Tree.Everywhere

/-! # The assembled tree

`assemble` makes match rules with actions, selections of them, and the chain of both. It makes
neither references nor bindings (`isUnshared_assemble`), its patterns are well formed, and message
ids point to rules (`everywhere_assemble`). -/

namespace LogRules

/-- The effect as records give it: a call, of a value map too, or the category of the event. -/
def Effect.IsRecorded (effect : Effect) : Prop :=
  (∃ inv, effect = .call inv) ∨ ∃ value, effect = .setField "eventcategory" value

theorem Effect.IsRecorded.isNoLookup {effect : Effect} (h : effect.IsRecorded) : effect.IsNoLookup := by
  rintro target map key rfl
  rcases h with ⟨inv, heq⟩ | ⟨value, heq⟩ <;> cases heq

namespace Assembly

/-- An action as records give it. -/
def IsRecordAction (n : Node) : Prop := ∃ a : Action, n = .action a ∧ a.effect.IsRecorded

/-- A match rule as records give it: its pattern is well formed and its children are actions. -/
def IsRuleOfActions (n : Node) : Prop :=
  ∃ rule actions, n = .matchRule rule actions ∧ rule.pattern.WellFormed ∧
    (rule.input = messageInput ∨ rule.input = payloadInput) ∧ ∀ c ∈ actions, IsRecordAction c

theorem IsRuleOfActions.isPlain {n : Node} (h : IsRuleOfActions n) : n.IsPlain := by
  obtain ⟨rule, actions, rfl, -, -, hactions⟩ := h
  refine Node.isPlain_of_children (by simp) ?_
  intro c hc
  obtain ⟨a, rfl, -⟩ := hactions c hc
  exact Node.isPlain_action a

/-! ### Patterns and actions of records -/

theorem wellFormed_content {loc : SourceLoc} {text : String} {pattern : Pattern}
    (h : (content loc text).1 = some pattern) : pattern.WellFormed := by
  unfold content at h
  split at h
  · cases h
  · split at h
    · next p hread =>
        cases h
        exact Pattern.wellFormed_of_read hread
    · cases h

theorem isRecordAction_callNode (loc : SourceLoc) (inv : Invocation) :
    IsRecordAction (callNode loc inv) :=
  ⟨⟨.call inv, loc⟩, rfl, .inl ⟨inv, rfl⟩⟩

theorem isRecordAction_of_mem_functions {loc : SourceLoc} {text? : Option String} {nodes : List Node}
    (h : (functions loc text?).1 = some nodes) : ∀ n ∈ nodes, IsRecordAction n := by
  unfold functions at h
  split at h
  · cases h
    intro n hn
    cases hn
  · split at h
    · cases h
      intro n hn
      obtain ⟨inv, -, rfl⟩ := List.mem_map.mp hn
      exact isRecordAction_callNode loc inv
    · cases h

theorem isRecordAction_of_mem_messageId (loc : SourceLoc) (text? : Option String) :
    ∀ n ∈ (messageId loc text?).1, IsRecordAction n := by
  unfold messageId
  intro n hn
  split at hn
  · cases hn
  · split at hn
    · cases hn
    · split at hn
      · rw [List.mem_singleton.mp hn]
        exact isRecordAction_callNode loc _
      · cases hn

theorem isRecordAction_of_mem_category (loc : SourceLoc) (text? : Option String) :
    ∀ n ∈ category loc text?, IsRecordAction n := by
  unfold category
  intro n hn
  split at hn
  · cases hn
  · split at hn
    · cases hn
    · exact ⟨_, List.mem_singleton.mp hn, .inr ⟨_, rfl⟩⟩

theorem headerNode_isRuleOfActions {index : Nat} {record : HeaderRecord} {n : Node}
    (h : (headerNode index record).1 = some n) : IsRuleOfActions n := by
  simp only [headerNode, Option.bind_eq_bind, Option.bind_eq_some_iff, Option.pure_def,
    Option.some.injEq] at h
  obtain ⟨actions, hactions, pattern, hpattern, rfl⟩ := h
  refine ⟨_, _, rfl, wellFormed_content hpattern, .inl rfl, fun c hc => ?_⟩
  rcases List.mem_append.mp hc with hc | hc
  · exact isRecordAction_of_mem_messageId _ _ c hc
  · exact isRecordAction_of_mem_functions hactions c hc

theorem messageNode_isRuleOfActions {index : Nat} {record : MessageRecord} {n : Node}
    (h : (messageNode index record).1 = some n) : IsRuleOfActions n := by
  simp only [messageNode, Option.bind_eq_bind, Option.bind_eq_some_iff, Option.pure_def,
    Option.some.injEq] at h
  obtain ⟨actions, hactions, pattern, hpattern, rfl⟩ := h
  refine ⟨_, _, rfl, wellFormed_content hpattern, .inr rfl, fun c hc => ?_⟩
  rcases List.mem_append.mp hc with hc | hc
  · exact isRecordAction_of_mem_category _ _ c hc
  · exact isRecordAction_of_mem_functions hactions c hc

/-! ### Nodes of all records -/

theorem headerNodes_areRulesOfActions (index : Nat) (records : List HeaderRecord) :
    ∀ n ∈ (headerNodes index records).1, IsRuleOfActions n := by
  induction records generalizing index with
  | nil => exact fun _ hn => nomatch hn
  | cons record rest ih =>
      intro n hn
      rcases List.mem_append.mp hn with hn | hn
      · exact headerNode_isRuleOfActions (Option.mem_toList.mp hn)
      · exact ih (index + 1) n hn

theorem messageNodes_areRulesOfActions (index : Nat) (records : List MessageRecord) :
    ∀ e ∈ (messageNodes index records).1, IsRuleOfActions e.2 := by
  induction records generalizing index with
  | nil => exact fun _ hn => nomatch hn
  | cons record rest ih =>
      intro e he
      rcases List.mem_append.mp he with he | he
      · obtain ⟨n, hn, rfl⟩ := Option.map_eq_some_iff.mp (Option.mem_toList.mp he)
        exact messageNode_isRuleOfActions hn
      · exact ih (index + 1) e he

/-- Groups hold the nodes that are grouped and no others. -/
theorem mem_of_mem_groupById {nodes : List (String × Node)} {group : List Node}
    (h : group ∈ (groupById nodes).values) {n : Node} (hn : n ∈ group) :
    n ∈ nodes.map Prod.snd := by
  rw [Table.values, entries_groupById, List.map_map] at h
  obtain ⟨id, -, rfl⟩ := List.mem_map.mp h
  obtain ⟨e, he, rfl⟩ := List.mem_map.mp hn
  exact List.mem_map_of_mem (List.mem_of_mem_filter he)

theorem isPlain_selectNode {nodes : List Node} (h : ∀ n ∈ nodes, n.IsPlain) :
    (selectNode nodes).IsPlain := by
  unfold selectNode
  split
  · exact h _ List.mem_cons_self
  · exact Node.isPlain_of_children (by simp) h

theorem everywhere_selectNode {R : MatchRule → Prop} {A : Effect → Prop} {nodes : List Node}
    (h : ∀ n ∈ nodes, n.Everywhere (Node.Fits R A)) :
    (selectNode nodes).Everywhere (Node.Fits R A) := by
  unfold selectNode
  split
  · exact h _ List.mem_cons_self
  · exact Node.everywhere_iff.mpr ⟨trivial, h⟩

theorem isPlain_messageSelect {groups : Table (List Node)}
    (h : ∀ group ∈ groups.values, ∀ n ∈ group, n.IsPlain) : (messageSelect groups).IsPlain := by
  refine Node.isPlain_of_children (by simp [messageSelect]) ?_
  intro c hc
  obtain ⟨group, hgroup, rfl⟩ := List.mem_map.mp hc
  exact isPlain_selectNode (h group hgroup)

/-- Every id points to its group. -/
theorem everywhere_messageSelect {R : MatchRule → Prop} {A : Effect → Prop}
    {groups : Table (List Node)}
    (h : ∀ group ∈ groups.values, ∀ n ∈ group, n.Everywhere (Node.Fits R A)) :
    (messageSelect groups).Everywhere (Node.Fits R A) := by
  refine Node.everywhere_iff.mpr ⟨?_, ?_⟩
  · rintro ⟨id, i⟩ he
    have hi := List.snd_lt_of_mem_zipIdx he
    rw [List.length_map, Table.length_values]
    rwa [Nat.add_zero, Table.length_keys] at hi
  · intro c hc
    obtain ⟨group, hgroup, rfl⟩ := List.mem_map.mp hc
    exact everywhere_selectNode (h group hgroup)

/-- The rule of a record fits when well formed patterns and recorded effects do. -/
theorem IsRuleOfActions.everywhere {R : MatchRule → Prop} {A : Effect → Prop}
    (hR : ∀ rule : MatchRule, rule.pattern.WellFormed →
      (rule.input = messageInput ∨ rule.input = payloadInput) → R rule)
    (hA : ∀ effect : Effect, effect.IsRecorded → A effect) {n : Node} (h : IsRuleOfActions n) :
    n.Everywhere (Node.Fits R A) := by
  obtain ⟨rule, actions, rfl, hpattern, hinput, hactions⟩ := h
  refine Node.everywhere_iff.mpr ⟨hR rule hpattern hinput, fun c hc => ?_⟩
  obtain ⟨a, rfl, ha⟩ := hactions c hc
  exact Node.everywhere_leaf (hA a.effect ha) rfl

end Assembly

open Assembly in
/-- An assembled tree has no references and no bindings. -/
theorem isUnshared_assemble (d : Device) : (assemble d).1.IsUnshared := by
  refine ⟨Node.isPlain_of_children (by simp [assemble]) ?_, rfl⟩
  intro c hc
  rcases List.mem_cons.mp hc with rfl | hc
  · refine Node.isPlain_of_children (by simp) ?_
    intro n hn
    exact (headerNodes_areRulesOfActions 0 d.headers n hn).isPlain
  · cases List.mem_singleton.mp hc
    refine isPlain_messageSelect fun group hgroup n hn => ?_
    obtain ⟨e, he, rfl⟩ := List.mem_map.mp (mem_of_mem_groupById hgroup hn)
    exact (messageNodes_areRulesOfActions 0 d.messages e he).isPlain

open Assembly in
/-- Assembled rules have well formed patterns, assembled actions are as records give them, and message ids
point to rules. -/
theorem everywhere_assemble {R : MatchRule → Prop} {A : Effect → Prop}
    (hR : ∀ rule : MatchRule, rule.pattern.WellFormed →
      (rule.input = messageInput ∨ rule.input = payloadInput) → R rule)
    (hA : ∀ effect : Effect, effect.IsRecorded → A effect) (d : Device) :
    (assemble d).1.root.Everywhere (Node.Fits R A) := by
  refine Node.everywhere_iff.mpr ⟨trivial, fun c hc => ?_⟩
  rcases List.mem_cons.mp hc with rfl | hc
  · refine Node.everywhere_iff.mpr ⟨trivial, fun n hn => ?_⟩
    exact (headerNodes_areRulesOfActions 0 d.headers n hn).everywhere hR hA
  · cases List.mem_singleton.mp hc
    refine everywhere_messageSelect fun group hgroup n hn => ?_
    obtain ⟨e, he, rfl⟩ := List.mem_map.mp (mem_of_mem_groupById hgroup hn)
    exact (messageNodes_areRulesOfActions 0 d.messages e he).everywhere hR hA

end LogRules

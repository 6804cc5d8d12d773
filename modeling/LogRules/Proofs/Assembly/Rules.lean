import LogRules.Proofs.Assembly.Faults
import LogRules.Proofs.Assembly.Groups
import LogRules.Proofs.Pipeline.Sharing

/-! # Every record has its rule

What a record without faults says is a rule: `HeaderRecord.IsRule` and `MessageRecord.IsRule` describe it by
the readings of its texts. When a device has no faults, the assembled tree holds exactly one rule for every
record, in the order of the records and, for messages, under the id of the record: by itself when the id has
no other, and in a selection with the others when it has (`assemble_complete`). -/

namespace LogRules

namespace Assembly

/-- The calls of a function list. -/
inductive ReadsFunctions : Option String → List Invocation → Prop where
  | absent : ReadsFunctions none []
  | present {text : String} {calls : List Invocation}
      (h : Invocation.readFunctions text.toList = .ok calls) : ReadsFunctions (some text) calls

/-- The call that computes the message id. It writes the field of the message id. -/
inductive ReadsMessageId : Option String → List Invocation → Prop where
  | absent : ReadsMessageId none []
  | blank {text : String} (h : Text.isBlankText text = true) : ReadsMessageId (some text) []
  | present {text : String} {inv : Invocation} (hblank : Text.isBlankText text = false)
      (h : Invocation.readAction text.toList = .ok inv) :
      ReadsMessageId (some text) [{ inv with target := messageIdField }]

/-- The effect that sets the category of the event. An empty text sets none. -/
inductive ReadsCategory : Option String → List Effect → Prop where
  | absent : ReadsCategory none []
  | empty : ReadsCategory (some "") []
  | present {text : String} (h : text ≠ "") :
      ReadsCategory (some text) [.setField "eventcategory" (.constant text)]

/-- The match rule of a record: its pattern, and on success its calls behind the effects that the record adds
in front. All actions come from the record. -/
def IsRuleOf (loc : SourceLoc) (id input content : String) (first : List Effect)
    (functions? : Option String) (n : Node) : Prop :=
  ∃ pattern calls, Pattern.read content = .ok pattern ∧ ReadsFunctions functions? calls ∧
    n = .matchRule { id, input, pattern, payloadField := none, source := loc }
      ((first ++ calls.map Effect.call).map fun effect => .action ⟨effect, loc⟩)

/-- One rule stands for itself, and any other number of rules are tried in order. -/
inductive IsSelectOf : List Node → Node → Prop where
  | one (n : Node) : IsSelectOf [n] n
  | many {nodes : List Node} (h : nodes.length ≠ 1) : IsSelectOf nodes (.linearSelect nodes)

end Assembly

open Assembly

/-- The node is the rule of the header record at this place. -/
def HeaderRecord.IsRule (record : HeaderRecord) (index : Nat) (n : Node) : Prop :=
  let loc := record.place index
  ∃ idCalls, ReadsMessageId record.messageid idCalls ∧
    IsRuleOf loc (if record.id2 = "" then record.id1 else record.id2) messageInput record.content
      (idCalls.map Effect.call) record.functions n

/-- The node is the rule of the message record at this place. -/
def MessageRecord.IsRule (record : MessageRecord) (index : Nat) (n : Node) : Prop :=
  let loc := record.place index
  ∃ first, ReadsCategory record.eventcategory first ∧
    IsRuleOf loc record.id2 payloadInput record.content first record.functions n

namespace Assembly

open Attribute

/-! ### Attributes without faults -/

theorem content_of_noFault {loc : SourceLoc} {text : String}
    (h : fault? loc (.content text) = none) :
    ∃ pattern, Pattern.read text = .ok pattern ∧ (content loc text).1 = some pattern := by
  rw [fault?] at h
  split at h
  · cases h
  · next hne =>
      cases hread : Pattern.read text with
      | ok pattern => exact ⟨pattern, rfl, by simp [content, hne, hread]⟩
      | error e =>
          rw [hread] at h
          cases h

theorem functions_of_noFault {loc : SourceLoc} {text? : Option String}
    (h : ∀ a ∈ (text?.map Attribute.functions).toList, fault? loc a = none) :
    ∃ calls, ReadsFunctions text? calls ∧
      (functions loc text?).1 = some (calls.map (callNode loc)) := by
  cases text? with
  | none => exact ⟨[], .absent, rfl⟩
  | some text =>
      have h := h _ (List.mem_singleton_self _)
      cases hread : Invocation.readFunctions text.toList with
      | ok calls => exact ⟨calls, .present hread, by simp [functions, hread]⟩
      | error e =>
          rw [fault?, hread] at h
          cases h

theorem messageId_of_noFault {loc : SourceLoc} {text? : Option String}
    (h : ∀ a ∈ (text?.map Attribute.messageId).toList, fault? loc a = none) :
    ∃ calls, ReadsMessageId text? calls ∧ (messageId loc text?).1 = calls.map (callNode loc) := by
  cases text? with
  | none => exact ⟨[], .absent, rfl⟩
  | some text =>
      have h := h _ (List.mem_singleton_self _)
      cases hblank : Text.isBlankText text with
      | true => exact ⟨[], .blank hblank, by simp [messageId, hblank]⟩
      | false =>
          cases hread : Invocation.readAction text.toList with
          | ok inv => exact ⟨_, .present hblank hread, by simp [messageId, hblank, hread]⟩
          | error e =>
              rw [fault?, hblank, hread] at h
              cases h

/-- The category of a record is always read. -/
theorem exists_readsCategory (loc : SourceLoc) (text? : Option String) :
    ∃ effects, ReadsCategory text? effects ∧
      category loc text? = effects.map fun effect => .action ⟨effect, loc⟩ := by
  cases text? with
  | none => exact ⟨[], .absent, rfl⟩
  | some text =>
      by_cases h : text = ""
      · subst h
        exact ⟨[], .empty, rfl⟩
      · exact ⟨_, .present h, by simp [category, h]⟩

theorem map_callNode (loc : SourceLoc) (calls : List Invocation) :
    calls.map (callNode loc) = (calls.map Effect.call).map fun effect => .action ⟨effect, loc⟩ := by
  rw [List.map_map]
  rfl

/-! ### Records without faults -/

theorem headerNode_of_noFaults {record : HeaderRecord} {index : Nat} (h : record.faults index = []) :
    ∃ n, (headerNode index record).1 = some n ∧ record.IsRule index n := by
  rw [HeaderRecord.faults, HeaderRecord.attributes, List.filterMap_eq_nil_iff] at h
  simp only [List.cons_append, List.forall_mem_cons, List.forall_mem_append] at h
  obtain ⟨hcontent, hid, hfunctions⟩ := h
  obtain ⟨pattern, hread, hpattern⟩ := content_of_noFault hcontent
  obtain ⟨ids, hids, hidActions⟩ := messageId_of_noFault hid
  obtain ⟨calls, hcalls, hactions⟩ := functions_of_noFault hfunctions
  refine ⟨_, ?_, ids, hids, pattern, calls, hread, hcalls, rfl⟩
  simp only [headerNode, hpattern, hidActions, hactions, String.isEmpty_iff, List.map_append, map_callNode]
  rfl

theorem messageNode_of_noFaults {record : MessageRecord} {index : Nat} (h : record.faults index = []) :
    ∃ n, (messageNode index record).1 = some n ∧ record.IsRule index n := by
  rw [MessageRecord.faults, MessageRecord.attributes, List.filterMap_eq_nil_iff] at h
  simp only [List.forall_mem_cons] at h
  obtain ⟨hcontent, hfunctions⟩ := h
  obtain ⟨pattern, hread, hpattern⟩ := content_of_noFault hcontent
  obtain ⟨calls, hcalls, hactions⟩ := functions_of_noFault hfunctions
  obtain ⟨first, hfirst, hcategory⟩ :=
    exists_readsCategory (record.place index) record.eventcategory
  refine ⟨_, ?_, first, hfirst, pattern, calls, hread, hcalls, rfl⟩
  simp only [messageNode, hpattern, hactions, hcategory, List.map_append, map_callNode]
  rfl

theorem headerNodes_of_noFaults {index : Nat} {records : List HeaderRecord}
    (h : ∀ e ∈ records.zipIdx index, e.1.faults e.2 = []) :
    List.Forall₂ (fun e n => e.1.IsRule e.2 n) (records.zipIdx index) (headerNodes index records).1 := by
  induction records generalizing index with
  | nil => exact .nil
  | cons record rest ih =>
      rw [List.zipIdx_cons, List.forall_mem_cons] at h
      obtain ⟨n, hn, hrule⟩ := headerNode_of_noFaults h.1
      have heq : (headerNodes index (record :: rest)).1 = n :: (headerNodes (index + 1) rest).1 := by
        change (headerNode index record).1.toList ++ _ = _
        rw [hn]
        rfl
      rw [List.zipIdx_cons, heq]
      exact .cons hrule (ih h.2)

theorem messageNodes_of_noFaults {index : Nat} {records : List MessageRecord}
    (h : ∀ e ∈ records.zipIdx index, e.1.faults e.2 = []) :
    List.Forall₂ (fun e m => m.1 = e.1.id1 ∧ e.1.IsRule e.2 m.2) (records.zipIdx index)
      (messageNodes index records).1 := by
  induction records generalizing index with
  | nil => exact .nil
  | cons record rest ih =>
      rw [List.zipIdx_cons, List.forall_mem_cons] at h
      obtain ⟨n, hn, hrule⟩ := messageNode_of_noFaults h.1
      have heq : (messageNodes index (record :: rest)).1 =
          (record.id1, n) :: (messageNodes (index + 1) rest).1 := by
        change ((messageNode index record).1.map _).toList ++ _ = _
        rw [hn]
        rfl
      rw [List.zipIdx_cons, heq]
      exact .cons ⟨rfl, hrule⟩ (ih h.2)

theorem isSelectOf_selectNode (nodes : List Node) : IsSelectOf nodes (selectNode nodes) := by
  match nodes with
  | [] => exact .many (by simp)
  | [n] => exact .one n
  | n :: m :: rest => exact .many (by simp)

theorem ids_of_rules {e : List (MessageRecord × Nat)} {messages : List (String × Node)}
    (h : List.Forall₂ (fun e m => m.1 = e.1.id1 ∧ e.1.IsRule e.2 m.2) e messages) :
    messages.map Prod.fst = (e.map Prod.fst).map MessageRecord.id1 := by
  induction h with
  | nil => rfl
  | cons hrule _ ih => rw [List.map_cons, List.map_cons, List.map_cons, hrule.1, ih]

end Assembly

/-- **Assembly loses, doubles and reorders nothing.** Its errors are those of the repeated names of value
maps, and then one for each broken attribute of the header and the message records, in their order. When there
is none, the tree tries one rule for every header record, in the order of the records. Message ids are numbered
in the order in which they first occur, and under its number an id has one rule for every message record with
this id, in their order: the rule itself when there is one, and a selection of them when there are several. -/
theorem assemble_complete (d : Device) :
    (assemble d).2.filter Diagnostic.isError = d.repeatedNames ++ d.headerFaults ++ d.messageFaults ∧
    ((assemble d).2.filter Diagnostic.isError = [] →
      ∃ (headers : List Node) (messages : List (String × Node)) (selects : List Node),
        List.Forall₂ (fun e n => e.1.IsRule e.2 n) d.headers.zipIdx headers ∧
        List.Forall₂ (fun e m => m.1 = e.1.id1 ∧ e.1.IsRule e.2 m.2) d.messages.zipIdx messages ∧
        let ids := (d.messages.map MessageRecord.id1).eraseDups
        List.Forall₂ (fun id n => IsSelectOf (nodesOf id messages) n) ids selects ∧
        (assemble d).1.root = .chain [.linearSelect headers, .messageIdSelect ⟨ids.zipIdx⟩ selects]) := by
  refine ⟨errors_assemble d, fun hnone => ?_⟩
  rw [errors_assemble, List.append_eq_nil_iff, List.append_eq_nil_iff] at hnone
  obtain ⟨⟨-, hheaders⟩, hmessages⟩ := hnone
  have hmessages := messageNodes_of_noFaults (List.flatMap_eq_nil_iff.mp hmessages)
  have hids : idsOf (messageNodes 0 d.messages).1 = (d.messages.map MessageRecord.id1).eraseDups := by
    rw [idsOf, ids_of_rules hmessages, List.zipIdx_map_fst]
  refine ⟨_, _, _, headerNodes_of_noFaults (List.flatMap_eq_nil_iff.mp hheaders), hmessages,
    List.forall₂_map_right_iff.mpr (List.forall₂_same.mpr fun id _ => isSelectOf_selectNode _), ?_⟩
  change Node.chain [_, messageSelect (groupById (messageNodes 0 d.messages).1)] = _
  rw [messageSelect_groupById, hids]

/-- A device with a header that computes the message id, two messages with one id, and a message with another
id and a category between them. -/
def groupedDevice : Device where
  headers := [{ id1 := "H", content := "<a>", messageid := some "STRCAT(a)" }]
  messages := [{ id1 := "A", id2 := "A1", content := "<a>" },
    { id1 := "B", id2 := "B1", content := "<a>", eventcategory := some "login" },
    { id1 := "A", id2 := "A2", content := "<a>" }]

theorem noFault_twin (loc : SourceLoc) : Attribute.fault? loc (.content "<a>") = none := by
  rw [Attribute.fault?, if_neg (by decide), Parser.read_twin]
  rfl

theorem read_strcat : Invocation.readAction "STRCAT(a)".toList = .ok ⟨"", "STRCAT", [.field "a"]⟩ :=
  eq_ok_of_toOption (by decide +kernel)

theorem noFault_strcat (loc : SourceLoc) : Attribute.fault? loc (.messageId "STRCAT(a)") = none := by
  rw [Attribute.fault?, read_strcat]
  rfl

theorem errors_groupedDevice : (assemble groupedDevice).2.filter Diagnostic.isError = [] := by
  rw [errors_assemble]
  simp [Device.repeatedNames, Device.headerFaults, Device.messageFaults, groupedDevice,
    HeaderRecord.faults, HeaderRecord.attributes, MessageRecord.faults, MessageRecord.attributes,
    noFault_twin, noFault_strcat]

/-- The rule of a record with the content `<a>` and no functions. -/
def singleCapture (loc : SourceLoc) (id input : String) (effects : List Effect) : Node :=
  .matchRule ⟨id, input, [.value (.field "a")], none, loc⟩
    (effects.map fun effect => .action ⟨effect, loc⟩)

theorem eq_singleCapture {loc : SourceLoc} {id input : String} {first : List Effect} {n : Node}
    (h : IsRuleOf loc id input "<a>" first none n) : n = singleCapture loc id input first := by
  obtain ⟨pattern, calls, hread, ⟨⟩, rfl⟩ := h
  cases Parser.read_twin.symm.trans hread
  rw [List.map_nil, List.append_nil]
  rfl

theorem messageId_strcat {calls : List Invocation} (h : ReadsMessageId (some "STRCAT(a)") calls) :
    calls = [⟨"messageid", "STRCAT", [.field "a"]⟩] := by
  cases h with
  | blank hblank => exact absurd hblank (by decide +kernel)
  | present hblank hread =>
      cases read_strcat.symm.trans hread
      rfl

theorem category_login {effects : List Effect} (h : ReadsCategory (some "login") effects) :
    effects = [.setField "eventcategory" (.constant "login")] := by
  generalize htext : "login" = text at h
  cases h with
  | empty => exact absurd htext (by decide)
  | present hne => rfl

theorem assemble_complete_groupedDevice :
    (assemble groupedDevice).2.filter Diagnostic.isError = [] ∧
    (assemble groupedDevice).1.root = .chain [
      .linearSelect [singleCapture ⟨.header, 0, none⟩ "H" "message"
        [.call ⟨"messageid", "STRCAT", [.field "a"]⟩]],
      .messageIdSelect ⟨[("A", 0), ("B", 1)]⟩ [
        .linearSelect [singleCapture ⟨.message, 0, none⟩ "A1" "payload" [],
          singleCapture ⟨.message, 2, none⟩ "A2" "payload" []],
        singleCapture ⟨.message, 1, none⟩ "B1" "payload"
          [.setField "eventcategory" (.constant "login")]]] := by
  refine ⟨errors_groupedDevice, ?_⟩
  obtain ⟨headers, messages, selects, hheaders, hmessages, hselects, hroot⟩ :=
    (assemble_complete groupedDevice).2 errors_groupedDevice
  have hids : (groupedDevice.messages.map MessageRecord.id1).eraseDups = ["A", "B"] := by decide +kernel
  rw [hids] at hselects hroot
  simp only [groupedDevice, List.zipIdx_cons, List.zipIdx_nil, Nat.zero_add] at hheaders hmessages
  -- the rules of the four records
  obtain _ | ⟨⟨calls, hcalls, hheader⟩, _ | _⟩ := hheaders
  obtain _ | ⟨⟨hid₁, _, ⟨⟩, hfirst⟩, _ | ⟨⟨hid₂, effects, hlogin, hsecond⟩,
    _ | ⟨⟨hid₃, _, ⟨⟩, hthird⟩, _ | _⟩⟩⟩ := hmessages
  rename_i n₀ m₁ m₂ m₃
  dsimp only at hid₁ hid₂ hid₃
  -- the rules of each id
  have hA : nodesOf "A" [m₁, m₂, m₃] = [m₁.2, m₃.2] := by simp [nodesOf, hid₁, hid₂, hid₃]
  have hB : nodesOf "B" [m₁, m₂, m₃] = [m₂.2] := by simp [nodesOf, hid₁, hid₂, hid₃]
  obtain _ | ⟨hfirstId, _ | ⟨hsecondId, _ | _⟩⟩ := hselects
  rw [hA] at hfirstId
  rw [hB] at hsecondId
  cases hfirstId with
  | many hseveral =>
      cases hsecondId with
      | one n =>
          rw [hroot, eq_singleCapture hheader, eq_singleCapture hfirst, eq_singleCapture hsecond,
            eq_singleCapture hthird, messageId_strcat hcalls, category_login hlogin]
          rfl
      | many hone => exact absurd rfl hone

end LogRules

import LogRules.Proofs.Assembly.Groups
import LogRules.Proofs.Pipeline.Sharing
import LogRules.Proofs.Pipeline.Views

/-! # Message ids are apart

Assembly shows a message with an id the header rules and the rules of the records of this id, in their
order (`Assembly.view?_assemble`). Where these records stand among the others only shows in labels. So
devices with the same headers and value maps, and the same records of an id, look alike to its messages
after the passes too (`Parser.looksAlike_of_build`), and process them alike (`Parser.process_isolated`). -/

namespace LogRules

/-- The record without its place in the rule file. -/
def HeaderRecord.withoutLine (record : HeaderRecord) : HeaderRecord := { record with line := none }

/-- The record without its place in the rule file. -/
def MessageRecord.withoutLine (record : MessageRecord) : MessageRecord := { record with line := none }

/-- The message records with this id, in order. -/
def Device.recordsOf (d : Device) (id : String) : List MessageRecord := d.messages.filter (·.id1 = id)

namespace Assembly

/-! ### Places of records only show in labels -/

theorem content_fst (loc loc' : SourceLoc) (text : String) :
    (content loc text).1 = (content loc' text).1 := by
  unfold content
  split
  · rfl
  · cases Pattern.read text <;> rfl

theorem functions_fst (loc loc' : SourceLoc) (text? : Option String) :
    (functions loc text?).1.map (List.map Node.unlabelled) =
      (functions loc' text?).1.map (List.map Node.unlabelled) := by
  cases text? with
  | none => rfl
  | some text =>
      simp only [functions]
      cases Invocation.readFunctions text.toList with
      | error e => rfl
      | ok calls =>
          simp only [Option.map_some, List.map_map]
          rfl

theorem messageId_fst (loc loc' : SourceLoc) (text? : Option String) :
    (messageId loc text?).1.map Node.unlabelled = (messageId loc' text?).1.map Node.unlabelled := by
  cases text? with
  | none => rfl
  | some text =>
      simp only [messageId]
      split
      · rfl
      · cases Invocation.readAction text.toList <;> rfl

theorem category_unlabelled (loc loc' : SourceLoc) (text? : Option String) :
    (category loc text?).map Node.unlabelled = (category loc' text?).map Node.unlabelled := by
  cases text? with
  | none => rfl
  | some text =>
      simp only [category]
      split <;> rfl

/-- The rules of two records are equal up to labels when their parts are. -/
theorem matchRule_unlabelled {rule rule' : Pattern → MatchRule} {first first' : List Node}
    {actions? actions?' : Option (List Node)} (pattern? : Option Pattern)
    (hrule : ∀ pattern, (rule pattern).unlabelled = (rule' pattern).unlabelled)
    (hfirst : first.map Node.unlabelled = first'.map Node.unlabelled)
    (hactions : actions?.map (List.map Node.unlabelled) = actions?'.map (List.map Node.unlabelled)) :
    (actions?.bind fun actions => pattern?.bind fun pattern =>
      some (Node.matchRule (rule pattern) (first ++ actions))).map Node.unlabelled =
    (actions?'.bind fun actions => pattern?.bind fun pattern =>
      some (Node.matchRule (rule' pattern) (first' ++ actions))).map Node.unlabelled := by
  have hform : ∀ (rule : Pattern → MatchRule) (first : List Node) (actions? : Option (List Node)),
      (actions?.bind fun actions => pattern?.bind fun pattern =>
        some (Node.matchRule (rule pattern) (first ++ actions))).map Node.unlabelled =
      (actions?.map (List.map Node.unlabelled)).bind fun actions => pattern?.map fun pattern =>
        Node.matchRule (rule pattern).unlabelled (first.map Node.unlabelled ++ actions) := by
    intro rule first actions?
    cases actions? <;> cases pattern? <;> simp [Node.unlabelled, Node.unlabelledAll_eq_map]
  rw [hform, hform, hactions, hfirst]
  simp only [hrule]

theorem headerNode_unlabelled (index : Nat) (record : HeaderRecord) :
    (headerNode index record).1.map Node.unlabelled =
      (headerNode 0 record.withoutLine).1.map Node.unlabelled := by
  simp only [headerNode, HeaderRecord.withoutLine]
  rw [content_fst (record.place index) ⟨.header, 0, none⟩]
  exact matchRule_unlabelled _ (fun _ => rfl) (messageId_fst _ _ _) (functions_fst _ _ _)

theorem messageNode_unlabelled (index : Nat) (record : MessageRecord) :
    (messageNode index record).1.map Node.unlabelled =
      (messageNode 0 record.withoutLine).1.map Node.unlabelled := by
  simp only [messageNode, MessageRecord.withoutLine]
  rw [content_fst (record.place index) ⟨.message, 0, none⟩]
  exact matchRule_unlabelled _ (fun _ => rfl) (category_unlabelled _ _ _) (functions_fst _ _ _)

end Assembly

/-- The rule of a record without labels, if its texts can be read. -/
def HeaderRecord.rule? (record : HeaderRecord) : Option Node :=
  (Assembly.headerNode 0 record).1.map Node.unlabelled

/-- The rule of a record without labels, if its texts can be read. -/
def MessageRecord.rule? (record : MessageRecord) : Option Node :=
  (Assembly.messageNode 0 record).1.map Node.unlabelled

namespace Assembly

theorem headerNodes_unlabelled (index : Nat) (records : List HeaderRecord) :
    (headerNodes index records).1.map Node.unlabelled =
      (records.map HeaderRecord.withoutLine).filterMap HeaderRecord.rule? := by
  induction records generalizing index with
  | nil => rfl
  | cons record rest ih =>
      change ((headerNode index record).1.toList ++ (headerNodes (index + 1) rest).1).map _ = _
      rw [List.map_append, ih, List.map_cons, List.filterMap_cons, HeaderRecord.rule?,
        ← headerNode_unlabelled index]
      cases (headerNode index record).1 <;> rfl

/-- The nodes with an id are the rules of the records with the id. -/
theorem nodesOf_messageNodes (id : String) (index : Nat) (records : List MessageRecord) :
    (nodesOf id (messageNodes index records).1).map Node.unlabelled =
      ((records.filter (·.id1 = id)).map MessageRecord.withoutLine).filterMap MessageRecord.rule? := by
  induction records generalizing index with
  | nil => rfl
  | cons record rest ih =>
      have hnode := messageNode_unlabelled index record
      change (nodesOf id (((messageNode index record).1.map (record.id1, ·)).toList
        ++ (messageNodes (index + 1) rest).1)).map _ = _
      rw [nodesOf_append, List.map_append, ih]
      by_cases hid : record.id1 = id
      · rw [List.filter_cons_of_pos (by simp [hid]), List.map_cons, List.filterMap_cons,
          MessageRecord.rule?, ← hnode]
        cases (messageNode index record).1 with
        | none => rfl
        | some n =>
            rw [Option.map_some, Option.toList_some, nodesOf_singleton, if_pos hid]
            rfl
      · rw [List.filter_cons_of_neg (by simp [hid])]
        cases (messageNode index record).1 with
        | none => rfl
        | some n =>
            rw [Option.map_some, Option.toList_some, nodesOf_singleton, if_neg hid]
            rfl

theorem unlabelled_selectNode (nodes : List Node) :
    (selectNode nodes).unlabelled = selectNode (nodes.map Node.unlabelled) := by
  rcases nodes with _ | ⟨n, _ | ⟨m, rest⟩⟩
  · rfl
  · rfl
  · simp [selectNode, Node.unlabelled, Node.unlabelledAll_eq_map]

theorem unlabelled_selectNode? (nodes : List Node) :
    (selectNode? nodes).map Node.unlabelled = selectNode? (nodes.map Node.unlabelled) := by
  cases nodes with
  | nil => rfl
  | cons n rest => exact congrArg some (unlabelled_selectNode (n :: rest))

/-- A message with an id is shown the header rules and the rules of the records with its id. -/
theorem view?_assemble (d : Device) (id? : Option String) :
    (assemble d).1.root.view? id? =
      some ⟨(d.headers.map HeaderRecord.withoutLine).filterMap HeaderRecord.rule?,
        id?.bind fun id => selectNode?
          (((d.recordsOf id).map MessageRecord.withoutLine).filterMap MessageRecord.rule?)⟩ := by
  change (Node.chain [.linearSelect (headerNodes 0 d.headers).1,
    messageSelect (groupById (messageNodes 0 d.messages).1)]).view? id? = _
  rw [messageSelect_groupById, Node.view?]
  simp only [Node.unlabelled, Node.unlabelledAll, Node.unlabelledAll_eq_map, headerNodes_unlabelled]
  cases id? with
  | none => rfl
  | some id =>
      have hmessage : (((Table.mk (idsOf (messageNodes 0 d.messages).1).zipIdx).get? id).bind fun i =>
          (((idsOf (messageNodes 0 d.messages).1).map fun id =>
            selectNode (nodesOf id (messageNodes 0 d.messages).1)).map Node.unlabelled)[i]?) =
          selectNode? (((d.recordsOf id).map MessageRecord.withoutLine).filterMap MessageRecord.rule?) := by
        rw [Device.recordsOf, ← nodesOf_messageNodes id 0, ← unlabelled_selectNode?, ← lookup_groups,
          Option.map_bind]
        simp only [List.getElem?_map, Function.comp_def]
      exact congrArg (fun message? => some (View.mk _ message?)) hmessage

end Assembly

namespace Parser

variable {config : Config} {d d' : Device} {parser parser' : Parser}

/-- The trees of devices with the same headers, value maps and records of an id look alike to messages of
the id. -/
theorem looksAlike_of_build (hglobal : config.globalEntities = false)
    (hdup : config.detectDuplicates = false)
    (hheaders : d'.headers.map HeaderRecord.withoutLine = d.headers.map HeaderRecord.withoutLine)
    (hmaps : d'.valueMaps = d.valueMaps) (hbuild : build config d = .ok parser)
    (hbuild' : build config d' = .ok parser') {id? : Option String}
    (hmessages : ∀ id ∈ id?, (d'.recordsOf id).map MessageRecord.withoutLine =
      (d.recordsOf id).map MessageRecord.withoutLine) :
    parser.tree.LooksAlike id? parser'.tree := by
  obtain ⟨t, more, hbefore, -, -, htree, -, -⟩ := exists_run_of_build hbuild
  obtain ⟨t', more', hbefore', -, -, htree', -, -⟩ := exists_run_of_build hbuild'
  have hoff : ∀ t, Sharing.extractShared config t = t := by
    intro t
    simp [Sharing.extractShared, hglobal, hdup]
  rw [htree, htree', hoff, hoff]
  have hassembled : (assemble d).1.LooksAlike id? (assemble d').1 := by
    refine ⟨?_, _, Assembly.view?_assemble d id?, ?_⟩
    · change (Assembly.addValueMaps 0 .empty d'.valueMaps).1 = (Assembly.addValueMaps 0 .empty d.valueMaps).1
      rw [hmaps]
    · rw [Assembly.view?_assemble, hheaders]
      cases id? with
      | none => rfl
      | some id => rw [Option.bind_some, Option.bind_some, hmessages id rfl]
  have hbefore := Pipeline.run_looksAlike (Pipeline.isLocal_beforeSharing config) hbefore hbefore' hassembled
  have hfold : Pass.evalConstantFunctions.apply config t = .ok (Calls.foldConstants t, []) := rfl
  exact Pass.isLocal_evalConstantFunctions.looksAlike hfold rfl hbefore

/-- **Message ids are isolated from each other.** Take two devices with the same headers and value maps, and
a message that the header rules leave with an id whose records both devices have in the same order, or without
an id. Both processors give the message the same fields, in the same order, and the same errors, whatever the
records of other ids are and wherever they stand. -/
theorem process_isolated {year : Int} (hglobal : config.globalEntities = false)
    (hdup : config.detectDuplicates = false)
    (hheaders : d'.headers.map HeaderRecord.withoutLine = d.headers.map HeaderRecord.withoutLine)
    (hmaps : d'.valueMaps = d.valueMaps) (hbuild : build config d = .ok parser)
    (hbuild' : build config d' = .ok parser') {p p' : Processor}
    (hp : Processor.ofTree year config parser.tree = .ok p)
    (hp' : Processor.ofTree year config parser'.tree = .ok p') (message : List UInt8)
    (hmessages : ∀ id ∈ (p.afterHeaders message).fields.get? messageIdField,
      (d'.recordsOf id).map MessageRecord.withoutLine = (d.recordsOf id).map MessageRecord.withoutLine) :
    p'.afterHeaders message = p.afterHeaders message ∧
      (p'.process message).fields = (p.process message).fields ∧
      (p'.process message).errors = (p.process message).errors := by
  obtain ⟨hvalueMaps, v, hv, hv'⟩ :=
    looksAlike_of_build hglobal hdup hheaders hmaps hbuild hbuild' hmessages
  have hunshared := isUnshared_of_build hglobal hdup hbuild
  have hunshared' := isUnshared_of_build hglobal hdup hbuild'
  have hsettings : p'.settings = p.settings :=
    Except.ok.inj ((Processor.parts_of_ofTree hp').1.symm.trans (Processor.parts_of_ofTree hp).1)
  obtain ⟨hheaders, hrun⟩ := Processor.process_of_view hp hunshared hv message
  obtain ⟨hheaders', hrun'⟩ := Processor.process_of_view hp' hunshared' hv' message
  rw [hsettings, hvalueMaps] at hheaders' hrun'
  -- the view is that of the id which the first processor finds; the second finds the same one
  have hstate : p'.afterHeaders message = p.afterHeaders message :=
    Option.some.inj (hheaders'.symm.trans hheaders)
  obtain ⟨s, hs, hfields, herrors⟩ := hrun rfl
  obtain ⟨s', hs', hfields', herrors'⟩ := hrun' (by rw [hstate])
  cases Option.some.inj (hs'.symm.trans hs)
  exact ⟨hstate, hfields'.trans hfields.symm, herrors'.trans herrors.symm⟩

/-! ### A message among others -/

/-- A device whose header takes the whole line as the message id. -/
def namingDevice (ids : List String) : Device where
  headers := [{ id1 := "H", id2 := "H", content := "<messageid>" }]
  messages := ids.map fun id => { id1 := id, id2 := id, content := "<a>" }

def namingRule : Node :=
  .matchRule ⟨"H", messageInput, [.value (.field messageIdField)], none, ⟨.header, 0, none⟩⟩ []

/-- The tree of `namingDevice`, when the ids differ. -/
def namingTree (ids : List String) : RuleTree where
  root := .chain [.linearSelect [namingRule],
    .messageIdSelect ⟨ids.zipIdx⟩ (ids.zipIdx.map fun e => twinRule e.1 e.2)]
  valueMaps := .empty
  bindings := .empty
  timestampField := none

theorem read_naming : Pattern.read "<messageid>" = .ok [.value (.field messageIdField)] := by
  have hsplit : Pattern.Segment.split "<messageid>" = .ok [.text ⟨"<messageid>", 0, []⟩] :=
    eq_ok_of_toOption (by decide +kernel)
  have hlexemes : Pattern.lexemes "<messageid>".toList = .ok [.tag (.field messageIdField)] :=
    eq_ok_of_toOption (by decide +kernel)
  rw [Pattern.read, hsplit]
  simp only [bind, Except.bind, List.mapM_cons, List.mapM_nil, Pattern.readSegment,
    Pattern.readChunk, Pattern.readPlain, hlexemes]
  rfl

theorem headerNode_naming :
    Assembly.headerNode 0 { id1 := "H", id2 := "H", content := "<messageid>" } = (some namingRule, []) := by
  have hne : "<messageid>".isEmpty = false := by decide +kernel
  simp only [Assembly.headerNode, Assembly.content, hne, read_naming]
  rfl

theorem build_namingDevice {ids : List String} (hids : ids = ["A"] ∨ ids = ["B", "A"]) :
    build {} (namingDevice ids) =
      .ok ⟨namingTree ids, {}, [.make .timestampNotSelected none none none]⟩ := by
  have hassemble : assemble (namingDevice ids) = (namingTree ids, []) := by
    rcases hids with rfl | rfl <;>
      simp only [assemble, namingDevice, List.map_cons, List.map_nil, Assembly.headerNodes,
        headerNode_naming, Assembly.messageNodes, messageNode_twin] <;> rfl
  refine build_eq_ok.mpr ⟨?_, namingTree ids, [.make .timestampNotSelected none none none], ?_, ?_⟩
  · rw [hassemble]
    exact Bool.false_ne_true
  · rw [hassemble]
    rcases hids with rfl | rfl <;> rfl
  · rw [hassemble]
    rfl

theorem process_isolated_namingDevice :
    ∃ p p', Processor.ofTree 2024 {} (namingTree ["A"]) = .ok p ∧
      Processor.ofTree 2024 {} (namingTree ["B", "A"]) = .ok p' ∧
      (p.afterHeaders [0x41]).fields.get? messageIdField = some "A" ∧
      p'.afterHeaders [0x41] = p.afterHeaders [0x41] ∧
      (p'.process [0x41]).fields = (p.process [0x41]).fields ∧
      (p'.process [0x41]).errors = (p.process [0x41]).errors := by
  obtain ⟨p, hp, hid⟩ : ∃ p, Processor.ofTree 2024 {} (namingTree ["A"]) = .ok p ∧
      (p.afterHeaders [0x41]).fields.get? messageIdField = some "A" := ⟨_, rfl, by decide +kernel⟩
  obtain ⟨p', hp'⟩ : ∃ p', Processor.ofTree 2024 {} (namingTree ["B", "A"]) = .ok p' := ⟨_, rfl⟩
  have hheaders : (namingDevice ["B", "A"]).headers.map HeaderRecord.withoutLine =
      (namingDevice ["A"]).headers.map HeaderRecord.withoutLine := rfl
  have hrecords : ∀ id ∈ (p.afterHeaders [0x41]).fields.get? messageIdField,
      ((namingDevice ["B", "A"]).recordsOf id).map MessageRecord.withoutLine =
        ((namingDevice ["A"]).recordsOf id).map MessageRecord.withoutLine := by
    intro id hmem
    rw [hid] at hmem
    cases hmem
    decide
  exact ⟨p, p', hp, hp', hid, process_isolated rfl rfl hheaders rfl (build_namingDevice (.inl rfl))
    (build_namingDevice (.inr rfl)) hp hp' [0x41] hrecords⟩

end Parser

end LogRules

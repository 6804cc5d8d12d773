import LogRules.Call.Action
import LogRules.Device
import LogRules.Diagnostic.Basic
import LogRules.Pattern.Reader
import LogRules.Text.Split
import LogRules.Tree.Node

/-! # From rule records to the rule tree

`assemble` reads every text of every record. A text that cannot be read is reported and the rest is
still looked at, so that one run shows all faults of a rule file; a record with a fault adds no node
to the tree. The tree runs all header rules, and then the message rules of the message id. -/

namespace LogRules

/-- What a record gives, with the diagnostics about it. -/
abbrev Reported (α : Type) := α × List Diagnostic

/-! ### Places of records -/

/-- Where a header record stands. -/
def HeaderRecord.place (record : HeaderRecord) (index : Nat) : SourceLoc :=
  .ofRecord .header index record.line

/-- Where a message record stands. -/
def MessageRecord.place (record : MessageRecord) (index : Nat) : SourceLoc :=
  .ofRecord .message index record.line

/-- Where the record of a value map stands. -/
def ValueMapRecord.place (record : ValueMapRecord) (index : Nat) : SourceLoc :=
  .ofRecord .valueMap index record.line

namespace Assembly

/-! ### Value maps -/

/-- Default values that mean that there is none. -/
def nullDefaults : List String := ["", "$NONE", "$NULL"]

/-- The value written in a value map: a constant in single quotes, or a field after a star. Other
text is a field if `bareField` holds and a constant if not. -/
def mapValue? (bareField : Bool) (cs : List Char) : Option Value :=
  match cs with
  | '\'' :: rest => match rest.reverse with
    | '\'' :: text => some (.constant (String.ofList text.reverse))
    | _ => none
  | '*' :: name =>
    if isFieldName (String.ofList name) then some (.field (String.ofList name)) else none
  | _ =>
    let text := String.ofList cs
    if !bareField then some (.constant text)
    else if isFieldName text then some (.field text)
    else none

/-- The key and the value of a pair. -/
def pair? (segment : List Char) : Option (String × Value) := do
  let (key, text) ← Text.splitFirst? '=' segment
  let value ← mapValue? true text
  return (String.ofList key, value)

/-- Adds a pair to the entries of a value map. The last value of a key wins. -/
def addPair (loc : SourceLoc) (entries : Table Value) (segment : List Char) :
    Reported (Table Value) :=
  match pair? segment with
  | none =>
    (entries, [.about .malformedValueMapPair loc ("`" ++ String.ofList segment ++ "`")])
  | some (key, value) =>
    match entries.get? key with
    | none => (entries.insert key value, [])
    | some old =>
      if old = value then (entries, [.about .duplicateValueMapKey loc key])
      else (entries.insert key value, [.about .conflictingValueMapKey loc key])

/-- Adds pairs to the entries of a value map, from first to last. -/
def addPairs (loc : SourceLoc) (entries : Table Value) :
    List (List Char) → Reported (Table Value)
  | [] => (entries, [])
  | segment :: rest =>
    let (entries, first) := addPair loc entries segment
    let (entries, others) := addPairs loc entries rest
    (entries, first ++ others)

/-- The pieces of a list of pairs that are not blank. -/
def pairSegments (pairs : String) : List (List Char) :=
  (Text.splitAll '|' pairs.toList).filter fun segment => !segment.all Text.isBlank

/-- The default of a value map. -/
def mapDefault (loc : SourceLoc) (text : String) : Reported (Option Value) :=
  if text ∈ nullDefaults then (none, [])
  else match mapValue? false text.toList with
    | some value => (some value, [])
    | none => (none, [.about .malformedValueMapPair loc ("default `" ++ text ++ "`")])

/-- The value map of a record. -/
def valueMap (loc : SourceLoc) (record : ValueMapRecord) : Reported ValueMap :=
  let (default?, first) := mapDefault loc (record.default?.getD "")
  let (entries, others) := addPairs loc .empty (pairSegments record.keyvaluepairs)
  (⟨record.name, entries, default?, loc⟩, first ++ others)

/-- Adds the value maps of records from place `index` on. A name that is taken is an error. -/
def addValueMaps (index : Nat) (maps : Table ValueMap) :
    List ValueMapRecord → Reported (Table ValueMap)
  | [] => (maps, [])
  | record :: rest =>
    let loc := record.place index
    let (maps, first) :=
      if maps.contains record.name then
        (maps, [.about .duplicateValueMap loc record.name])
      else
        let (map, reports) := valueMap loc record
        (maps.insert record.name map, reports)
    let (maps, others) := addValueMaps (index + 1) maps rest
    (maps, first ++ others)

/-! ### Rules -/

/-- The pattern of a record. -/
def content (loc : SourceLoc) (text : String) : Reported (Option Pattern) :=
  if text.isEmpty then (none, [.about .invalidContent loc "empty content"])
  else match Pattern.read text with
    | .ok pattern => (some pattern, [])
    | .error e => (none, [.unreadable .invalidContent loc text e])

/-- A call as an action of a rule. -/
def callNode (loc : SourceLoc) (inv : Invocation) : Node := .action ⟨.call inv, loc⟩

/-- The actions of a function list. -/
def functions (loc : SourceLoc) : Option String → Reported (Option (List Node))
  | none => (some [], [])
  | some text =>
    match Invocation.readFunctions text.toList with
    | .ok calls => (some (calls.map (callNode loc)), [])
    | .error e => (none, [.unreadable .invalidFunctions loc text e])

/-- The action that computes the message id. A blank text gives none. -/
def messageId (loc : SourceLoc) : Option String → Reported (List Node)
  | none => ([], [])
  | some text =>
    if Text.isBlankText text then ([], [])
    else match Invocation.readAction text.toList with
      | .ok inv => ([callNode loc { inv with target := messageIdField }], [])
      | .error e => ([], [.unreadable .invalidMessageId loc text e])

/-- The node of a header record. -/
def headerNode (index : Nat) (record : HeaderRecord) : Reported (Option Node) :=
  let loc := record.place index
  let (pattern?, fromContent) := content loc record.content
  let (idActions, fromId) := messageId loc record.messageid
  let (actions?, fromFunctions) := functions loc record.functions
  let node? := do
    let actions ← actions?
    let pattern ← pattern?
    let rule : MatchRule :=
      { id := if record.id2.isEmpty then record.id1 else record.id2
        input := messageInput
        pattern
        payloadField := none
        source := loc }
    return Node.matchRule rule (idActions ++ actions)
  (node?, fromContent ++ fromId ++ fromFunctions)

/-- The action that sets the category of the event. An empty category gives none. -/
def category (loc : SourceLoc) : Option String → List Node
  | none => []
  | some text =>
    if text.isEmpty then [] else [.action ⟨.setField "eventcategory" (.constant text), loc⟩]

/-- The node of a message record. -/
def messageNode (index : Nat) (record : MessageRecord) : Reported (Option Node) :=
  let loc := record.place index
  let (pattern?, fromContent) := content loc record.content
  let (actions?, fromFunctions) := functions loc record.functions
  let node? := do
    let actions ← actions?
    let pattern ← pattern?
    let rule : MatchRule :=
      { id := record.id2, input := payloadInput, pattern, payloadField := none, source := loc }
    return Node.matchRule rule (category loc record.eventcategory ++ actions)
  (node?, fromContent ++ fromFunctions)

/-- The nodes of header records from place `index` on. -/
def headerNodes (index : Nat) : List HeaderRecord → Reported (List Node)
  | [] => ([], [])
  | record :: rest =>
    let (node?, first) := headerNode index record
    let (nodes, others) := headerNodes (index + 1) rest
    (node?.toList ++ nodes, first ++ others)

/-- The nodes of message records from place `index` on, each with its message id. -/
def messageNodes (index : Nat) : List MessageRecord → Reported (List (String × Node))
  | [] => ([], [])
  | record :: rest =>
    let (node?, first) := messageNode index record
    let (nodes, others) := messageNodes (index + 1) rest
    ((node?.map (record.id1, ·)).toList ++ nodes, first ++ others)

/-- Collects nodes by message id, ids and nodes in order. -/
def groupById (nodes : List (String × Node)) : Table (List Node) :=
  nodes.foldl (fun groups (id, node) => groups.insert id (((groups.get? id).getD []) ++ [node]))
    .empty

/-- One rule stands for itself, several are tried in order. -/
def selectNode : List Node → Node
  | [node] => node
  | nodes => .linearSelect nodes

/-- The selection of the message rules by message id. -/
def messageSelect (groups : Table (List Node)) : Node :=
  .messageIdSelect ⟨groups.keys.zipIdx⟩ (groups.values.map selectNode)

end Assembly

/-- The rule tree of a device, with diagnostics about value maps, header rules and message rules in
this order. -/
def assemble (d : Device) : Reported RuleTree :=
  let (valueMaps, fromMaps) := Assembly.addValueMaps 0 .empty d.valueMaps
  let (headers, fromHeaders) := Assembly.headerNodes 0 d.headers
  let (messages, fromMessages) := Assembly.messageNodes 0 d.messages
  let select := Assembly.messageSelect (Assembly.groupById messages)
  ({ root := .chain [.linearSelect headers, select]
     valueMaps
     bindings := .empty
     timestampField := none },
   fromMaps ++ fromHeaders ++ fromMessages)

end LogRules

import LogRules.Text.Quoted
import LogRules.Tree.Node

/-! # Text of the rule tree

`dump` shows a tree with one node on a line, indented by its depth. `signature` is a text that is
equal for nodes that do the same, whatever their rules are called and wherever they come from. -/

namespace LogRules

/-- A format in single quotes. -/
def TimeFormat.quoted (f : TimeFormat) : String := "'" ++ f.render ++ "'"

namespace Effect

/-- The formats in brackets and the fields in parentheses. -/
def readingText (r : TimeReading) : String :=
  "[" ++ String.intercalate ", " (r.formats.map TimeFormat.quoted) ++ "]("
    ++ String.intercalate ", " r.fields ++ ")"

/-- The line of an effect in a dump. -/
def dump : Effect → String
  | setField target value => "SetField " ++ target ++ " = " ++ value.render
  | call inv =>
    "Call " ++ (if inv.target.isEmpty then "" else inv.target ++ " = ") ++ inv.function ++ "("
      ++ String.intercalate ", " (inv.args.map Value.render) ++ ")"
  | lookup target map key =>
    "ValueMapCall " ++ target ++ " = " ++ map ++ "(" ++ key.render ++ ")"
  | dateTime reading utc =>
    (if utc then "UTC " else "DateTime ") ++ reading.target ++ " = " ++ readingText reading
  | duration reading => "Duration " ++ reading.target ++ " = " ++ readingText reading

/-- The fields of a reading as a quoted list, then its formats. -/
def readingSignature (r : TimeReading) : String :=
  Text.quotedList r.fields ++ String.join (r.formats.map fun f => "," ++ f.quoted)

/-- The signature of an effect. -/
def signature : Effect → String
  | setField target value => "SetField(" ++ target ++ "," ++ value.render ++ ")"
  | call inv =>
    "Call(" ++ inv.target ++ "," ++ inv.function
      ++ String.join (inv.args.map fun arg => "," ++ arg.render) ++ ")"
  | lookup target map key =>
    "ValueMapCall(" ++ target ++ "," ++ map ++ "," ++ key.render ++ ")"
  | dateTime reading utc =>
    "DateTime(" ++ reading.target ++ "," ++ (if utc then "true" else "false") ++ ","
      ++ readingSignature reading ++ ")"
  | duration reading => "Duration(" ++ reading.target ++ "," ++ readingSignature reading ++ ")"

end Effect

namespace Node

/-- The indentation at a depth. -/
def indent (depth : Nat) : String := String.ofList (List.replicate (2 * depth) ' ')

/-- One line at a depth. -/
def line (depth : Nat) (text : String) : String := indent depth ++ text ++ "\n"

/-- The line of a match rule. -/
def ruleLine (rule : MatchRule) : String :=
  "Match " ++ rule.id ++ " on " ++ rule.input ++ ": " ++ rule.pattern.render ++
    match rule.payloadField with
    | none => ""
    | some field => " payload=" ++ field

mutual
/-- The lines of a tree whose root is at a depth. Under a selection by message id every id stands
before its node, and an id without a node stands alone. -/
def dumpAt (depth : Nat) : Node → String
  | chain nodes => line depth "Chain" ++ dumpAll (depth + 1) nodes
  | linearSelect nodes => line depth "LinearSelect" ++ dumpAll (depth + 1) nodes
  | messageIdSelect index nodes =>
    let dumps := dumpEach (depth + 2) nodes
    line depth "MsgIdSelect" ++
      String.join (index.entries.map fun (id, i) =>
        line (depth + 1) (Text.quoted id ++ " =>") ++ dumps.getD i "")
  | matchRule rule onSuccess => line depth (ruleLine rule) ++ dumpAll (depth + 1) onSuccess
  | action a => line depth a.effect.dump
  | reference name => line depth ("Reference " ++ name)
  | noop => line depth "Noop"

/-- The lines of several trees at one depth. -/
def dumpAll (depth : Nat) : List Node → String
  | [] => ""
  | n :: rest => dumpAt depth n ++ dumpAll depth rest

/-- The lines of several trees at one depth, tree by tree. -/
def dumpEach (depth : Nat) : List Node → List String
  | [] => []
  | n :: rest => dumpAt depth n :: dumpEach depth rest
end

/-- The lines of a tree. -/
def dump (n : Node) : String := dumpAt 0 n

mutual
/-- A text that is equal for nodes that do the same. -/
def signature : Node → String
  | chain nodes => "Chain[" ++ signatureAll nodes ++ "]"
  | linearSelect nodes => "LinearSelect[" ++ signatureAll nodes ++ "]"
  | messageIdSelect index nodes =>
    "MsgIdSelect\x7b"
      ++ String.join (index.entries.map fun (id, i) =>
          Text.quoted id ++ "=>" ++ toString i ++ ",")
      ++ "\x7d[" ++ signatureAll nodes ++ "]"
  | matchRule rule onSuccess =>
    "Match(" ++ rule.input ++ "," ++ Text.quoted rule.pattern.render ++ ","
      ++ Text.quotedOption rule.payloadField ++ ")[" ++ signatureAll onSuccess ++ "]"
  | action a => a.effect.signature
  | reference name => "Reference(" ++ name ++ ")"
  | noop => "Noop"

/-- The signatures of several nodes, each followed by a semicolon. -/
def signatureAll : List Node → String
  | [] => ""
  | n :: rest => signature n ++ ";" ++ signatureAll rest
end

end Node

namespace RuleTree

/-- The lines of a value map. -/
def valueMapText (map : ValueMap) : String :=
  "ValueMap " ++ map.name
    ++ (match map.default? with
        | none => ""
        | some value => " default=" ++ value.render)
    ++ "\n"
    ++ String.join (map.entries.entries.map fun (key, value) =>
        "  " ++ Text.quoted key ++ " => " ++ value.render ++ "\n")

/-- The bindings, the value maps, the timestamp field and the root. -/
def dump (t : RuleTree) : String :=
  String.join (t.bindings.entries.map fun (name, node) =>
      "let " ++ name ++ " =\n" ++ node.dumpAt 1)
    ++ String.join (t.valueMaps.values.map valueMapText)
    ++ (match t.timestampField with
        | none => ""
        | some field => "timestamp = " ++ field ++ "\n")
    ++ t.root.dump

end RuleTree

end LogRules

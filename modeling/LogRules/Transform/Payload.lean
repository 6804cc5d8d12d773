import LogRules.Transform.Pass
import LogRules.Tree.Edit

/-! # Payload markers

A header pattern may end in one payload marker, and a message pattern has none. An alias of the
marker names a field that the pattern captures exactly once on every way through it, or the start
of the line. -/

namespace LogRules.Payload

/-- An error about a match rule. -/
def ruleError (rule : MatchRule) (cause : PassCause) : Except PassError Unit :=
  .error ⟨cause, some rule.source⟩

/-- Message patterns have no payload marker. -/
def checkMessageRule (rule : MatchRule) : Except PassError Unit :=
  if rule.input == payloadInput && rule.pattern.containsPayload then
    ruleError rule .payloadInMessage
  else .ok ()

/-- Message patterns have no payload marker. -/
def checkMessages (t : RuleTree) : Except PassError Unit := t.rules.forM checkMessageRule

/-- A header pattern has at most one payload marker, at its end. -/
def checkHeaderRule (rule : MatchRule) : Except PassError Unit :=
  if rule.input != messageInput || !rule.pattern.containsPayload then .ok ()
  else if rule.pattern.countPayloads > 1 then ruleError rule .multiplePayloads
  else match rule.pattern.getLast? with
    | some (.value (.payload _)) => .ok ()
    | _ => ruleError rule .payloadNotLast

/-- Header patterns have at most one payload marker, at their end. -/
def checkPosition (t : RuleTree) : Except PassError Unit := t.rules.forM checkHeaderRule

/-- The alias of the payload marker is captured exactly once. -/
def checkAlias (rule : MatchRule) : Except PassError Unit :=
  match rule.pattern.payload? with
  | some (some field) =>
    if field == startAlias then .ok ()
    else
      let count := Pattern.occurrences field rule.pattern
      if count == 1 then .ok () else ruleError rule (.payloadOverlap field count)
  | _ => .ok ()

/-- Aliases of payload markers are captured exactly once. -/
def checkOverlap (t : RuleTree) : Except PassError Unit := t.rules.forM checkAlias

/-- Notes the alias of the payload marker beside a header pattern. -/
def recordField (rule : MatchRule) : MatchRule :=
  if rule.input == messageInput then { rule with payloadField := rule.pattern.payload?.join }
  else rule

/-- Notes the aliases of payload markers beside header patterns. -/
def recordFields (t : RuleTree) : RuleTree := t.mapNodes (Node.mapRules recordField)

end LogRules.Payload

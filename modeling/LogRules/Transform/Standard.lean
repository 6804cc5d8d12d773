import LogRules.Transform.Calls
import LogRules.Transform.Payload
import LogRules.Transform.Sharing
import LogRules.Transform.Spacing

/-! # The standard pipeline

The passes that every build runs, in their order. Two of them are optional. -/

namespace LogRules

namespace Pass

/-- Checks that message patterns have no payload marker. -/
def payloadInMessages : Pass := .check "check payload in messages" Payload.checkMessages

/-- Checks that a payload marker is the last item of a header pattern. -/
def payloadPosition : Pass := .check "check payload position in headers" Payload.checkPosition

/-- Checks that payload aliases are captured once. -/
def payloadOverlap : Pass := .check "check overlapped payload fields" Payload.checkOverlap

/-- Checks the functions and the numbers of arguments of calls. -/
def functionArity : Pass := .check "check function arity" Calls.checkArity

/-- Removes leading spaces of message patterns. -/
def stripLeadingSpace : Pass := .change "strip leading space in messages" Spacing.stripMessages

/-- Notes payload aliases beside header patterns. -/
def recordPayloadField : Pass := .change "record payload field" Payload.recordFields

/-- Turns calls of value maps into look-ups. -/
def valueMapReferences : Pass :=
  .tryChange "translate value map references" Calls.withLookups

/-- Turns assignments that are written as calls into assignments. -/
def assignmentCalls : Pass := .tryChange "translate calls" Calls.withAssignments

/-- Removes calls of `SYSVAL`. -/
def stripSysval : Pass := .change "strip SYSVAL calls" Calls.stripSysval

/-- Removes copies of a field to itself. -/
def stripSameFieldCopies : Pass := .change "strip same-field copies" Calls.stripCopies

/-- Removes special fields in front of arguments. -/
def removeSpecialFields : Pass := .change "remove special fields" Calls.dropSpecialFields

/-- Turns calls that read dates and durations into readings. -/
def convertTimeCalls : Pass := .tryChange "convert EVNTTIME and DUR calls" Calls.withTimeReadings

/-- Removes what does nothing. -/
def removeNoops : Pass := .change "remove no-ops" Calls.dropNoops

/-- Puts a space between neighbouring captures. -/
def consecutiveCaptures : Pass := .report "fix consecutive captures" Spacing.separateCaptures

/-- Gives branches that end in a capture a constant to end at. -/
def alternativesEndingInCapture : Pass :=
  .change "fix alternatives ending in capture" Spacing.anchorGroups

/-- Selects the field that holds the time of the event. -/
def selectTimestamp : Pass := .report "select timestamp field" Calls.selectTimestamp

/-- Evaluates calls whose arguments are constants. -/
def evalConstantFunctions : Pass := .change "evaluate constant functions" Calls.foldConstants

/-- Stores shared nodes as bindings. -/
def extractShared : Pass :=
  ⟨"extract shared nodes", fun config t => .ok (Sharing.extractShared config t, [])⟩

/-- Checks the number of nodes, that calls have targets and that references have bindings. -/
def validate : Pass := .check "generic validations" Calls.checkNodes

/-- Checks that every function that is left can run. -/
def unknownFunctionCalls : Pass := .check "detect unknown function calls" Calls.checkRuns

end Pass

namespace Pipeline

/-- The stages that the options ask for. -/
def standard (config : Config) : Pipeline := [
  ⟨"pre-checks",
    [.payloadInMessages, .payloadPosition, .payloadOverlap, .functionArity]⟩,
  ⟨"pre-actions",
    (if config.stripLeadingSpace then [.stripLeadingSpace] else []) ++ [.recordPayloadField]⟩,
  ⟨"transforms",
    [.valueMapReferences, .assignmentCalls, .stripSysval, .stripSameFieldCopies,
      .removeSpecialFields, .convertTimeCalls, .removeNoops, .consecutiveCaptures,
      .alternativesEndingInCapture, .selectTimestamp]⟩,
  ⟨"optimizations",
    .evalConstantFunctions ::
      (if config.detectDuplicates || config.globalEntities then [.extractShared] else [])⟩,
  ⟨"validations", [.validate, .unknownFunctionCalls]⟩]

end Pipeline

end LogRules

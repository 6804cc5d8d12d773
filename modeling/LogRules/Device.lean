/-! # Rule records

The rules of one device as they stand in a rule file. Texts are kept as they are written; they are
read when the rule tree is assembled. -/

namespace LogRules

/-- A rule for the front of a log line. -/
structure HeaderRecord where
  id1 : String := ""
  id2 : String := ""
  content : String := ""
  /-- The call that computes the message id. -/
  messageid : Option String := none
  functions : Option String := none
  line : Option Nat := none
  deriving DecidableEq, Repr, Inhabited

/-- A rule for what a header leaves of a log line. -/
structure MessageRecord where
  /-- The message id that selects the rule. -/
  id1 : String := ""
  id2 : String := ""
  eventcategory : Option String := none
  content : String := ""
  functions : Option String := none
  line : Option Nat := none
  deriving DecidableEq, Repr, Inhabited

/-- A table for look-ups: pairs `key=value` with bars between them. -/
structure ValueMapRecord where
  name : String := ""
  default? : Option String := none
  keyvaluepairs : String := ""
  line : Option Nat := none
  deriving DecidableEq, Repr, Inhabited

/-- The rules of one device. -/
structure Device where
  name : String := ""
  headers : List HeaderRecord := []
  messages : List MessageRecord := []
  valueMaps : List ValueMapRecord := []
  deriving DecidableEq, Repr, Inhabited

/-- A header rule whose two ids are the same. -/
def HeaderRecord.ofId (id content : String) : HeaderRecord := { id1 := id, id2 := id, content }

namespace Device

/-- Adds a header rule at the end. -/
def addHeader (d : Device) (r : HeaderRecord) : Device := { d with headers := d.headers ++ [r] }

/-- Adds a message rule at the end. -/
def addMessage (d : Device) (r : MessageRecord) : Device :=
  { d with messages := d.messages ++ [r] }

/-- Adds a value map at the end. -/
def addValueMap (d : Device) (r : ValueMapRecord) : Device :=
  { d with valueMaps := d.valueMaps ++ [r] }

end Device

end LogRules

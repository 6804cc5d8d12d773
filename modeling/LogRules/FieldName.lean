/-! # Names of fields

A field name is a non-empty run of ASCII letters, digits, underscores, dollar signs and dots. A few
names have a fixed meaning in every rule set. -/

namespace LogRules

/-- A character of a field name. -/
def isFieldChar (c : Char) : Bool := c.isAlphanum || c == '_' || c == '$' || c == '.'

/-- The text is a field name. -/
def isFieldName (s : String) : Bool := !s.isEmpty && s.toList.all isFieldChar

/-- The field that header rules write and that selects the message rules. -/
def messageIdField : String := "messageid"

/-- The input of header rules: the whole line. -/
def messageInput : String := "message"

/-- The input of message rules: what the header leaves. -/
def payloadInput : String := "payload"

/-- The payload alias that stands for the whole line and needs no capture. -/
def startAlias : String := "$START"

end LogRules

import LogRules.FieldName

/-! # Values

A value is a leaf of a pattern or an argument of a call. As an argument a constant is written
between single quotes, with a backslash before a quote or a backslash, and a field by its name. -/

namespace LogRules

/-- A leaf of a pattern or an argument of a call. -/
inductive Value where
  | constant (text : String)
  | field (name : String)
  /-- Where the payload starts: here, or at the capture of the alias. -/
  | payload (alias? : Option String)
  deriving DecidableEq, Repr, Inhabited

namespace Value

/-- The text of a constant. -/
def constant? : Value → Option String
  | constant text => some text
  | _ => none

/-- The name of a field. -/
def field? : Value → Option String
  | field name => some name
  | _ => none

/-- The value is a constant. -/
def isConstant (v : Value) : Bool := v.constant?.isSome

/-- The value is a payload marker. -/
def isPayload : Value → Bool
  | payload _ => true
  | _ => false

/-- One character of a quoted argument. -/
def quotedArgumentChar (c : Char) : List Char :=
  if c = '\\' || c = '\'' then ['\\', c] else [c]

/-- The text of a payload marker. -/
def payloadTag : Option String → String
  | none => "<!payload>"
  | some alias? => "<!payload:" ++ alias? ++ ">"

/-- The value as an argument of a call. -/
def render : Value → String
  | constant text => String.ofList ('\'' :: text.toList.flatMap quotedArgumentChar ++ ['\''])
  | field name => name
  | payload alias? => payloadTag alias?

end Value

end LogRules

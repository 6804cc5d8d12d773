import LogRules.Processing.Settings
import LogRules.Text.Blank

/-! # Functions of a run

The functions of the rule language that are called while rules run. Two of them are known and have
no meaning yet. -/

namespace LogRules

/-- A function that a run may call. -/
inductive Function where
  /-- Sum, difference or product of two numbers. -/
  | calculate
  /-- Its arguments one after the other. -/
  | concat
  /-- A text without the quotes around it. -/
  | removeQuotes
  /-- Whether an address is inside. -/
  | direction
  | convertDomain
  | url
  deriving DecidableEq, Repr, Inhabited

/-- Why a call has no result. -/
inductive FunctionError where
  | notImplemented
  | argumentCount (expected count : Nat)
  | unknownOperator (operator : String)
  | invalidAddress (text : String)
  deriving DecidableEq, Repr, Inhabited

/-- The wording of a function error. -/
def FunctionError.message : FunctionError → String
  | notImplemented => "function not implemented"
  | argumentCount expected count =>
    "expected " ++ toString expected ++ " arguments, got " ++ toString count
  | unknownOperator operator => "unknown operator `" ++ operator ++ "`"
  | invalidAddress text =>
    "failed to parse `" ++ text ++ "` as IP for network direction check"

namespace Function

/-- All functions. -/
def all : List Function := [calculate, concat, removeQuotes, direction, convertDomain, url]

/-- The name of a function in rules. -/
def name : Function → String
  | calculate => "CALC"
  | concat => "STRCAT"
  | removeQuotes => "RMQ"
  | direction => "DIRCHK"
  | convertDomain => "CNVTDOMAIN"
  | url => "URL"

/-- The function with this name. -/
def ofName? (name : String) : Option Function := all.find? fun f => f.name == name

/-- The number written by a text, or zero. -/
def operand (text : String) : Int := (Text.int64? (Text.trim text.toList)).getD 0

/-- The result of an operator on signed numbers of 64 bits, which wrap around. -/
def arithmetic (a operator b : String) : Except FunctionError String :=
  let result (f : Int → Int → Int) : Except FunctionError String :=
    .ok (toString (Text.wrap64 (f (operand a) (operand b))))
  match Text.trimmed operator with
  | "+" => result (· + ·)
  | "-" => result (· - ·)
  | "*" => result (· * ·)
  | other => .error (.unknownOperator other)

/-- A character that may stand around a quoted text. -/
def isQuote (c : Char) : Bool := c == '"' || c == '\'' || c == '\x60'

/-- Removes the two equal quotes around a text, if they are there. -/
def unquote (cs : List Char) : List Char :=
  match cs with
  | first :: rest =>
    if isQuote first && rest.getLast? == some first then rest.dropLast else cs
  | [] => cs

/-- Calls a function. -/
def call (settings : Settings) : Function → List String → Except FunctionError String
  | calculate, [a, operator, b] => arithmetic a operator b
  | calculate, args => .error (.argumentCount 3 args.length)
  | concat, args => .ok (String.join args)
  | removeQuotes, [text] => .ok (String.ofList (unquote (Text.trim text.toList)))
  | removeQuotes, args => .error (.argumentCount 1 args.length)
  | direction, [text] =>
    match Network.Address.ofText? (Text.trimmed text) with
    | none => .error (.invalidAddress text)
    | some address => .ok (if settings.isInside address then "1" else "0")
  | direction, args => .error (.argumentCount 1 args.length)
  | convertDomain, _ => .error .notImplemented
  | url, _ => .error .notImplemented

end Function

end LogRules

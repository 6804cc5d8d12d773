import LogRules.Call.Reader

/-! # Built-in functions of the rule language

Every function has the least and the greatest number of its arguments. Some functions are only a
way of writing and are replaced before the rules run. -/

namespace LogRules

/-- A function of the rule language. -/
structure Builtin where
  name : String
  minArgs : Nat
  /-- The greatest number of arguments; `none` when there is no bound. -/
  maxArgs : Option Nat
  /-- Calls of the function are replaced before the rules run. -/
  replaced : Bool
  deriving DecidableEq, Repr, Inhabited

namespace Builtin

/-- All functions. -/
def all : List Builtin := [
  ⟨"CALC", 3, some 3, false⟩,
  ⟨"CNVTDOMAIN", 1, some 1, false⟩,
  ⟨"DIRCHK", 1, none, false⟩,
  ⟨"DUR", 3, none, true⟩,
  ⟨"EVNTTIME", 2, none, true⟩,
  ⟨"RMQ", 1, some 1, false⟩,
  ⟨"STRCAT", 1, none, false⟩,
  ⟨"URL", 2, some 2, false⟩,
  ⟨"UTC", 2, none, true⟩,
  ⟨"HDR", 1, some 1, true⟩,
  ⟨"SYSVAL", 1, some 2, true⟩,
  ⟨"PARMVAL", 1, some 1, true⟩,
  ⟨Invocation.constantFunction, 1, some 1, true⟩]

/-- The function with this name. -/
def ofName? (name : String) : Option Builtin := all.find? (·.name == name)

/-- The function takes this number of arguments. -/
def accepts (b : Builtin) (count : Nat) : Bool := b.minArgs ≤ count && b.maxArgs.all (count ≤ ·)

/-- The accepted numbers of arguments in words. -/
def arity (b : Builtin) : String :=
  match b.maxArgs with
  | none => toString b.minArgs ++ " or more"
  | some n =>
    if n = b.minArgs then toString n
    else "between " ++ toString b.minArgs ++ " and " ++ toString n

end Builtin

end LogRules

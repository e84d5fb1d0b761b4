import DatalogPolicy.Literal
import Std.Data.ExtTreeMap

/-!
# Builtin tables

A builtin is computed instead of stored. Its first arguments are inputs, which
have to be bound before it can be evaluated.
-/

namespace DatalogPolicy

/-- A builtin table. -/
structure Builtin where
  name : String
  arity : Nat
  inputs : Nat
deriving DecidableEq, Repr

/-- The known builtins by name. -/
abbrev Builtins := Std.ExtTreeMap String Builtin

namespace Builtins

/-- Adds a builtin in place of one of that name. -/
def register (builtins : Builtins) (b : Builtin) : Builtins := builtins.insert b.name b

/-- Comparisons, arithmetic, conversions and the joining of texts. -/
def standard : Builtins :=
  [("lt", 2, 2), ("lteq", 2, 2), ("equal", 2, 2), ("gteq", 2, 2), ("gt", 2, 2),
    ("max", 3, 2), ("plus", 3, 2), ("minus", 3, 2), ("mul", 3, 2), ("div", 3, 2),
    ("float", 2, 1), ("int", 2, 1), ("concat", 3, 2)].foldl
    (fun builtins (name, arity, inputs) => register builtins ⟨name, arity, inputs⟩) {}

/-- The builtin of a table, which has neither a service nor a modal. -/
def find? (builtins : Builtins) (table : TableName) : Option Builtin :=
  if table.service.isNone && table.modal.isNone then builtins[table.table]? else none

/-- The builtin of a table with so many arguments. -/
def findWidth? (builtins : Builtins) (table : TableName) (width : Nat) : Option Builtin :=
  (builtins.find? table).filter fun b => b.arity = width

/-- The builtins in increasing order of their names. -/
def all (builtins : Builtins) : List Builtin := builtins.values

end Builtins

/-- The variables that must be bound before a literal can be evaluated: those of a negated
literal, and those among the inputs of a builtin. There are none for a literal that binds its own
variables. -/
def Literal.required? (l : Literal) : Option (List String) :=
  if l.negated then some l.variableNames
  else
    (Builtins.standard.findWidth? l.table l.arguments.length).map fun b =>
      OrderedList.ofTexts ((l.arguments.take b.inputs).filterMap (·.item.varName?))

end DatalogPolicy

import DatalogPolicy.OrderedList
import DatalogPolicy.Text.Position
import DatalogPolicy.Value

/-!
# Terms

An argument of a literal is a variable or a constant. Where it was written is
kept beside it and takes no part in comparisons.
-/

namespace DatalogPolicy

/-- A variable or a constant. -/
inductive Term
  | var (name : String)
  | const (value : Value)
deriving DecidableEq, Hashable, Repr

/-- An item with the place in a source at which it was written. -/
structure Located (α : Type) where
  item : α
  location : Option Position := none
deriving DecidableEq, Repr

namespace Term

/-- The order of terms: variables by name, then constants. -/
def order : Term → Term → Ordering
  | .var a, .var b => compare a b
  | .const a, .const b => compare a b
  | .var _, .const _ => .lt
  | .const _, .var _ => .gt

instance : Ord Term := ⟨order⟩

/-- The constant of a value, or the variable that its name names. -/
def ofValue (asVariable : Bool) (v : Value) : Term :=
  if asVariable then .var v.name else .const v

/-- The name of a variable. -/
def varName? : Term → Option String
  | .var x => some x
  | .const _ => none

/-- Whether a term is a constant. -/
def isConst : Term → Bool
  | .var _ => false
  | .const _ => true

/-- The written form of a term. -/
def text : Term → String
  | .var x => x
  | .const v => v.text

/-- The name of a variable, or the written form of a constant with texts unquoted. -/
def name : Term → String
  | .var x => x
  | .const v => v.name

end Term

/-- What variables are replaced by. -/
abbrev Binding := String → Option (Located Term)

/-- An argument with its variable replaced, if the binding has it. -/
def Binding.apply (binding : Binding) (argument : Located Term) : Located Term :=
  ((argument.item.varName?).bind binding).getD argument

end DatalogPolicy

import DatalogPolicy.TableName
import DatalogPolicy.Term

/-!
# Literals

A literal is a table applied to arguments, or the negation of that. Its place
in a source and its annotations take no part in comparisons: two literals are
equal when their contents are.
-/

namespace DatalogPolicy

/-- What may be noted about a literal or a rule. -/
structure Annotations where
  id : Option String := none
  name : Option String := none
  comment : Option String := none
  source : Option String := none
deriving DecidableEq, Repr

/-- A table applied to arguments, or the negation of that. -/
structure Literal where
  table : TableName
  arguments : List (Located Term)
  negated : Bool := false
  location : Option Position := none
  notes : Annotations := {}
deriving DecidableEq, Repr

/-- What a literal says. -/
structure Literal.Content where
  table : TableName
  negated : Bool
  arguments : List Term
deriving DecidableEq, Hashable, Repr

/-- The order of contents: by table, positive first, by width, by arguments. -/
instance : Ord Literal.Content :=
  ⟨compareLex (compareOn (·.table)) <| compareLex (compareOn (·.negated)) <|
    compareLex (compareOn (·.arguments.length)) (compareOn (·.arguments))⟩

namespace Literal

/-- What a literal says, without places and annotations. -/
def content (l : Literal) : Content := ⟨l.table, l.negated, l.arguments.map (·.item)⟩

instance : BEq Literal := ⟨fun a b => a.content == b.content⟩

instance : Hashable Literal := ⟨fun l => hash l.content⟩

instance : Ord Literal := ⟨compareOn content⟩

/-- The literal of a row of a table, whose service ends at the first colon. -/
def ofValues (table : String) (values : List Value) : Literal where
  table := TableName.ofText true table
  arguments := values.map fun v => ⟨.const v, none⟩

/-- The literal of a row that begins with the name of its table. -/
def ofTuple? : List Value → Option Literal
  | .str table :: values => some (ofValues table values)
  | _ => none

/-- Whether a literal is not negated. -/
def isAtom (l : Literal) : Bool := !l.negated

/-- The variables in increasing order, each with the place of its last occurrence. -/
def vars (l : Literal) : List (Located String) :=
  OrderedList.ofList (compareOn (·.item)) <|
    l.arguments.filterMap fun a => a.item.varName?.map (⟨·, a.location⟩)

/-- The names of the variables in increasing order. -/
def variableNames (l : Literal) : List String :=
  OrderedList.ofTexts (l.arguments.filterMap (·.item.varName?))

/-- Whether every argument is a constant. -/
def isGround (l : Literal) : Bool := l.arguments.all (·.item.isConst)

/-- The names of the arguments in order. -/
def argumentNames (l : Literal) : List String := l.arguments.map (·.item.name)

/-- The literal with its variables replaced. -/
def plug (binding : Binding) (l : Literal) : Literal :=
  { l with arguments := l.arguments.map binding.apply }

/-- The negation of a literal. -/
def complement (l : Literal) : Literal := { l with negated := !l.negated }

/-- The literal without its negation. -/
def makePositive (l : Literal) : Literal := { l with negated := false }

/-- The literal with another table, or the literal itself where there is none. -/
def changeTable (change : TableName → Option TableName) (l : Literal) : Literal :=
  { l with table := (change l.table).getD l.table }

/-- The update of the other sign; other literals stay as they are. -/
def invertUpdate (l : Literal) : Literal := l.changeTable TableName.invertUpdate?

/-- The literal over the updated table; other literals stay as they are. -/
def dropUpdate (l : Literal) : Literal := l.changeTable TableName.dropUpdate?

/-- The insertion or the deletion of a literal. -/
def makeUpdate (insert : Bool) (l : Literal) : Literal :=
  l.changeTable fun t => some (t.makeUpdate insert)

/-- The literal without the service of its table. -/
def dropTheory (l : Literal) : Literal := { l with table := l.table.dropService }

/-- Whether the table is an update table. -/
def isUpdate (l : Literal) : Bool := l.table.isUpdate

/-- The table without its modal, in a theory. -/
def tableName (theory : Option String) (l : Literal) : String := l.table.name theory

/-- The service of the table. -/
def theoryName (l : Literal) : Option String := l.table.service

/-- The written form of a literal without its negation. -/
def atomText (l : Literal) : String :=
  let arguments := String.intercalate ", " (l.arguments.map (·.item.text))
  let atom := l.tableName none ++ "(" ++ arguments ++ ")"
  match l.table.modal with
  | some modal => modal ++ "[" ++ atom ++ "]"
  | none => atom

/-- The written form of a literal. -/
def text (l : Literal) : String :=
  if l.negated then "not " ++ l.atomText else l.atomText

end Literal

end DatalogPolicy

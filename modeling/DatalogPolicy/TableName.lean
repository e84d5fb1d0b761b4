/-!
# Table names

A table belongs to a service, or to the policy itself, and a modal may qualify
its use. The last character of an update table is a sign.
-/

namespace DatalogPolicy

/-- The name of a table with its optional service and modal. -/
structure TableName where
  modal : Option String := none
  service : Option String := none
  table : String
deriving DecidableEq, Hashable, Repr

namespace TableName

/-- The order of table names: by modal, by service, by table, absent parts first. -/
instance : Ord TableName :=
  ⟨compareLex (compareOn modal) (compareLex (compareOn service) (compareOn table))⟩

/-- The texts on either side of the first colon, or the whole text alone. -/
def splitService (text : String) : Option String × String :=
  let cs := text.toList
  match cs.dropWhile (· ≠ ':') with
  | [] => (none, text)
  | _ :: rest => (some (String.ofList (cs.takeWhile (· ≠ ':'))), String.ofList rest)

/-- A service and a table joined by a colon. -/
def joinService (service table : String) : String := service ++ ":" ++ table

/-- The table that a text names; with `modules` its service ends at the first colon. -/
def ofText (modules : Bool) (text : String) : TableName :=
  if modules then
    let (service, table) := splitService text
    { service, table }
  else { table := text }

/-- The table without its modal; `theory` is the service of a table that has none. -/
def name (theory : Option String) (t : TableName) : String :=
  match t.service.or theory with
  | some service => joinService service t.table
  | none => t.table

/-- The parts that are present, joined by colons. -/
def joinParts (parts : List (Option String)) : String :=
  String.intercalate ":" (parts.filterMap id)

/-- The table without its modal inside a theory. A table with a service of its own keeps it. -/
def globalName (theory : Option String) (t : TableName) : String :=
  joinParts [theory, t.service, some t.table]

/-- The written form of a table name outside a literal. -/
def text (t : TableName) : String := joinParts [t.modal, t.service, some t.table]

/-- Whether the name is the given one, also with the service left inside the table text. -/
def isNamed (t : TableName) (service : Option String) (table : String) (modal : Option String) :
    Bool :=
  modal = t.modal ∧
    (service = t.service ∧ table = t.table ∨ (service, table) = splitService t.table)

/-- Equality of names where an absent service is `theory`. -/
def same (theory : Option String) (a b : TableName) : Bool :=
  a.table = b.table ∧ a.modal = b.modal ∧ a.service.or theory = b.service.or theory

/-- Whether a table text ends in a sign. -/
def isUpdateText (table : String) : Bool :=
  table.toList.getLast?.any fun c => c = '+' || c = '-'

/-- Whether a table text names the results of an action. -/
def isResultText (table : String) : Bool := table = "result"

/-- Whether the table holds updates of another one. -/
def isUpdate (t : TableName) : Bool := isUpdateText t.table

/-- The table with a changed last character. -/
def withLast (t : TableName) (last : List Char) : TableName :=
  { t with table := String.ofList (t.table.toList.dropLast ++ last) }

/-- The update table of the other sign. -/
def invertUpdate? (t : TableName) : Option TableName :=
  match t.table.toList.getLast? with
  | some '+' => some (t.withLast ['-'])
  | some '-' => some (t.withLast ['+'])
  | _ => none

/-- The table that an update table updates. -/
def dropUpdate? (t : TableName) : Option TableName :=
  if t.isUpdate then some (t.withLast []) else none

/-- The table of insertions into a table, or of deletions from it. -/
def makeUpdate (insert : Bool) (t : TableName) : TableName :=
  { t with table := t.table.push (if insert then '+' else '-') }

/-- The table without its service. -/
def dropService (t : TableName) : TableName := { t with service := none }

end TableName

end DatalogPolicy

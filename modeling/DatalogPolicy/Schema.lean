import Std.Data.ExtTreeMap

/-!
# Schemas

A schema gives the columns of the tables of a theory; a policy is compiled and
checked against the schemas of several theories.
-/

namespace DatalogPolicy

/-- The columns of the known tables; a complete schema knows every table. -/
structure Schema where
  tables : Std.ExtTreeMap String (List String) := {}
  complete : Bool := false

/-- The schemas of the known theories. -/
abbrev Theories := Std.ExtTreeMap String Schema

namespace Schema

/-- Adds a table in place of one of that name. -/
def insert (table : String) (columns : List String) (s : Schema) : Schema :=
  { s with tables := s.tables.insert table columns }

/-- Whether a table is known. -/
def contains (s : Schema) (table : String) : Bool := s.tables.contains table

/-- The columns of a known table. -/
def columns? (s : Schema) (table : String) : Option (List String) := s.tables[table]?

/-- The number of columns of a known table. -/
def arity? (s : Schema) (table : String) : Option Nat := (s.columns? table).map (·.length)

/-- The known tables in increasing order. -/
def tableNames (s : Schema) : List String := s.tables.keys

/-- The written form of a schema. -/
def text (s : Schema) : String :=
  let entry := fun (table, columns) =>
    table ++ ": [" ++ String.intercalate ", " columns ++ "]"
  "\x7b" ++ String.intercalate ", " (s.tables.toList.map entry) ++ "\x7d"

end Schema

end DatalogPolicy

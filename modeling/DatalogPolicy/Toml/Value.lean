import Std.Data.ExtTreeMap

/-!
# TOML values

Numbers and times keep their texts: what is read with this library has no use
for their values.
-/

namespace DatalogPolicy

/-- A value of a TOML document. -/
inductive Toml
  | boolean (value : Bool)
  | string (value : String)
  | number (text : String)
  | time (text : String)
  | array (items : List Toml)
  | table (entries : List (String × Toml))
deriving Repr

/-- How a table came to be, which decides whether it may be extended. -/
inductive Toml.Origin
  /-- The table has a header of its own, or is the document. -/
  | header
  /-- The table lies on the way to a table with a header. -/
  | path
  /-- The table lies on the way of a dotted key. -/
  | dotted
deriving DecidableEq, Repr

/-- A part of a document that is being read. -/
inductive Toml.Node
  | value (value : Toml)
  | table (origin : Toml.Origin) (entries : List (String × Toml.Node))
  | tables (all : List (List (String × Toml.Node)))
deriving Repr

namespace Toml

/-- The entry of a name in a list of entries. -/
def named? (entries : List (String × α)) (name : String) : Option α := entries.lookup name

/-- The entries with the first of a name replaced, or with a new one at the end. -/
def setEntry (entries : List (String × α)) (name : String) (item : α) : List (String × α) :=
  match entries with
  | [] => [(name, item)]
  | (other, old) :: rest =>
      if other = name then (name, item) :: rest else (other, old) :: setEntry rest name item

namespace Node

mutual

/-- The value of a finished part. -/
def toValue : Node → Toml
  | value v => v
  | table _ entries => .table (entryValues entries)
  | tables all => .array (tableValues all)

/-- The values of entries. -/
def entryValues : List (String × Node) → List (String × Toml)
  | [] => []
  | (name, node) :: rest => (name, node.toValue) :: entryValues rest

/-- The values of several tables. -/
def tableValues : List (List (String × Node)) → List Toml
  | [] => []
  | entries :: rest => .table (entryValues entries) :: tableValues rest

end

end Node

/-- The entries of a table in a document. -/
abbrev Entries := List (String × Node)

/-- Changes the table at the end of a path of headers. Tables on the way that do not exist yet are
made, and of an array of tables the last one is meant. -/
def updateAt (change : Origin → Entries → Option Entries) (origin : Origin) (entries : Entries) :
    List String → Option Entries
  | [] => change origin entries
  | name :: path =>
      match named? entries name with
      | none => (updateAt change .path [] path).map fun inner =>
          setEntry entries name (.table .path inner)
      | some (.table inside inner) => (updateAt change inside inner path).map fun inner =>
          setEntry entries name (.table inside inner)
      | some (.tables all) =>
          (updateAt change .header (all.getLastD []) path).map fun inner =>
            setEntry entries name (.tables (all.dropLast ++ [inner]))
      | some (.value _) => none

/-- Sets a dotted key below a table. Its tables may not have been made by headers, and the key
may not be there. -/
def setKey (value : Toml) (origin : Origin) (entries : Entries) :
    List String → String → Bool → Option Entries
  | [], last, isDotted =>
      if isDotted && origin ≠ .dotted then none
      else if (named? entries last).isSome then none
      else some (setEntry entries last (.value value))
  | name :: path, last, _ =>
      match named? entries name with
      | none => (setKey value .dotted [] path last true).map fun inner =>
          setEntry entries name (.table .dotted inner)
      | some (.table inside inner) =>
          if inside = .header then none
          else (setKey value inside inner path last true).map fun inner =>
            setEntry entries name (.table inside inner)
      | some (.tables all) =>
          (setKey value .header (all.getLastD []) path last true).map fun inner =>
            setEntry entries name (.tables (all.dropLast ++ [inner]))
      | some (.value _) => none

/-- Makes the table of a header, which may so far only lie on the way to others. -/
def openTable (last : String) (_ : Origin) (entries : Entries) : Option Entries :=
  match named? entries last with
  | none => some (setEntry entries last (.table .header []))
  | some (.table .path inner) => some (setEntry entries last (.table .header inner))
  | some _ => none

/-- Adds a table to an array of tables. -/
def pushTable (last : String) (_ : Origin) (entries : Entries) : Option Entries :=
  match named? entries last with
  | none => some (setEntry entries last (.tables [[]]))
  | some (.tables all) => some (setEntry entries last (.tables (all ++ [[]])))
  | some _ => none

end Toml

end DatalogPolicy

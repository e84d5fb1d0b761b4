import DatalogPolicy.Fault
import DatalogPolicy.Schema
import DatalogPolicy.Text.Blank
import DatalogPolicy.Toml.Reader

/-!
# Configurations

A configuration says how tables are named, which modals heads may use, and what
is known of the tables of theories. It is the value of a TOML document that has
no other keys.
-/

namespace DatalogPolicy

/-- A configuration. -/
structure Config where
  modules : Bool := true
  modals : List String := ["execute"]
  theories : Theories := {}

/-- Why a document with the right keys is no configuration. -/
inductive ConfigFault
  | emptyModal
  | repeatedColumn (column theory table : String)
deriving DecidableEq, Repr

/-- The wording of a fault. -/
def ConfigFault.message : ConfigFault → String
  | emptyModal => "permitted_modals may not contain empty names"
  | repeatedColumn column theory table =>
      "duplicate column '" ++ column ++ "' in " ++ theory ++ ":" ++ table

/-- Why there is no configuration. -/
inductive ConfigError
  | unreadable (path : String) (fault : FileFault)
  | malformed
  | invalid (fault : ConfigFault)
deriving DecidableEq, Repr

/-- The message of an error. Of a malformed document no more is said. -/
def ConfigError.message : ConfigError → String
  | unreadable path fault => "config io error: " ++ path ++ ": " ++ fault.message
  | malformed => "config parse error: ..."
  | invalid fault => "invalid config: " ++ fault.message

namespace Config

/-- A boolean. -/
def boolean? : Toml → Option Bool
  | .boolean b => some b
  | _ => none

/-- A text. -/
def text? : Toml → Option String
  | .string s => some s
  | _ => none

/-- A list of texts. -/
def texts? : Toml → Option (List String)
  | .array items => items.mapM text?
  | _ => none

/-- The values of named fields in order, where they are given. A table may have no other keys; an
array gives the first fields. -/
def fields? (names : List String) : Toml → Option (List (Option Toml))
  | .table entries =>
      if entries.all fun (name, _) => name ∈ names then some (names.map (Toml.named? entries))
      else none
  | .array items => some ((List.range names.length).map (items[·]?))
  | _ => none

/-- A field, or the default where it is not given. -/
def field? (read : Toml → Option α) (default : α) : Option Toml → Option α
  | some v => read v
  | none => some default

/-- A table of any keys. -/
def map? (read : Toml → Option α) : Toml → Option (Std.ExtTreeMap String α)
  | .table entries =>
      entries.foldlM (fun known (name, v) => (read v).map (known.insert name)) {}
  | _ => none

/-- A schema. -/
def schema? (v : Toml) : Option Schema := do
  let [complete, tables] ← fields? ["complete", "tables"] v | none
  return {
    complete := ← field? boolean? false complete
    tables := ← field? (map? texts?) {} tables }

/-- What a compiler is told, added to a configuration. -/
def compiler? (config : Config) (v : Toml) : Option Config := do
  let [modules, modals] ← fields? ["use_modules", "permitted_modals"] v | none
  return { config with
    modules := ← field? boolean? config.modules modules
    modals := ← field? texts? config.modals modals }

/-- The configuration of a document. -/
def ofEntries? (entries : List (String × Toml)) : Option Config := do
  let [compiler, theories] ← fields? ["compiler", "theories"] (.table entries) | none
  let config ← field? (compiler? {}) {} compiler
  return { config with theories := ← field? (map? schema?) {} theories }

/-- The first item of a list that stands in it before. -/
def repeated? [DecidableEq α] : List α → List α → Option α
  | _, [] => none
  | seen, x :: rest => if x ∈ seen then some x else repeated? (x :: seen) rest

/-- The first fault of a configuration, modals being looked at before columns. -/
def fault? (config : Config) : Option ConfigFault :=
  if config.modals.any Text.isBlank then some .emptyModal
  else
    config.theories.toList.findSome? fun (theory, schema) =>
      schema.tables.toList.findSome? fun (table, columns) =>
        (repeated? [] columns).map (.repeatedColumn · theory table)

/-- The configuration of a text. -/
def read (text : String) : Except ConfigError Config :=
  match (Toml.read? text).bind ofEntries? with
  | none => .error .malformed
  | some config =>
      match config.fault? with
      | some fault => .error (.invalid fault)
      | none => .ok config

end Config

end DatalogPolicy

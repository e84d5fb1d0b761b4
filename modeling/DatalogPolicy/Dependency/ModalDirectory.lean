import DatalogPolicy.Dependency.ModalIndex

/-!
# Tables under modals, modal by modal

A modal directory keeps a counted collection of tables for each modal. Its entries are
counted up and down one at a time, and a modal goes with the last table under it.

## Implementation notes

A dependency graph keeps the same counts in a modal index, in one collection of pairs.
Directories may count alike and still differ, where one of them has a modal without
tables or a table with a count of zero, and the operations have to see to it that this
does not happen. Lessening a count has no result at zero, whereas in an index it stops
there.
-/

namespace DatalogPolicy

/-- Holds an item that has an entry once less, or no longer. A count of zero has no number below
it. -/
def Counts.decrement? {α : Type} [Ord α] [Std.TransOrd α] (held : Counts α) (x : α) :
    Option (Counts α) :=
  match held[x]? with
  | none => some held
  | some 0 => none
  | some 1 => some (held.erase x)
  | some (n + 2) => some (held.insert x (n + 1))

/-- For each modal, how often each table stands under it. -/
structure ModalDirectory where
  byModal : Std.ExtTreeMap String (Counts String) := {}
deriving DecidableEq

namespace ModalDirectory

/-- The tables under a modal with their counts. -/
def under (d : ModalDirectory) (modal : String) : Counts String := d.byModal.getD modal ∅

/-- How often a table stands under a modal. -/
def count (d : ModalDirectory) (entry : ModalTable) : Nat := (d.under entry.modal).count entry.table

/-- Counts a table under a modal once more. -/
def add (d : ModalDirectory) (entry : ModalTable) : ModalDirectory :=
  ⟨d.byModal.insert entry.modal ((d.under entry.modal).add entry.table 1)⟩

/-- Stores the tables under a modal; a modal without tables goes away. -/
def store (d : ModalDirectory) (modal : String) (tables : Counts String) : ModalDirectory :=
  if tables.isEmpty then ⟨d.byModal.erase modal⟩ else ⟨d.byModal.insert modal tables⟩

/-- Counts a table under a modal once less. -/
def remove? (d : ModalDirectory) (entry : ModalTable) : Option ModalDirectory :=
  match d.byModal[entry.modal]? with
  | none => some d
  | some tables => (tables.decrement? entry.table).map (d.store entry.modal)

/-- The tables under modals with their counts, modal after modal. -/
def entries (d : ModalDirectory) : List (ModalTable × Nat) :=
  d.byModal.toList.flatMap fun (modal, tables) =>
    tables.toList.map fun (table, n) => (⟨modal, table⟩, n)

/-- Counts a table under a modal several times more, one after the other. -/
def addTimes (d : ModalDirectory) (entry : ModalTable) : Nat → ModalDirectory
  | 0 => d
  | n + 1 => (d.add entry).addTimes entry n

/-- Counts a table under a modal several times less, one after the other. -/
def removeTimes? (d : ModalDirectory) (entry : ModalTable) : Nat → Option ModalDirectory
  | 0 => some d
  | n + 1 => do (← d.remove? entry).removeTimes? entry n

/-- Counts all that another directory counts in addition. -/
def plus (d other : ModalDirectory) : ModalDirectory :=
  other.entries.foldl (fun d (entry, n) => d.addTimes entry n) d

/-- Counts all that another directory counts no longer. -/
def minus? (d other : ModalDirectory) : Option ModalDirectory :=
  other.entries.foldlM (fun d (entry, n) => d.removeTimes? entry n) d

/-- Whether there are no modals. -/
def isEmpty (d : ModalDirectory) : Bool := d.byModal.isEmpty

/-- The modals in increasing order. -/
def modals (d : ModalDirectory) : List String := d.byModal.keys

/-- The tables under a modal in increasing order. -/
def tables (d : ModalDirectory) (modal : String) : List String := (d.under modal).keys

/-- The written form of a directory, without its counts. -/
def text (d : ModalDirectory) : String :=
  let entry := fun modal => modal ++ ": [" ++ String.intercalate ", " (d.tables modal) ++ "]"
  "\x7b" ++ String.intercalate ", " (d.modals.map entry) ++ "\x7d"

/-- The same counts in one collection. -/
def index (d : ModalDirectory) : ModalIndex := ⟨Std.ExtTreeMap.ofList d.entries⟩

end ModalDirectory

end DatalogPolicy

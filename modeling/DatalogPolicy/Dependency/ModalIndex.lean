import DatalogPolicy.Graph.Counts
import DatalogPolicy.OrderedList

/-!
# Tables under modals

A modal index counts the pairs of a modal and a table that stand in heads.
-/

namespace DatalogPolicy

/-- A table under a modal. -/
structure ModalTable where
  modal : String
  table : String
deriving DecidableEq, Repr

/-- The order of pairs: by modal, then by table. -/
def ModalTable.order : ModalTable → ModalTable → Ordering :=
  compareLex (compareOn (·.modal)) (compareOn (·.table))

instance : Ord ModalTable := ⟨ModalTable.order⟩

instance : Std.TransOrd ModalTable :=
  inferInstanceAs (Std.TransCmp
    (compareLex (compareOn ModalTable.modal) (compareOn ModalTable.table)))

instance : Std.LawfulEqOrd ModalTable where
  eq_of_compare {a b} h := by
    have h : compareLex (compareOn ModalTable.modal) (compareOn ModalTable.table) a b = .eq := h
    simp only [compareLex_eq_eq, compareOn, Std.LawfulEqOrd.compare_eq_iff_eq] at h
    cases a; cases b; simp_all

/-- How often each table stands under each modal. -/
structure ModalIndex where
  counts : Counts ModalTable := {}
deriving DecidableEq

namespace ModalIndex

/-- How often a table stands under a modal. -/
def count (i : ModalIndex) (entry : ModalTable) : Nat := i.counts.count entry

/-- Counts a table under a modal once more. -/
def add (i : ModalIndex) (entry : ModalTable) : ModalIndex := ⟨i.counts.add entry 1⟩

/-- Counts a table under a modal once less. -/
def remove (i : ModalIndex) (entry : ModalTable) : ModalIndex := ⟨i.counts.remove entry 1⟩

/-- Counts all that another index counts in addition. -/
def union (i other : ModalIndex) : ModalIndex := ⟨i.counts.union other.counts⟩

/-- Counts all that another index counts no longer. -/
def diff (i other : ModalIndex) : ModalIndex := ⟨i.counts.diff other.counts⟩

/-- Whether nothing is counted. -/
def isEmpty (i : ModalIndex) : Bool := i.counts.isEmpty

/-- The modals in increasing order. -/
def modals (i : ModalIndex) : List String := OrderedList.ofTexts (i.counts.keys.map (·.modal))

/-- The tables under a modal in increasing order. -/
def tables (i : ModalIndex) (modal : String) : List String :=
  (i.counts.keys.filter (·.modal = modal)).map (·.table)

/-- The written form of an index, without its counts. -/
def text (i : ModalIndex) : String :=
  let entry := fun modal => modal ++ ": [" ++ String.intercalate ", " (i.tables modal) ++ "]"
  "\x7b" ++ String.intercalate ", " (i.modals.map entry) ++ "\x7d"

end ModalIndex

end DatalogPolicy

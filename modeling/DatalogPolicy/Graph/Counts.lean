import Std.Data.ExtTreeMap

/-!
# Counted collections

A counted collection maps items to how often it holds them. An item that it no
longer holds has no entry, so equal collections hold every item equally often.
-/

namespace DatalogPolicy

/-- A collection that may hold an item several times. -/
abbrev Counts (α : Type) [Ord α] [Std.TransOrd α] := Std.ExtTreeMap α Nat

namespace Counts

variable {α : Type} [Ord α] [Std.TransOrd α]

/-- How often an item is held. -/
def count (c : Counts α) (x : α) : Nat := c.getD x 0

/-- Holds an item `n` more times. -/
def add (c : Counts α) (x : α) (n : Nat) : Counts α :=
  if n = 0 then c else c.insert x (c.count x + n)

/-- Holds an item `n` fewer times, or no longer. -/
def remove (c : Counts α) (x : α) (n : Nat) : Counts α :=
  if c.count x ≤ n then c.erase x else c.insert x (c.count x - n)

/-- Adds all that another collection holds. -/
def union (c other : Counts α) : Counts α :=
  other.toList.foldl (fun c (x, n) => c.add x n) c

/-- Removes all that another collection holds. -/
def diff (c other : Counts α) : Counts α :=
  other.toList.foldl (fun c (x, n) => c.remove x n) c

/-- An item that is held is an entry. -/
theorem mem_of_count_pos {c : Counts α} {x : α} (h : 0 < c.count x) : x ∈ c := by
  by_cases hx : x ∈ c
  · exact hx
  · simp [count, Std.ExtTreeMap.getD_eq_fallback hx] at h

/-- Removing an entry leaves fewer of them. -/
theorem size_erase_lt {c : Counts α} {x : α} (h : x ∈ c) :
    Std.ExtTreeMap.size (c.erase x) < c.size := by
  have hpos : 0 < c.size := Nat.pos_of_ne_zero fun h0 => by
    simp [Std.ExtTreeMap.eq_empty_iff_size_eq_zero.2 h0] at h
  rw [Std.ExtTreeMap.size_erase, if_pos (Std.ExtTreeMap.mem_iff_contains.1 h)]
  omega

/-- Holding an item fewer times makes no entries. -/
theorem size_remove_le (c : Counts α) (x : α) (n : Nat) : (c.remove x n).size ≤ c.size := by
  unfold remove
  split
  · exact Std.ExtTreeMap.size_erase_le
  · next h =>
      have hx : x ∈ c := mem_of_count_pos (by omega)
      exact Nat.le_of_eq (by
        rw [Std.ExtTreeMap.size_insert, if_pos (Std.ExtTreeMap.mem_iff_contains.1 hx)])

end Counts

end DatalogPolicy

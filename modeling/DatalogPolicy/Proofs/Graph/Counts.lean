import DatalogPolicy.Graph.Counts
import Mathlib.Algebra.BigOperators.Group.List.Basic
import Mathlib.Algebra.GroupWithZero.Nat
import Mathlib.Algebra.Order.Group.Multiset
import Mathlib.Data.Multiset.Filter

/-!
# Counted collections hold multisets

A counted collection holds a multiset when it counts every item as often as the
multiset does and has no entry that counts nothing. The operations on collections
are then those on multisets, and a multiset is held by one collection only.
-/

namespace DatalogPolicy.Counts

section Counting

variable {α : Type} [Ord α] [Std.TransOrd α]

theorem count_eq_zero_of_not_mem {c : Counts α} {x : α} (h : x ∉ c) : c.count x = 0 :=
  Std.ExtTreeMap.getD_eq_fallback h

@[simp] theorem count_empty (x : α) : Counts.count (∅ : Counts α) x = 0 :=
  count_eq_zero_of_not_mem Std.ExtTreeMap.not_mem_empty

theorem remove_of_lt {c : Counts α} {x : α} {n : Nat} (h : n < c.count x) :
    c.remove x n = c.insert x (c.count x - n) := if_neg (Nat.not_le_of_lt h)

theorem remove_of_le {c : Counts α} {x : α} {n : Nat} (h : c.count x ≤ n) :
    c.remove x n = c.erase x := if_pos h

theorem mem_of_mem_remove [Std.LawfulEqOrd α] {c : Counts α} {x y : α} {n : Nat}
    (h : y ∈ c.remove x n) : y ∈ c := by
  rw [remove] at h
  split at h
  · exact Std.ExtTreeMap.mem_of_mem_erase h
  · next hmore =>
      rw [Std.ExtTreeMap.mem_insert, Std.LawfulEqOrd.compare_eq_iff_eq] at h
      exact h.elim (fun heq => heq ▸ mem_of_count_pos (by omega)) id

variable [Std.LawfulEqOrd α] [DecidableEq α]

@[simp] theorem count_insert (c : Counts α) (x y : α) (n : Nat) :
    Counts.count (c.insert x n) y = if x = y then n else c.count y := by
  simp [count, Std.ExtTreeMap.getD_insert]

@[simp] theorem count_erase (c : Counts α) (x y : α) :
    Counts.count (c.erase x) y = if x = y then 0 else c.count y := by
  simp [count, Std.ExtTreeMap.getD_erase]

theorem count_add (c : Counts α) (x y : α) (n : Nat) :
    (c.add x n).count y = c.count y + if x = y then n else 0 := by
  unfold add
  split
  · next h => simp [h]
  · by_cases hxy : x = y <;> simp [hxy]

theorem count_remove (c : Counts α) (x y : α) (n : Nat) :
    (c.remove x n).count y = c.count y - if x = y then n else 0 := by
  by_cases hxy : x = y
  · subst y
    unfold remove
    split <;> simp
    omega
  · unfold remove
    split <;> simp [hxy]

end Counting

/-- No entry counts nothing. -/
def Positive {α : Type} [Ord α] [Std.TransOrd α] (c : Counts α) : Prop :=
  ∀ x ∈ c, 0 < c.count x

section Positive

variable {α : Type} [Ord α] [Std.TransOrd α] {c : Counts α} {x : α}

theorem Positive.mem_iff (h : c.Positive) : x ∈ c ↔ 0 < c.count x :=
  ⟨h x, mem_of_count_pos⟩

theorem positive_empty : Positive (∅ : Counts α) := fun _ h =>
  absurd h Std.ExtTreeMap.not_mem_empty

variable [Std.LawfulEqOrd α] [DecidableEq α]

theorem Positive.insert (h : c.Positive) {n : Nat} (hn : 0 < n) :
    Positive (c.insert x n) := by
  intro y hy
  rw [count_insert]
  split
  · exact hn
  · next hxy =>
      rw [Std.ExtTreeMap.mem_insert, Std.LawfulEqOrd.compare_eq_iff_eq] at hy
      exact h y (hy.resolve_left hxy)

theorem Positive.erase (h : c.Positive) : Positive (c.erase x) := by
  intro y hy
  rw [Std.ExtTreeMap.mem_erase, ne_eq, Std.LawfulEqOrd.compare_eq_iff_eq] at hy
  rw [count_erase, if_neg hy.1]
  exact h y hy.2

theorem Positive.add (h : c.Positive) (n : Nat) : (c.add x n).Positive := by
  unfold Counts.add
  split
  · exact h
  · exact h.insert (by omega)

theorem Positive.remove (h : c.Positive) (n : Nat) : (c.remove x n).Positive := by
  unfold Counts.remove
  split
  · exact h.erase
  · exact h.insert (by omega)

omit [DecidableEq α] in
/-- Collections without empty entries are equal when they count alike. -/
theorem Positive.ext {a b : Counts α} (ha : a.Positive) (hb : b.Positive)
    (h : ∀ x, a.count x = b.count x) : a = b := by
  apply Std.ExtTreeMap.ext_getElem?
  intro x
  have hmem : x ∈ a ↔ x ∈ b := by rw [ha.mem_iff, hb.mem_iff, h]
  by_cases hx : x ∈ a
  · have hax : a[x]? = some (a.count x) := Std.ExtTreeMap.getElem?_eq_some_getD hx
    have hbx : b[x]? = some (b.count x) := Std.ExtTreeMap.getElem?_eq_some_getD (hmem.1 hx)
    rw [hax, hbx, h]
  · rw [Std.ExtTreeMap.getElem?_eq_none hx, Std.ExtTreeMap.getElem?_eq_none (mt hmem.2 hx)]

end Positive

section Holds

variable {α : Type} [Ord α] [Std.TransOrd α] [DecidableEq α]

/-- The collection counts every item as often as the multiset does. -/
structure Holds (c : Counts α) (s : Multiset α) : Prop where
  positive : c.Positive
  count_eq : ∀ x, c.count x = s.count x

/-- The items of a collection, each as often as it is counted. -/
def items (c : Counts α) : Multiset α :=
  (c.toList.map fun p => Multiset.replicate p.2 p.1).sum

omit [Ord α] [Std.TransOrd α] in
private theorem count_sum_replicate (l : List (α × Nat)) (x : α) :
    (l.map fun p => Multiset.replicate p.2 p.1).sum.count x =
      (l.map fun p => if p.1 = x then p.2 else 0).sum := by
  induction l with
  | nil => rfl
  | cons p rest ih =>
      rw [List.map_cons, List.sum_cons, Multiset.count_add, ih, Multiset.count_replicate,
        List.map_cons, List.sum_cons]

omit [Ord α] [Std.TransOrd α] in
private theorem sum_of_not_mem {l : List (α × Nat)} {x : α} (h : x ∉ l.map Prod.fst) :
    (l.map fun p => if p.1 = x then p.2 else 0).sum = 0 := by
  apply List.sum_eq_zero
  intro n hn
  obtain ⟨p, hp, rfl⟩ := List.mem_map.1 hn
  have hpx : p.1 ≠ x := fun hpx => h (List.mem_map.2 ⟨p, hp, hpx⟩)
  exact if_neg hpx

omit [Ord α] [Std.TransOrd α] in
private theorem sum_of_mem {l : List (α × Nat)} {x : α} {n : Nat} (hn : (x, n) ∈ l)
    (h : (l.map Prod.fst).Nodup) : (l.map fun p => if p.1 = x then p.2 else 0).sum = n := by
  induction l with
  | nil => exact absurd hn List.not_mem_nil
  | cons p rest ih =>
      rw [List.map_cons, List.nodup_cons] at h
      rw [List.map_cons, List.sum_cons]
      rcases List.mem_cons.1 hn with rfl | hrest
      · rw [if_pos rfl, sum_of_not_mem h.1, Nat.add_zero]
      · have hpx : p.1 ≠ x := fun hpx => h.1 (List.mem_map.2 ⟨_, hrest, hpx.symm⟩)
        rw [if_neg hpx, Nat.zero_add, ih hrest h.2]

theorem count_items [Std.LawfulEqOrd α] (c : Counts α) (x : α) :
    c.items.count x = c.count x := by
  have hkeys : (c.toList.map Prod.fst).Nodup := by
    rw [Std.ExtTreeMap.map_fst_toList_eq_keys]
    exact Std.ExtTreeMap.nodup_keys
  rw [items, count_sum_replicate]
  by_cases hx : x ∈ c
  · apply sum_of_mem _ hkeys
    rw [Std.ExtTreeMap.mem_toList_iff_getElem?_eq_some]
    exact Std.ExtTreeMap.getElem?_eq_some_getD hx
  · rw [count_eq_zero_of_not_mem hx]
    apply sum_of_not_mem
    rwa [Std.ExtTreeMap.map_fst_toList_eq_keys, Std.ExtTreeMap.mem_keys]

namespace Holds

variable {c d : Counts α} {s t : Multiset α} {x : α}

theorem mem_iff (h : Holds c s) : x ∈ c ↔ x ∈ s := by
  rw [h.positive.mem_iff, h.count_eq, Multiset.count_pos]

theorem empty : Holds (∅ : Counts α) 0 := ⟨positive_empty, fun x => by simp⟩

variable [Std.LawfulEqOrd α]

/-- A collection without empty entries holds its items. -/
theorem of_positive (h : c.Positive) : Holds c c.items := ⟨h, fun x => (count_items c x).symm⟩

/-- A multiset is held by one collection only. -/
theorem unique (hc : Holds c s) (hd : Holds d s) : c = d :=
  hc.positive.ext hd.positive fun x => (hc.count_eq x).trans (hd.count_eq x).symm

theorem add (h : Holds c s) (x : α) (n : Nat) :
    Holds (c.add x n) (s + Multiset.replicate n x) where
  positive := h.positive.add n
  count_eq y := by
    rw [count_add, h.count_eq, Multiset.count_add, Multiset.count_replicate]

theorem remove (h : Holds c s) (x : α) (n : Nat) :
    Holds (c.remove x n) (s - Multiset.replicate n x) where
  positive := h.positive.remove n
  count_eq y := by
    rw [count_remove, h.count_eq, Multiset.count_sub, Multiset.count_replicate]

theorem add_one (h : Holds c s) (x : α) : Holds (c.add x 1) (x ::ₘ s) := by
  have hx := h.add x 1
  rwa [Multiset.replicate_one, add_comm, Multiset.singleton_add] at hx

theorem remove_one (h : Holds c s) (x : α) : Holds (c.remove x 1) (s.erase x) := by
  have hx := h.remove x 1
  rwa [Multiset.replicate_one, Multiset.sub_singleton] at hx

theorem items_eq (h : Holds c s) : c.items = s :=
  Multiset.ext.2 fun x => by rw [count_items, h.count_eq]

private theorem foldl_add (h : Holds c s) (l : List (α × Nat)) :
    Holds (l.foldl (fun c (x, n) => Counts.add c x n) c)
      (s + (l.map fun p => Multiset.replicate p.2 p.1).sum) := by
  induction l generalizing c s with
  | nil => simpa using h
  | cons p rest ih =>
      rw [List.map_cons, List.sum_cons, ← add_assoc]
      exact ih (h.add p.1 p.2)

private theorem foldl_remove (h : Holds c s) (l : List (α × Nat)) :
    Holds (l.foldl (fun c (x, n) => Counts.remove c x n) c)
      (s - (l.map fun p => Multiset.replicate p.2 p.1).sum) := by
  induction l generalizing c s with
  | nil => simpa using h
  | cons p rest ih =>
      rw [List.map_cons, List.sum_cons, ← tsub_tsub]
      exact ih (h.remove p.1 p.2)

theorem union (hc : Holds c s) (hd : Holds d t) : Holds (c.union d) (s + t) :=
  hd.items_eq ▸ hc.foldl_add d.toList

theorem diff (hc : Holds c s) (hd : Holds d t) : Holds (c.diff d) (s - t) :=
  hd.items_eq ▸ hc.foldl_remove d.toList

end Holds

variable [Std.LawfulEqOrd α] {c d : Counts α}

theorem Positive.union (hc : c.Positive) (hd : d.Positive) : (c.union d).Positive :=
  ((Holds.of_positive hc).union (.of_positive hd)).positive

theorem Positive.diff (hc : c.Positive) (hd : d.Positive) : (c.diff d).Positive :=
  ((Holds.of_positive hc).diff (.of_positive hd)).positive

theorem count_union (hc : c.Positive) (hd : d.Positive) (x : α) :
    (c.union d).count x = c.count x + d.count x := by
  rw [((Holds.of_positive hc).union (.of_positive hd)).count_eq, Multiset.count_add, count_items,
    count_items]

theorem count_diff (hc : c.Positive) (hd : d.Positive) (x : α) :
    (c.diff d).count x = c.count x - d.count x := by
  rw [((Holds.of_positive hc).diff (.of_positive hd)).count_eq, Multiset.count_sub, count_items,
    count_items]

end Holds

end DatalogPolicy.Counts

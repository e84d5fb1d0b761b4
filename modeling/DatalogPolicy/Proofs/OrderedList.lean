import DatalogPolicy.OrderedList
import Mathlib.Data.List.Sort

/-!
# Lists in increasing order

The list in which some items are collected is strictly increasing and has the same
members, so it does not depend on their order or on how often they are given.
-/

namespace DatalogPolicy.OrderedList

variable {α : Type _} {cmp : α → α → Ordering}

/-- Each item stands strictly before all that follow it. -/
def Increasing (cmp : α → α → Ordering) (xs : List α) : Prop :=
  xs.Pairwise fun a b => cmp a b = .lt

theorem mem_put [Std.LawfulEqCmp cmp] {x y : α} {xs : List α} :
    y ∈ put cmp x xs ↔ y = x ∨ y ∈ xs := by
  induction xs with
  | nil => simp [put]
  | cons z rest ih =>
      rw [put]
      cases h : cmp x z with
      | lt => simp
      | eq => simp [Std.LawfulEqCmp.eq_of_compare h]
      | gt => simp [ih, or_left_comm]

/-- What is put takes the place of an item or joins the others. -/
theorem mem_of_mem_put {x y : α} {xs : List α} (h : y ∈ put cmp x xs) : y = x ∨ y ∈ xs := by
  induction xs with
  | nil => exact .inl (List.mem_singleton.1 h)
  | cons z rest ih =>
      rw [put] at h
      split at h
      · exact List.mem_cons.1 h
      · exact (List.mem_cons.1 h).imp_right (List.mem_cons_of_mem z)
      · rcases List.mem_cons.1 h with rfl | hrest
        · exact .inr List.mem_cons_self
        · exact (ih hrest).imp_right (List.mem_cons_of_mem z)

/-- What is collected has been given, whatever the order. -/
theorem mem_of_mem_ofList {y : α} {xs : List α} (h : y ∈ ofList cmp xs) : y ∈ xs := by
  have hfold (ys kept : List α) (h : y ∈ ys.foldl (fun kept x => put cmp x kept) kept) :
      y ∈ kept ∨ y ∈ ys := by
    induction ys generalizing kept with
    | nil => exact .inl h
    | cons x rest ih =>
        rcases ih _ h with hkept | hrest
        · rcases mem_of_mem_put hkept with rfl | hkept
          · exact .inr List.mem_cons_self
          · exact .inl hkept
        · exact .inr (List.mem_cons_of_mem x hrest)
  exact (hfold xs [] h).resolve_left List.not_mem_nil

theorem mem_of_mem_insert {x y : α} {xs : List α} (h : y ∈ insert cmp x xs) :
    y = x ∨ y ∈ xs := by
  induction xs with
  | nil => exact .inl (List.mem_singleton.1 h)
  | cons z rest ih =>
      rw [insert] at h
      split at h
      · exact List.mem_cons.1 h
      · exact .inr h
      · rcases List.mem_cons.1 h with rfl | hrest
        · exact .inr List.mem_cons_self
        · exact (ih hrest).imp_right (List.mem_cons_of_mem z)

theorem mem_insert_of_mem {x y : α} {xs : List α} (h : y ∈ xs) : y ∈ insert cmp x xs := by
  induction xs with
  | nil => exact absurd h List.not_mem_nil
  | cons z rest ih =>
      rw [insert]
      split
      · exact List.mem_cons_of_mem x h
      · exact h
      · rcases List.mem_cons.1 h with rfl | hrest
        · exact List.mem_cons_self
        · exact List.mem_cons_of_mem z (ih hrest)

/-- An item that is added has an equal one afterwards. -/
theorem exists_mem_insert [Std.ReflCmp cmp] (x : α) (xs : List α) :
    ∃ y ∈ insert cmp x xs, cmp x y = .eq := by
  induction xs with
  | nil => exact ⟨x, List.mem_singleton_self x, Std.ReflCmp.compare_self⟩
  | cons z rest ih =>
      rw [insert]
      split
      · exact ⟨x, List.mem_cons_self, Std.ReflCmp.compare_self⟩
      · next heq => exact ⟨z, List.mem_cons_self, heq⟩
      · obtain ⟨y, hy, heq⟩ := ih
        exact ⟨y, List.mem_cons_of_mem z hy, heq⟩

/-- An item that is put has an equal one afterwards. -/
theorem exists_mem_put [Std.ReflCmp cmp] (x : α) (xs : List α) :
    ∃ z ∈ put cmp x xs, cmp x z = .eq := by
  induction xs with
  | nil => exact ⟨x, List.mem_singleton_self x, Std.ReflCmp.compare_self⟩
  | cons z rest ih =>
      rw [put]
      split
      · exact ⟨x, List.mem_cons_self, Std.ReflCmp.compare_self⟩
      · exact ⟨x, List.mem_cons_self, Std.ReflCmp.compare_self⟩
      · obtain ⟨w, hw, heq⟩ := ih
        exact ⟨w, List.mem_cons_of_mem z hw, heq⟩

/-- An item that is replaced is equal to the one that replaces it. -/
theorem exists_mem_put_of_mem [Std.TransCmp cmp] {x y z : α} {xs : List α} (hz : z ∈ xs)
    (heq : cmp y z = .eq) : ∃ w ∈ put cmp x xs, cmp y w = .eq := by
  induction xs with
  | nil => exact absurd hz List.not_mem_nil
  | cons first rest ih =>
      rw [put]
      split
      · exact ⟨z, List.mem_cons_of_mem x hz, heq⟩
      · next hfirst =>
          rcases List.mem_cons.1 hz with rfl | hrest
          · exact ⟨x, List.mem_cons_self, Std.TransCmp.eq_trans heq (Std.OrientedCmp.eq_symm hfirst)⟩
          · exact ⟨z, List.mem_cons_of_mem x hrest, heq⟩
      · rcases List.mem_cons.1 hz with rfl | hrest
        · exact ⟨z, List.mem_cons_self, heq⟩
        · obtain ⟨w, hw, heq'⟩ := ih hrest
          exact ⟨w, List.mem_cons_of_mem first hw, heq'⟩

/-- What is given has an equal item among those that are collected. -/
theorem exists_mem_ofList [Std.TransCmp cmp] {y : α} {xs : List α} (h : y ∈ xs) :
    ∃ z ∈ ofList cmp xs, cmp y z = .eq := by
  have hfold (ys kept : List α) (h : (∃ z ∈ kept, cmp y z = .eq) ∨ y ∈ ys) :
      ∃ z ∈ ys.foldl (fun kept x => put cmp x kept) kept, cmp y z = .eq := by
    induction ys generalizing kept with
    | nil => exact h.resolve_right List.not_mem_nil
    | cons x rest ih =>
        apply ih
        rcases h with ⟨z, hz, heq⟩ | hgiven
        · exact .inl (exists_mem_put_of_mem hz heq)
        · rcases List.mem_cons.1 hgiven with rfl | hrest
          · exact .inl (exists_mem_put y kept)
          · exact .inr hrest
  exact hfold xs [] (.inr h)

theorem increasing_put [Std.TransCmp cmp] {x : α} {xs : List α} (h : Increasing cmp xs) :
    Increasing cmp (put cmp x xs) := by
  induction xs with
  | nil => exact List.pairwise_singleton _ _
  | cons z rest ih =>
      obtain ⟨hz, hrest⟩ := List.pairwise_cons.1 h
      rw [put]
      cases hxz : cmp x z with
      | lt =>
          refine List.pairwise_cons.2 ⟨fun y hy => ?_, h⟩
          rcases List.mem_cons.1 hy with rfl | hy
          · exact hxz
          · exact Std.TransCmp.lt_trans hxz (hz y hy)
      | eq =>
          exact List.pairwise_cons.2
            ⟨fun y hy => Std.TransCmp.lt_of_eq_of_lt hxz (hz y hy), hrest⟩
      | gt =>
          refine List.pairwise_cons.2 ⟨fun y hy => ?_, ih hrest⟩
          rcases mem_of_mem_put hy with rfl | hy
          · exact Std.OrientedCmp.lt_of_gt hxz
          · exact hz y hy

/-- An item takes the place of an equal one. -/
theorem length_put_of_mem [Std.TransCmp cmp] {x y : α} {xs : List α} (h : Increasing cmp xs)
    (hy : y ∈ xs) (heq : cmp x y = .eq) : (put cmp x xs).length = xs.length := by
  induction xs with
  | nil => exact absurd hy List.not_mem_nil
  | cons z rest ih =>
      obtain ⟨hz, hrest⟩ := List.pairwise_cons.1 h
      rw [put]
      cases hxz : cmp x z with
      | lt =>
          -- nothing that follows is equal to an item before the first one
          have hxy : cmp x y = .lt := by
            rcases List.mem_cons.1 hy with rfl | hy
            · exact hxz
            · exact Std.TransCmp.lt_trans hxz (hz y hy)
          rw [heq] at hxy
          contradiction
      | eq => rfl
      | gt =>
          rcases List.mem_cons.1 hy with rfl | hy
          · rw [heq] at hxz
            contradiction
          · exact congrArg Nat.succ (ih hrest hy)

/-- An item that has no equal one joins the others. -/
theorem length_put_of_new {x : α} {xs : List α} (h : ∀ y ∈ xs, cmp x y ≠ .eq) :
    (put cmp x xs).length = xs.length + 1 := by
  induction xs with
  | nil => rfl
  | cons z rest ih =>
      rw [put]
      split
      · rfl
      · next hxz => exact absurd hxz (h z List.mem_cons_self)
      · exact congrArg Nat.succ (ih fun y hy => h y (List.mem_cons_of_mem z hy))

theorem increasing_insert [Std.TransCmp cmp] {x : α} {xs : List α} (h : Increasing cmp xs) :
    Increasing cmp (insert cmp x xs) := by
  induction xs with
  | nil => exact List.pairwise_singleton _ _
  | cons z rest ih =>
      obtain ⟨hz, hrest⟩ := List.pairwise_cons.1 h
      rw [insert]
      cases hxz : cmp x z with
      | lt =>
          refine List.pairwise_cons.2 ⟨fun y hy => ?_, h⟩
          rcases List.mem_cons.1 hy with rfl | hy
          · exact hxz
          · exact Std.TransCmp.lt_trans hxz (hz y hy)
      | eq => exact h
      | gt =>
          refine List.pairwise_cons.2 ⟨fun y hy => ?_, ih hrest⟩
          rcases mem_of_mem_insert hy with rfl | hy
          · exact Std.OrientedCmp.lt_of_gt hxz
          · exact hz y hy

private theorem mem_foldl_put [Std.LawfulEqCmp cmp] {y : α} (xs kept : List α) :
    y ∈ xs.foldl (fun kept x => put cmp x kept) kept ↔ y ∈ kept ∨ y ∈ xs := by
  induction xs generalizing kept with
  | nil => simp
  | cons x rest ih =>
      rw [List.foldl_cons, ih, mem_put, List.mem_cons, or_assoc, or_left_comm]

theorem mem_ofList [Std.LawfulEqCmp cmp] {y : α} {xs : List α} :
    y ∈ ofList cmp xs ↔ y ∈ xs := by
  simp [ofList, mem_foldl_put]

variable [Std.TransCmp cmp]

private theorem increasing_foldl_put (xs : List α) {kept : List α}
    (h : Increasing cmp kept) :
    Increasing cmp (xs.foldl (fun kept x => put cmp x kept) kept) := by
  induction xs generalizing kept with
  | nil => exact h
  | cons x rest ih => exact ih (increasing_put h)

theorem increasing_ofList (xs : List α) : Increasing cmp (ofList cmp xs) :=
  increasing_foldl_put xs List.Pairwise.nil

theorem Increasing.nodup {xs : List α} (h : Increasing cmp xs) : xs.Nodup := by
  apply List.Pairwise.imp _ h
  rintro a b hab rfl
  exact absurd hab (Std.OrientedCmp.not_lt_of_lt hab)

/-- An increasing list is determined by its members. -/
theorem Increasing.ext {xs ys : List α} (hx : Increasing cmp xs) (hy : Increasing cmp ys)
    (h : ∀ a, a ∈ xs ↔ a ∈ ys) : xs = ys := by
  apply List.Perm.eq_of_pairwise _ hx hy ((List.perm_ext_iff_of_nodup hx.nodup hy.nodup).2 h)
  intro a b _ _ hab hba
  exact absurd hba (Std.OrientedCmp.not_lt_of_lt hab)

theorem nodup_ofList [Std.LawfulEqCmp cmp] (xs : List α) : (ofList cmp xs).Nodup :=
  (increasing_ofList xs).nodup

theorem ofList_congr [Std.LawfulEqCmp cmp] {xs ys : List α} (h : ∀ a, a ∈ xs ↔ a ∈ ys) :
    ofList cmp xs = ofList cmp ys :=
  (increasing_ofList xs).ext (increasing_ofList ys) fun a => by
    rw [mem_ofList, mem_ofList, h]

theorem sort_perm (cmp : α → α → Ordering) (xs : List α) : (sort cmp xs).Perm xs :=
  List.mergeSort_perm xs _

theorem pairwise_sort (cmp : α → α → Ordering) [Std.TransCmp cmp] (xs : List α) :
    (sort cmp xs).Pairwise fun a b => (cmp a b).isLE := by
  apply List.pairwise_mergeSort
  · intro a b c hab hbc
    exact Std.TransCmp.isLE_trans hab hbc
  · intro a b
    have hswap : cmp b a = (cmp a b).swap := Std.OrientedCmp.eq_swap
    rw [hswap]
    cases cmp a b <;> rfl

/-- Sorted items do not depend on the order in which they are given, where equal ones are the
same. -/
theorem sort_eq_of_perm [Std.LawfulEqCmp cmp] {xs ys : List α} (h : xs.Perm ys) :
    sort cmp xs = sort cmp ys := by
  have hperm : (sort cmp xs).Perm (sort cmp ys) :=
    ((sort_perm cmp xs).trans h).trans (sort_perm cmp ys).symm
  apply hperm.eq_of_pairwise _ (pairwise_sort cmp xs) (pairwise_sort cmp ys)
  intro a b _ _ hab hba
  exact Std.LawfulEqCmp.eq_of_compare (Std.OrientedCmp.isLE_antisymm hab hba)

theorem mem_ofTexts {x : String} {xs : List String} : x ∈ ofTexts xs ↔ x ∈ xs := mem_ofList

theorem ofTexts_congr {xs ys : List String} (h : ∀ a, a ∈ xs ↔ a ∈ ys) :
    ofTexts xs = ofTexts ys := ofList_congr h

end DatalogPolicy.OrderedList

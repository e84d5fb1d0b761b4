import DatalogPolicy.Proofs.Formula.Order
import Std.Data.HashSet.Lemmas

/-!
# Orders, equality and hashes

The order, the equality and the hash of a type agree when items that compare as equal are
the equal ones and have the same hash. They do for everything that policies are made of.
An increasing list and a hashed set then keep the same items of a list, although one only
compares items and the other looks at hashes first.
-/

namespace DatalogPolicy

section Sets

variable {α : Type} [BEq α] [Hashable α] [Ord α] {kept : List α} {set : Std.HashSet α}

/-- An increasing list and a hashed set have the same items. -/
structure SameItems (kept : List α) (set : Std.HashSet α) : Prop where
  increasing : OrderedList.Increasing compare kept
  length_eq : kept.length = set.size
  mem_iff (x : α) : x ∈ set ↔ ∃ y ∈ kept, compare x y = .eq

theorem sameItems_nil : SameItems ([] : List α) ∅ where
  increasing := List.Pairwise.nil
  length_eq := Std.HashSet.size_empty.symm
  mem_iff x := by simp

variable [EquivBEq α] [LawfulHashable α] [Std.TransOrd α] [Std.LawfulBEqOrd α]

/-- The same items are there after one more is put in both. -/
theorem SameItems.put (h : SameItems kept set) (x : α) :
    SameItems (OrderedList.put compare x kept) (set.insert x) where
  increasing := OrderedList.increasing_put h.increasing
  length_eq := by
    rw [Std.HashSet.size_insert]
    split
    · next hx =>
        obtain ⟨y, hy, heq⟩ := (h.mem_iff x).1 hx
        exact (OrderedList.length_put_of_mem h.increasing hy heq).trans h.length_eq
    · next hx =>
        have hnew : ∀ y ∈ kept, compare x y ≠ .eq := fun y hy heq =>
          hx ((h.mem_iff x).2 ⟨y, hy, heq⟩)
        rw [OrderedList.length_put_of_new hnew, h.length_eq]
  mem_iff z := by
    rw [Std.HashSet.mem_insert, h.mem_iff z]
    constructor
    · rintro (hxz | ⟨y, hy, hzy⟩)
      · obtain ⟨w, hw, hxw⟩ : ∃ w ∈ OrderedList.put compare x kept, compare x w = .eq :=
          OrderedList.exists_mem_put x kept
        have hzx : compare z x = .eq :=
          Std.OrientedCmp.eq_symm (Std.LawfulBEqCmp.compare_eq_iff_beq.2 hxz)
        exact ⟨w, hw, Std.TransCmp.eq_trans hzx hxw⟩
      · exact OrderedList.exists_mem_put_of_mem hy hzy
    · rintro ⟨y, hy, hzy⟩
      rcases OrderedList.mem_of_mem_put hy with rfl | hkept
      · exact .inl (Std.LawfulBEqCmp.compare_eq_iff_beq.1 (Std.OrientedCmp.eq_symm hzy))
      · exact .inr ⟨y, hkept, hzy⟩

theorem SameItems.foldl_put (h : SameItems kept set) (xs : List α) :
    SameItems (xs.foldl (fun kept x => OrderedList.put compare x kept) kept)
      (set.insertMany xs) := by
  induction xs generalizing kept set with
  | nil => rwa [Std.HashSet.insertMany_nil]
  | cons x rest ih =>
      rw [Std.HashSet.insertMany_cons]
      exact ih (h.put x)

/-- A list collected in order and collected by hashes. -/
theorem sameItems_ofList (xs : List α) :
    SameItems (OrderedList.ofList compare xs) (Std.HashSet.ofList xs) := by
  rw [Std.HashSet.ofList_eq_insertMany_empty]
  exact sameItems_nil.foldl_put xs

end Sets

/-- The order of a type is lawful and agrees with its equality and its hashes. -/
structure ComparesLawfully (α : Type) [BEq α] [Hashable α] [Ord α] : Prop where
  compare_self (a : α) : compare a a = .eq
  compare_swap (a b : α) : compare b a = (compare a b).swap
  isLE_trans (a b c : α) : (compare a b).isLE → (compare b c).isLE → (compare a c).isLE
  compare_eq_iff (a b : α) : compare a b = .eq ↔ (a == b) = true
  equivalence : Equivalence fun a b : α => (a == b) = true
  hash_eq (a b : α) : (a == b) = true → hash a = hash b
  /-- An ordered set and a hashed set find equally many items. -/
  length_eq_size (xs : List α) :
    (OrderedList.ofList compare xs).length = (Std.HashSet.ofList xs).size

theorem comparesLawfully (α : Type) [BEq α] [Hashable α] [Ord α] [EquivBEq α] [LawfulHashable α]
    [Std.TransOrd α] [Std.LawfulBEqOrd α] : ComparesLawfully α where
  compare_self _ := Std.ReflOrd.compare_self
  compare_swap _ _ := Std.OrientedOrd.eq_swap
  isLE_trans _ _ _ := Std.TransOrd.isLE_trans
  compare_eq_iff _ _ := Std.LawfulBEqCmp.compare_eq_iff_beq
  equivalence := ⟨fun _ => BEq.rfl, BEq.symm, BEq.trans⟩
  hash_eq := LawfulHashable.hash_eq
  length_eq_size xs := (sameItems_ofList xs).length_eq

namespace Literal

instance : Std.TransOrd Literal := inferInstanceAs (Std.TransCmp (compareOn Literal.content))

/-- Literals are equal when they compare as equal. -/
theorem beq_iff_compare {a b : Literal} : (a == b) = true ↔ compare a b = .eq := by
  rw [beq_iff]
  exact (Std.LawfulEqOrd.compare_eq_iff_eq (α := Content)).symm

instance : Std.LawfulBEqOrd Literal where
  compare_eq_iff_beq := beq_iff_compare.symm

instance : LawfulHashable Literal where
  hash_eq _ _ h := congrArg (hash (α := Content)) (beq_iff.1 h)

end Literal

namespace Rule

instance : Std.LawfulBEqOrd Rule where
  compare_eq_iff_beq := beq_iff_compare.symm

instance : LawfulHashable Rule where
  hash_eq _ _ h := congrArg (hash (α := Content)) (beq_iff.1 h)

/-- Rules are equal when their heads say the same in any order, and their bodies do. -/
theorem beq_iff_sayAlike {a b : Rule} : (a == b) = true ↔
    Literal.SayAlike a.heads b.heads ∧ Literal.SayAlike a.body b.body := by
  constructor
  · intro h
    exact ⟨heads_sayAlike h, body_sayAlike h⟩
  · rintro ⟨hheads, hbody⟩
    rw [beq_iff, content, content, OrderedList.sort_eq_of_perm hheads,
      OrderedList.sort_eq_of_perm hbody]

end Rule

namespace Formula

/-- The literal that a formula is. -/
def literal? : Formula → Option Literal
  | .literal l => some l
  | .rule _ => none

/-- The rule that a formula is. -/
def rule? : Formula → Option Rule
  | .literal _ => none
  | .rule r => some r

/-- Formulas are compared by their rules, literals having none, and then by their literals. -/
theorem order_eq : order = compareLex (compareOn rule?) (compareOn literal?) := by
  funext f g
  cases f with
  | literal a =>
      cases g with
      | literal b => rfl
      | rule s => rfl
  | rule r =>
      cases g with
      | literal b => rfl
      | rule s => exact Ordering.then_eq.symm

instance : Std.TransOrd Formula := by
  show Std.TransCmp order
  rw [order_eq]
  infer_instance

instance : Std.LawfulBEqOrd Formula where
  compare_eq_iff_beq {f g} := by
    cases f with
    | literal a =>
        cases g with
        | literal b => exact Literal.beq_iff_compare.symm
        | rule s => exact iff_of_false Ordering.noConfusion Bool.false_ne_true
    | rule r =>
        cases g with
        | literal b => exact iff_of_false Ordering.noConfusion Bool.false_ne_true
        | rule s => exact Rule.beq_iff_compare.symm

instance : LawfulHashable Formula where
  hash_eq f g h := by
    cases f with
    | literal a =>
        cases g with
        | literal b => exact congrArg (mixHash 0) (LawfulHashable.hash_eq a b h)
        | rule s => exact absurd h Bool.false_ne_true
    | rule r =>
        cases g with
        | literal b => exact absurd h Bool.false_ne_true
        | rule s => exact congrArg (mixHash 1) (LawfulHashable.hash_eq r s h)

end Formula

namespace Fact

instance : Std.TransOrd Fact :=
  inferInstanceAs (Std.TransCmp (compareLex (compareOn table) (compareOn values)))

instance : Std.LawfulEqOrd Fact where
  eq_of_compare {a b} h := by
    change compareLex (compareOn table) (compareOn values) a b = .eq at h
    simp only [compareLex_eq_eq, compareOn, Std.LawfulEqOrd.compare_eq_iff_eq] at h
    obtain ⟨table, values⟩ := a
    rw [mk.injEq]
    exact h

end Fact

/-- What policies are made of is ordered by lawful orders that agree with equality and hashes, and
rules are equal when they have the same heads and the same body in any order. -/
theorem orders_lawful :
    ComparesLawfully Value ∧ ComparesLawfully Term ∧ ComparesLawfully TableName ∧
      ComparesLawfully Literal ∧ ComparesLawfully Rule ∧ ComparesLawfully Formula ∧
      ComparesLawfully Fact ∧
      ∀ a b : Rule, (a == b) = true ↔
        Literal.SayAlike a.heads b.heads ∧ Literal.SayAlike a.body b.body :=
  ⟨comparesLawfully Value, comparesLawfully Term, comparesLawfully TableName,
    comparesLawfully Literal, comparesLawfully Rule, comparesLawfully Formula,
    comparesLawfully Fact, fun _ _ => Rule.beq_iff_sayAlike⟩

end DatalogPolicy

import DatalogPolicy.Formula
import DatalogPolicy.Proofs.OrderedList
import Mathlib.Data.List.Perm.Basic
import Mathlib.Data.Sum.Basic

/-!
# Equal formulas

Literals are equal when they say the same, and rules when their heads and their
bodies say the same in any order. What is computed from the contents of literals
alone is therefore the same for equal rules, up to the order of the literals.
-/

namespace DatalogPolicy

theorem Literal.beq_iff {a b : Literal} : (a == b) = true ↔ a.content = b.content :=
  beq_iff_eq (a := a.content)

theorem Rule.beq_iff {a b : Rule} : (a == b) = true ↔ a.content = b.content :=
  beq_iff_eq (a := a.content)

instance : EquivBEq Literal where
  rfl := Literal.beq_iff.2 rfl
  symm h := Literal.beq_iff.2 (Literal.beq_iff.1 h).symm
  trans h k := Literal.beq_iff.2 ((Literal.beq_iff.1 h).trans (Literal.beq_iff.1 k))

instance : EquivBEq Rule where
  rfl := Rule.beq_iff.2 rfl
  symm h := Rule.beq_iff.2 (Rule.beq_iff.1 h).symm
  trans h k := Rule.beq_iff.2 ((Rule.beq_iff.1 h).trans (Rule.beq_iff.1 k))

/-- What a formula says. -/
def Formula.content : Formula → Literal.Content ⊕ Rule.Content
  | .literal l => .inl l.content
  | .rule r => .inr r.content

theorem Formula.beq_iff {f g : Formula} : (f == g) = true ↔ f.content = g.content := by
  cases f with
  | literal a =>
      cases g with
      | literal b => exact Literal.beq_iff.trans (Function.Injective.eq_iff Sum.inl_injective).symm
      | rule s => exact iff_of_false Bool.false_ne_true Sum.inl_ne_inr
  | rule r =>
      cases g with
      | literal b => exact iff_of_false Bool.false_ne_true Sum.inr_ne_inl
      | rule s => exact Rule.beq_iff.trans (Function.Injective.eq_iff Sum.inr_injective).symm

instance : EquivBEq Formula where
  rfl := Formula.beq_iff.2 rfl
  symm h := Formula.beq_iff.2 (Formula.beq_iff.1 h).symm
  trans h k := Formula.beq_iff.2 ((Formula.beq_iff.1 h).trans (Formula.beq_iff.1 k))

/-- Some literals say the same as others, in any order. -/
def Literal.SayAlike (xs ys : List Literal) : Prop :=
  (xs.map Literal.content).Perm (ys.map Literal.content)

/-- A function of literals that only looks at what they say. -/
def Literal.OfContent {β : Type _} (f : Literal → β) : Prop :=
  ∀ a b : Literal, a.content = b.content → f a = f b

namespace Literal.SayAlike

variable {β : Type _} {xs ys : List Literal}

theorem symm (h : SayAlike xs ys) : SayAlike ys xs := List.Perm.symm h

theorem length_eq (h : SayAlike xs ys) : xs.length = ys.length := by
  simpa only [List.length_map] using List.Perm.length_eq h

theorem exists_mem {l : Literal} (h : SayAlike xs ys) (hl : l ∈ xs) :
    ∃ m ∈ ys, m.content = l.content :=
  List.mem_map.1 (h.mem_iff.1 (List.mem_map_of_mem hl))

/-- Literals that say alike are the same, item by item, once they are put in the same order. -/
theorem exists_aligned (h : SayAlike xs ys) :
    ∃ zs, zs.Perm ys ∧ List.Forall₂ (fun a b => a.content = b.content) xs zs := by
  have hys : List.Forall₂ (fun c b => c = Literal.content b) (ys.map Literal.content) ys := by
    rw [List.forall₂_map_left_iff]
    exact List.forall₂_same.2 fun _ _ => rfl
  obtain ⟨zs, hzs, hperm⟩ := List.perm_comp_forall₂ h hys
  exact ⟨zs, hperm, List.forall₂_map_left_iff.1 hzs⟩

theorem filterMap_perm {f : Literal → Option β} (hf : OfContent f) (h : SayAlike xs ys) :
    (xs.filterMap f).Perm (ys.filterMap f) := by
  obtain ⟨zs, hperm, hzs⟩ := h.exists_aligned
  have heq : xs.filterMap f = zs.filterMap f := by
    clear h hperm
    induction hzs with
    | nil => rfl
    | cons hab _ ih => rw [List.filterMap_cons, List.filterMap_cons, hf _ _ hab, ih]
  exact heq ▸ hperm.filterMap f

/-- The selected literals give the same results. -/
theorem map_filter_perm {test : Literal → Bool} {f : Literal → β} (htest : OfContent test)
    (hf : OfContent f) (h : SayAlike xs ys) :
    ((xs.filter test).map f).Perm ((ys.filter test).map f) := by
  have hfilterMap (ls : List Literal) :
      (ls.filter test).map f = ls.filterMap fun l => if test l then some (f l) else none := by
    rw [← List.filterMap_eq_map, List.filterMap_filter]
    rfl
  rw [hfilterMap, hfilterMap]
  apply filterMap_perm _ h
  intro a b hab
  simp only [htest a b hab, hf a b hab]

theorem map_perm {f : Literal → β} (hf : OfContent f) (h : SayAlike xs ys) :
    (xs.map f).Perm (ys.map f) := by
  have hsome : OfContent fun l => some (f l) := fun a b hab => congrArg some (hf a b hab)
  simpa only [List.filterMap_eq_map'] using h.filterMap_perm hsome

/-- Equally many literals pass a test of what they say. -/
theorem countP_eq {test : Literal → Bool} (htest : OfContent test) (h : SayAlike xs ys) :
    xs.countP test = ys.countP test := by
  have hpassed := (h.map_perm htest).countP_eq id
  rwa [List.countP_map, List.countP_map] at hpassed

theorem any_eq {test : Literal → Bool} (htest : OfContent test) (h : SayAlike xs ys) :
    xs.any test = ys.any test := by
  have hpassed : (xs.map test).any id = (ys.map test).any id := (h.map_perm htest).any_eq
  rwa [List.any_map, List.any_map] at hpassed

theorem all_eq {test : Literal → Bool} (htest : OfContent test) (h : SayAlike xs ys) :
    xs.all test = ys.all test := by
  have hpassed : (xs.map test).all id = (ys.map test).all id := (h.map_perm htest).all_eq
  rwa [List.all_map, List.all_map] at hpassed

end Literal.SayAlike

namespace Rule

variable {a b : Rule}

theorem heads_sayAlike (h : (a == b) = true) : Literal.SayAlike a.heads b.heads := by
  have hsort : OrderedList.sort compare (a.heads.map Literal.content) =
      OrderedList.sort compare (b.heads.map Literal.content) :=
    congrArg Content.heads (Rule.beq_iff.1 h)
  exact (OrderedList.sort_perm compare _).symm.trans
    (hsort ▸ OrderedList.sort_perm compare (b.heads.map Literal.content))

theorem body_sayAlike (h : (a == b) = true) : Literal.SayAlike a.body b.body := by
  have hsort : OrderedList.sort compare (a.body.map Literal.content) =
      OrderedList.sort compare (b.body.map Literal.content) :=
    congrArg Content.body (Rule.beq_iff.1 h)
  exact (OrderedList.sort_perm compare _).symm.trans
    (hsort ▸ OrderedList.sort_perm compare (b.body.map Literal.content))

end Rule

namespace Literal.OfContent

theorem table : OfContent Literal.table := fun _ _ h => congrArg Content.table h

theorem negated : OfContent Literal.negated := fun _ _ h => congrArg Content.negated h

end Literal.OfContent

end DatalogPolicy

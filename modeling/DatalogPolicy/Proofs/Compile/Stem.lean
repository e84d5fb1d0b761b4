import DatalogPolicy.Compile.FreshName
import Mathlib.Data.List.Basic
import Mathlib.Order.Bounds.Basic

/-!
# The search for a stem

A stem grows by underscores until no name begins with it. No name begins with a stem that is
longer than all names, so the search ends. It ends with the shortest run of underscores that
will do, as every shorter one was met before and was found at the beginning of some name.
-/

namespace DatalogPolicy.FreshName

/-- A name begins with a run of underscores. -/
def BeginsWith (n : Nat) (name : String) : Prop := List.replicate n '_' <+: name.toList

/-- A run of the search for a stem, from a stem to the one with which the search ends. -/
inductive Run (names : List String) : String → String → Prop
  | done {stem} (h : ∀ x ∈ names, ¬ stem.toList <+: x.toList) : Run names stem stem
  | grow {stem result x} (hx : x ∈ names) (h : stem.toList <+: x.toList)
      (hrest : Run names (stem.push '_') result) : Run names stem result

section Search

variable {names : List String} {n : Nat} {result : String}

/-- The search ends from every stem. -/
theorem run_extend (names : List String) (stem : String) : Run names stem (extend names stem) := by
  induction stem using extend.induct names with
  | case1 stem h ih =>
      obtain ⟨x, hx, hprefix⟩ := List.any_eq_true.1 h
      rw [extend, dif_pos h]
      exact .grow hx (List.isPrefixOf_iff_prefix.1 hprefix) ih
  | case2 stem h =>
      rw [extend, dif_neg h]
      exact .done fun x hx hprefix =>
        h (List.any_eq_true.2 ⟨x, hx, List.isPrefixOf_iff_prefix.2 hprefix⟩)

/-- A run from some underscores ends with the least number of them, not less than there were, with
which no name begins. -/
theorem Run.exists_isLeast (h : Run names (String.ofList (List.replicate n '_')) result) :
    ∃ m, result = String.ofList (List.replicate m '_') ∧
      IsLeast {k | n ≤ k ∧ ∀ x ∈ names, ¬ BeginsWith k x} m := by
  generalize hstem : String.ofList (List.replicate n '_') = stem at h
  induction h generalizing n with
  | done h =>
      subst hstem
      rw [String.toList_ofList] at h
      exact ⟨n, rfl, ⟨Nat.le_refl n, h⟩, fun k hk => hk.1⟩
  | grow hx h _ ih =>
      subst hstem
      rw [String.toList_ofList] at h
      have hpush : String.ofList (List.replicate (n + 1) '_') =
          (String.ofList (List.replicate n '_')).push '_' := by
        rw [List.replicate_succ', String.ofList_append]
        rfl
      obtain ⟨m, hresult, ⟨hle, hfree⟩, hleast⟩ := ih hpush
      refine ⟨m, hresult, ⟨Nat.le_of_succ_le hle, hfree⟩, fun k ⟨hk, hkfree⟩ => ?_⟩
      -- the stem itself will not do, as a name begins with it
      have hne : n ≠ k := by
        rintro rfl
        exact hkfree _ hx h
      exact hleast ⟨Nat.lt_of_le_of_ne hk hne, hkfree⟩

/-- The stem is the shortest run of underscores, one at least, with which no name begins. -/
theorem exists_stem_isLeast (names : List String) :
    ∃ n, stem names = String.ofList (List.replicate n '_') ∧
      IsLeast {k | 0 < k ∧ ∀ x ∈ names, ¬ BeginsWith k x} n :=
  Run.exists_isLeast (n := 1) (run_extend names "_")

end Search

section Lengths

/-- The number of underscores with which a name begins. -/
def underscores (name : String) : Nat := (name.toList.takeWhile (· = '_')).length

theorem replicate_prefix_iff {n : Nat} {cs : List Char} :
    List.replicate n '_' <+: cs ↔ n ≤ (cs.takeWhile (· = '_')).length := by
  induction cs generalizing n with
  | nil => simp [List.prefix_nil, List.replicate_eq_nil_iff]
  | cons c cs ih =>
      cases n with
      | zero => simp
      | succ n =>
          rw [List.replicate_succ, List.cons_prefix_cons, ih]
          by_cases hc : c = '_'
          · simp [hc]
          · simp [hc, Ne.symm hc]

theorem beginsWith_iff {n : Nat} {name : String} : BeginsWith n name ↔ n ≤ underscores name :=
  replicate_prefix_iff

theorem foldl_max_lt {ns : List Nat} {m k : Nat} :
    ns.foldl max m < k ↔ m < k ∧ ∀ n ∈ ns, n < k := by
  induction ns generalizing m with
  | nil => simp
  | cons n ns ih => rw [List.foldl_cons, ih, Nat.max_lt, List.forall_mem_cons, and_assoc]

/-- The stem has one underscore more than any name has in front. -/
theorem stem_eq (names : List String) :
    stem names =
      String.ofList (List.replicate ((names.map underscores).foldl max 0 + 1) '_') := by
  obtain ⟨n, hstem, hleast⟩ := exists_stem_isLeast names
  have hlonger (k : Nat) : (0 < k ∧ ∀ x ∈ names, ¬ BeginsWith k x) ↔
      (names.map underscores).foldl max 0 + 1 ≤ k := by
    rw [Nat.add_one_le_iff, foldl_max_lt]
    simp only [List.forall_mem_map, beginsWith_iff, not_le]
  simp only [hlonger] at hleast
  rw [hstem, hleast.unique isLeast_Ici]

end Lengths

end DatalogPolicy.FreshName

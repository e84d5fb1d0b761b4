import DatalogPolicy.Builtin
import Mathlib.Data.List.Lex
import Mathlib.Data.List.Nodup
import Mathlib.Order.Bounds.Basic

/-!
# Safe orders

An order of a body is safe when the variables that a literal requires occur in
earlier literals. If one always takes the first position whose literal can be read,
one arrives at the lexicographically least safe order: literals that have been read
never make another one unreadable, so a position that is left out by a smaller order
could have been taken before.
-/

namespace DatalogPolicy

namespace Literal

/-- The literal has a variable among its arguments. -/
def Mentions (l : Literal) (x : String) : Prop := ∃ a ∈ l.arguments, a.item = .var x

/-- The literal can only be read once a variable is bound: any variable of a negated literal, and
the variables among the inputs of a builtin. -/
def Requires (l : Literal) (x : String) : Prop :=
  if l.negated then l.Mentions x
  else l.table.service = none ∧ l.table.modal = none ∧
    ∃ b, Builtins.standard[l.table.table]? = some b ∧ b.arity = l.arguments.length ∧
      ∃ a ∈ l.arguments.take b.inputs, a.item = .var x

end Literal

/-- The variables that a literal requires occur in earlier literals. -/
def IsSafeOrder (body : List Literal) : Prop :=
  ∀ earlier l later, body = earlier ++ l :: later →
    ∀ x, l.Requires x → ∃ m ∈ earlier, m.Mentions x

/-- The literals of a body at some positions. -/
def arrange (body : List Literal) (positions : List Nat) : List Literal :=
  positions.filterMap (body[·]?)

/-- Some positions are those of the body in a safe order. -/
def IsSafePermutation (body : List Literal) (positions : List Nat) : Prop :=
  positions.Perm (List.range body.length) ∧ IsSafeOrder (arrange body positions)

/-- The literal at a position can be read after those at some other positions. -/
def Readable (body : List Literal) (taken : List Nat) (k : Nat) : Prop :=
  ∀ l ∈ body[k]?, ∀ x, l.Requires x → ∃ m ∈ arrange body taken, m.Mentions x

/-- Each position is the first one whose literal can be read when its turn comes. -/
def IsGreedy (body : List Literal) (positions : List Nat) : Prop :=
  ∀ taken k rest, positions = taken ++ k :: rest →
    Readable body taken k ∧ ∀ j < k, j ∉ taken → ¬ Readable body taken j

section Orders

variable {body : List Literal} {p q taken : List Nat} {k : Nat}

theorem arrange_append (body : List Literal) (p q : List Nat) :
    arrange body (p ++ q) = arrange body p ++ arrange body q :=
  List.filterMap_append

theorem mem_arrange {l : Literal} : l ∈ arrange body p ↔ ∃ k ∈ p, body[k]? = some l :=
  List.mem_filterMap

theorem arrange_singleton {l : Literal} (h : body[k]? = some l) : arrange body [k] = [l] :=
  List.filterMap_cons_some h

/-- What can be read can still be read when more has been taken. -/
theorem Readable.mono (h : Readable body p k) (hpq : p ⊆ q) : Readable body q k := by
  intro l hl x hx
  obtain ⟨m, hm, hmentions⟩ := h l hl x hx
  obtain ⟨j, hj, hjm⟩ := mem_arrange.1 hm
  exact ⟨m, mem_arrange.2 ⟨j, hpq hj, hjm⟩, hmentions⟩

theorem IsSafeOrder.readable {rest : List Nat}
    (h : IsSafeOrder (arrange body (taken ++ k :: rest))) : Readable body taken k := by
  intro l hl
  apply h (arrange body taken) l (arrange body rest)
  rw [arrange_append, ← List.singleton_append, arrange_append, arrange_singleton hl,
    List.singleton_append]

/-- An order is safe if every position can be read when its turn comes. -/
theorem isSafeOrder_of_readable
    (h : ∀ taken k rest, p = taken ++ k :: rest → Readable body taken k) :
    IsSafeOrder (arrange body p) := by
  intro earlier l later heq
  obtain ⟨a, b, rfl, rfl, hb⟩ := List.filterMap_eq_append_iff.1 heq
  obtain ⟨skipped, k, rest, rfl, hskipped, hk, rfl⟩ := List.filterMap_eq_cons_iff.1 hb
  have hread := h (a ++ skipped) k rest (by rw [List.append_assoc]) l hk
  have hnone : arrange body skipped = [] := List.filterMap_eq_nil_iff.2 hskipped
  rwa [arrange_append, hnone, List.append_nil] at hread

theorem IsGreedy.isSafeOrder (h : IsGreedy body p) : IsSafeOrder (arrange body p) :=
  isSafeOrder_of_readable fun taken k rest heq => (h taken k rest heq).1

theorem isGreedy_nil : IsGreedy body [] := by
  intro taken k rest h
  exact absurd h (by simp)

/-- The first position that can be read may be appended. -/
theorem IsGreedy.concat (h : IsGreedy body p) (hk : Readable body p k)
    (hfirst : ∀ j < k, j ∉ p → ¬ Readable body p j) : IsGreedy body (p ++ [k]) := by
  intro taken k' rest heq
  rcases List.eq_nil_or_concat rest with rfl | ⟨rest', z, rfl⟩
  · obtain ⟨rfl, hkk⟩ := List.append_inj' heq rfl
    cases hkk
    exact ⟨hk, hfirst⟩
  · rw [List.concat_eq_append, ← List.cons_append, ← List.append_assoc] at heq
    exact h taken k' rest' (List.append_inj' heq rfl).1

/-- No safe order is smaller than the greedy one. -/
theorem IsGreedy.le (hp : IsGreedy body p) (hq : IsSafePermutation body q)
    (hperm : p.Perm (List.range body.length)) : p ≤ q := by
  have hlength : p.length = q.length := by rw [hperm.length_eq, hq.1.length_eq]
  have hnodup : q.Nodup := hq.1.nodup_iff.2 List.nodup_range
  -- the orders agree on what they have taken so far
  have hrest (p' q' taken : List Nat) (hpt : p = taken ++ p') (hqt : q = taken ++ q') :
      p' < q' ∨ p' = q' := by
    induction p' generalizing q' taken with
    | nil =>
        right
        rw [hpt, hqt, List.length_append, List.length_append] at hlength
        exact (List.length_eq_zero_iff.1 (by simpa using hlength)).symm
    | cons a p' ih =>
        cases q' with
        | nil =>
            rw [hpt, hqt, List.length_append, List.length_append, List.length_cons] at hlength
            simp at hlength
        | cons b q' =>
            rcases Nat.lt_trichotomy a b with hab | rfl | hba
            · exact .inl (List.Lex.rel hab)
            · have htail := ih q' (taken ++ [a]) (by rw [hpt, List.append_assoc]; rfl)
                (by rw [hqt, List.append_assoc]; rfl)
              exact htail.imp List.Lex.cons fun heq => by rw [heq]
            · rw [hqt] at hnodup
              have hb : b ∉ taken := fun hmem =>
                (List.nodup_append.1 hnodup).2.2 b hmem b List.mem_cons_self rfl
              have hread : Readable body taken b := IsSafeOrder.readable (hqt ▸ hq.2)
              exact absurd hread ((hp taken a p' hpt).2 b hba hb)
  exact le_iff_lt_or_eq.2 (hrest p q [] rfl rfl)

theorem IsGreedy.isLeast (hp : IsGreedy body p) (hperm : p.Perm (List.range body.length)) :
    IsLeast {q | IsSafePermutation body q} p :=
  ⟨⟨hperm, hp.isSafeOrder⟩, fun _ hq => hp.le hq hperm⟩

theorem arrange_range (body : List Literal) : arrange body (List.range body.length) = body := by
  induction body with
  | nil => rfl
  | cons l rest ih =>
      have hfirst (p : List Nat) : arrange (l :: rest) (0 :: p) = l :: arrange (l :: rest) p := rfl
      rw [List.length_cons, List.range_succ_eq_map, hfirst, arrange, List.filterMap_map]
      exact congrArg (l :: ·) ih

theorem arrange_perm (h : p.Perm (List.range body.length)) : (arrange body p).Perm body := by
  have hperm := h.filterMap (body[·]?)
  rwa [show (List.range body.length).filterMap (body[·]?) = body from arrange_range body] at hperm

/-- A safe body is in its least safe order. -/
theorem IsSafeOrder.isLeast (h : IsSafeOrder body) :
    IsLeast {q | IsSafePermutation body q} (List.range body.length) := by
  have hgreedy : IsGreedy body (List.range body.length) := by
    intro taken k rest heq
    constructor
    · rw [← arrange_range body, heq] at h
      exact h.readable
    · intro j hj hnew
      have hsorted : (taken ++ k :: rest).Pairwise (· < ·) := heq ▸ List.pairwise_lt_range
      have hk : k ∈ List.range body.length := heq ▸ List.mem_append_right _ List.mem_cons_self
      have hmem : j ∈ taken ++ k :: rest :=
        heq ▸ List.mem_range.2 (hj.trans (List.mem_range.1 hk))
      have hlater : j ∈ rest :=
        (List.mem_cons.1 ((List.mem_append.1 hmem).resolve_left hnew)).resolve_left hj.ne
      have hkj : k < j :=
        List.rel_of_pairwise_cons (List.pairwise_append.1 hsorted).2.1 hlater
      omega
  exact hgreedy.isLeast (List.Perm.refl _)

/-- As long as a safe order has a position that is left, one of those that are left can be read. -/
theorem IsSafeOrder.exists_readable (h : IsSafeOrder (arrange body q)) (hkq : k ∈ q)
    (hleft : k ∉ p) : ∃ j ∈ q, j ∉ p ∧ Readable body p j := by
  -- the first position of the safe order that is left
  have hsome : (q.find? (· ∉ p)).isSome = true :=
    List.find?_isSome.2 ⟨k, hkq, decide_eq_true hleft⟩
  obtain ⟨j, hj⟩ := Option.isSome_iff_exists.1 hsome
  obtain ⟨hjp, taken, rest, rfl, htaken⟩ := List.find?_eq_some_iff_append.1 hj
  have hsub : taken ⊆ p := fun m hm => by simpa using htaken m hm
  exact ⟨j, by simp, of_decide_eq_true hjp, h.readable.mono hsub⟩

/-- As long as a position is left, some position that is left can be read, if there is any safe
order at all. -/
theorem IsSafePermutation.exists_readable (h : IsSafePermutation body q)
    (hk : k < body.length) (hleft : k ∉ p) :
    ∃ j < body.length, j ∉ p ∧ Readable body p j := by
  obtain ⟨j, hj, hjp, hread⟩ := h.2.exists_readable (h.1.mem_iff.2 (List.mem_range.2 hk)) hleft
  exact ⟨j, List.mem_range.1 (h.1.mem_iff.1 hj), hjp, hread⟩

end Orders

end DatalogPolicy

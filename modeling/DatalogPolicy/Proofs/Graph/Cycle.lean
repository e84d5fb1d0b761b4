import DatalogPolicy.Proofs.Graph.Operations
import DatalogPolicy.Proofs.Graph.Reach
import Mathlib.Data.Fintype.EquivFin
import Mathlib.Order.WellFounded

/-!
# Searches and cycles

A search returns its roots and the nodes that a path joins to them. A graph has a cycle if
pruning does not take all of its edges away: the edges of a cycle are kept in every round,
and where a round takes nothing away, every edge is followed by another one, so that some
node comes back.
-/

namespace DatalogPolicy.CountedGraph

section Pruning

variable {edges : List Edge} {e : Edge}

theorem mem_pruneEdges : e ∈ pruneEdges edges ↔ e ∈ edges ∧ ∃ e' ∈ edges, e'.src = e.dst := by
  rw [pruneEdges, List.mem_filter, ← Std.ExtTreeSet.mem_iff_contains, Std.ExtTreeSet.mem_ofList,
    List.contains_iff_mem, List.mem_map]

/-- Pruning takes some edge away, unless every edge is followed by one. -/
theorem length_pruneEdges_lt (h : pruneEdges edges ≠ edges) :
    (pruneEdges edges).length < edges.length := by
  have hsublist : (pruneEdges edges).Sublist edges := List.filter_sublist
  exact Nat.lt_of_le_of_ne hsublist.length_le fun heq => h (hsublist.eq_of_length heq)

/-- As many rounds as there are edges leave nothing to be pruned. -/
theorem pruneEdges_repeat (k : Nat) (h : edges.length ≤ k ∨ pruneEdges edges = edges) :
    pruneEdges (Nat.repeat pruneEdges k edges) = Nat.repeat pruneEdges k edges := by
  induction k generalizing edges with
  | zero =>
      rcases h with hlength | hfixed
      · rw [List.eq_nil_of_length_eq_zero (Nat.le_zero.1 hlength)]
        rfl
      · exact hfixed
  | succ k ih =>
      rw [repeat_succ_front]
      apply ih
      by_cases hfixed : pruneEdges edges = edges
      · exact .inr (by rw [hfixed, hfixed])
      · have hlt := length_pruneEdges_lt hfixed
        have hle := h.resolve_right hfixed
        exact .inl (by omega)

theorem repeat_pruneEdges_subset (k : Nat) : Nat.repeat pruneEdges k edges ⊆ edges := by
  induction k with
  | zero => exact List.Subset.refl edges
  | succ k ih => exact fun e he => ih (mem_pruneEdges.1 he).1

/-- An edge from whose end a path leads back to its source. -/
def Returns (edges : List Edge) (e : Edge) : Prop :=
  e ∈ edges ∧ Relation.ReflTransGen (Along .forward edges) e.dst e.src

theorem Returns.exists_next (h : Returns edges e) : ∃ e', Returns edges e' ∧ e'.src = e.dst := by
  obtain ⟨he, hpath⟩ := h
  rcases hpath.cases_head with heq | ⟨n, ⟨next, hnext, hsource, rfl⟩, hrest⟩
  · exact ⟨e, ⟨he, heq ▸ .refl⟩, heq.symm⟩
  · exact ⟨next, ⟨hnext, hrest.tail ⟨e, he, rfl, hsource.symm⟩⟩, hsource⟩

/-- The edges of cycles are never pruned. -/
theorem Returns.mem_repeat (h : Returns edges e) (k : Nat) :
    e ∈ Nat.repeat pruneEdges k edges := by
  induction k generalizing e with
  | zero => exact h.1
  | succ k ih =>
      obtain ⟨next, hnext, hsource⟩ := h.exists_next
      exact mem_pruneEdges.2 ⟨ih h, next, ih hnext, hsource⟩

/-- If every edge is followed by one and there are any, some node comes back. -/
theorem exists_cycle_of_pruneEdges_eq (hfixed : pruneEdges edges = edges) (hne : edges ≠ []) :
    ∃ n, Relation.TransGen (Along .forward edges) n n := by
  by_contra hnone
  -- without a cycle, paths backwards between the finitely many sources are well-founded
  let Below (m n : {n // n ∈ edges.map (·.src)}) : Prop :=
    Relation.TransGen (Along .forward edges) n.1 m.1
  have htrans : IsTrans _ Below := ⟨fun _ _ _ hab hbc => hbc.trans hab⟩
  have hirrefl : Std.Irrefl Below := ⟨fun n hn => hnone ⟨n.1, hn⟩⟩
  have hfounded : WellFounded Below := Finite.wellFounded_of_trans_of_irrefl Below
  obtain ⟨first, hfirst⟩ := List.exists_mem_of_ne_nil edges hne
  obtain ⟨last, -, hlast⟩ :=
    hfounded.has_min Set.univ ⟨⟨first.src, List.mem_map_of_mem hfirst⟩, trivial⟩
  obtain ⟨e, he, hsource⟩ := List.mem_map.1 last.2
  obtain ⟨-, next, hnext, hfollows⟩ := mem_pruneEdges.1 (hfixed.symm ▸ he)
  exact hlast ⟨next.src, List.mem_map_of_mem hnext⟩ trivial
    (.single ⟨e, he, hsource, hfollows.symm⟩)

end Pruning

section Cycles

variable {g : CountedGraph}

/-- There is a cycle exactly if some node leads back to itself along one edge or more. -/
theorem hasCycle_iff : g.hasCycle = true ↔ ∃ n, Relation.TransGen g.Links n n := by
  rw [hasCycle, rounds_eq_repeat, Bool.not_eq_true', List.isEmpty_eq_false_iff, ← along_forward]
  constructor
  · intro hne
    obtain ⟨n, hcycle⟩ :=
      exists_cycle_of_pruneEdges_eq (pruneEdges_repeat _ (.inl (Nat.le_refl _))) hne
    refine ⟨n, Relation.TransGen.mono ?_ n n hcycle⟩
    rintro a b ⟨e, he, hends⟩
    exact ⟨e, repeat_pruneEdges_subset _ he, hends⟩
  · rintro ⟨n, hcycle⟩
    obtain ⟨m, ⟨e, he, rfl, rfl⟩, hback⟩ := Relation.TransGen.head'_iff.1 hcycle
    exact List.ne_nil_of_mem (Returns.mem_repeat ⟨he, hback⟩ _)

end Cycles

section Closures

/-- What paths lead to from some roots are the roots, by the empty path, and the ends of the other
paths. -/
theorem exists_reflTransGen_iff {r : String → String → Prop} {roots : List String} {n : String} :
    (∃ root ∈ roots, Relation.ReflTransGen r root n) ↔
      n ∈ roots ∨ ∃ root ∈ roots, Relation.TransGen r root n := by
  simp only [Relation.reflTransGen_iff_eq_or_transGen]
  constructor
  · rintro ⟨root, hroot, rfl | hpath⟩
    · exact .inl hroot
    · exact .inr ⟨root, hroot, hpath⟩
  · rintro (hroot | ⟨root, hroot, hpath⟩)
    · exact ⟨n, hroot, .inl rfl⟩
    · exact ⟨root, hroot, .inr hpath⟩

variable {g : CountedGraph} {roots : List String} {a b n : String}

/-- A search finds its roots and what leads on from them. -/
theorem mem_reachable_iff : n ∈ g.reachable roots ↔
    n ∈ roots ∨ ∃ root ∈ roots, Relation.TransGen g.Links root n := by
  rw [mem_reachable, exists_reflTransGen_iff]

/-- A search backwards finds its roots and what leads to them. -/
theorem mem_dependent_iff : n ∈ g.dependent roots ↔
    n ∈ roots ∨ ∃ root ∈ roots, Relation.TransGen g.Links n root := by
  have hback : (∃ root ∈ roots, Relation.ReflTransGen (Function.swap g.Links) root n) ↔
      n ∈ roots ∨ ∃ root ∈ roots, Relation.TransGen (Function.swap g.Links) root n :=
    exists_reflTransGen_iff
  simp only [Relation.reflTransGen_swap, Relation.transGen_swap] at hback
  rw [mem_dependent, hback]

/-- Both ends of a path are nodes. -/
theorem Closed.ends_mem_nodes (h : g.Closed) (hpath : Relation.TransGen g.Links a b) :
    a ∈ g.nodes ∧ b ∈ g.nodes := by
  obtain ⟨-, ⟨first, hfirst, rfl, -⟩, -⟩ := Relation.TransGen.head'_iff.1 hpath
  obtain ⟨-, -, ⟨last, hlast, -, rfl⟩⟩ := Relation.TransGen.tail'_iff.1 hpath
  exact ⟨(h first hfirst).1, (h last hlast).2⟩

theorem mem_reachable_comm : b ∈ g.reachable [a] ↔ a ∈ g.dependent [b] := by
  simp only [mem_reachable, mem_dependent, List.mem_singleton, exists_eq_left]

end Closures

/-- Whatever operations have made a graph, searches find their roots and the nodes that a path of
one edge or more joins to them, forwards and backwards alike, and there is a cycle if such a path
joins a node to itself. -/
theorem searches_ofOperations (operations : List Operation) (roots : List String) :
    let g := ofOperations operations
    (∀ n, n ∈ g.reachable roots ↔
      n ∈ roots ∨ n ∈ g.nodes ∧ ∃ root ∈ roots, Relation.TransGen g.Links root n) ∧
    (∀ n, n ∈ g.dependent roots ↔
      n ∈ roots ∨ n ∈ g.nodes ∧ ∃ root ∈ roots, Relation.TransGen g.Links n root) ∧
    (∀ a b, b ∈ g.reachable [a] ↔ a ∈ g.dependent [b]) ∧
    (g.hasCycle = true ↔ ∃ n ∈ g.nodes, Relation.TransGen g.Links n n) := by
  intro g
  have hclosed : g.Closed := closed_ofOperations operations
  refine ⟨fun n => ?_, fun n => ?_, fun a b => mem_reachable_comm, ?_⟩
  · rw [mem_reachable_iff, and_iff_right_of_imp]
    rintro ⟨root, -, hpath⟩
    exact (hclosed.ends_mem_nodes hpath).2
  · rw [mem_dependent_iff, and_iff_right_of_imp]
    rintro ⟨root, -, hpath⟩
    exact (hclosed.ends_mem_nodes hpath).1
  · rw [hasCycle_iff]
    exact exists_congr fun n => (and_iff_right_of_imp fun h => (hclosed.ends_mem_nodes h).1).symm

end DatalogPolicy.CountedGraph

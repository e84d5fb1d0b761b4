import DatalogPolicy.Graph.Basic
import DatalogPolicy.Proofs.Graph.Counts

/-!
# Graphs built by operations

Whatever operations are performed on an empty graph, both ends of every edge are
nodes. While a removal is under way this fails only for edges that are about to be
removed.
-/

namespace DatalogPolicy.CountedGraph

/-- The ways in which a graph is changed. -/
inductive Operation
  | addNode (node : String)
  | addEdge (edge : Edge)
  | deleteNode (node : String)
  | deleteEdge (edge : Edge)
  | removeNode (node : String)
deriving DecidableEq, Repr

/-- Performs an operation. -/
def perform (g : CountedGraph) : Operation → CountedGraph
  | .addNode n => g.addNode n
  | .addEdge e => g.addEdge e
  | .deleteNode n => g.deleteNode n
  | .deleteEdge e => g.deleteEdge e
  | .removeNode n => g.removeNode n

/-- The graph after some operations on an empty one. -/
def ofOperations (operations : List Operation) : CountedGraph := operations.foldl perform {}

/-- Both ends of an edge are nodes. -/
def Attached (g : CountedGraph) (e : Edge) : Prop := e.src ∈ g.nodes ∧ e.dst ∈ g.nodes

/-- Both ends of every edge are nodes. -/
def Closed (g : CountedGraph) : Prop := ∀ e ∈ g.edges, g.Attached e

/-- Both ends of every edge are nodes, unless the edge is about to be removed. -/
def ClosedBut (g : CountedGraph) (tasks : List Release) : Prop :=
  ∀ e ∈ g.edges, g.Attached e ∨ e ∈ tasks.map Release.edge

variable {g : CountedGraph} {n : String}

theorem containsNode_iff : g.containsNode n = true ↔ n ∈ g.nodes :=
  Std.ExtTreeMap.mem_iff_contains.symm

theorem mem_incident {e : Edge} (he : e ∈ g.edges) (h : e.src = n ∨ e.dst = n) :
    e ∈ (g.incident n).map Release.edge := by
  obtain ⟨k, hk⟩ : ∃ k, (e, k) ∈ g.edges.toList := by
    rw [← Std.ExtTreeMap.mem_keys, ← Std.ExtTreeMap.map_fst_toList_eq_keys, List.mem_map] at he
    obtain ⟨⟨e', k⟩, hk, rfl⟩ := he
    exact ⟨k, hk⟩
  rw [List.mem_map]
  by_cases hsrc : e.src = n
  · refine ⟨⟨e, e.dst, k⟩, List.mem_filterMap.2 ⟨(e, k), hk, ?_⟩, rfl⟩
    simp only [if_pos hsrc]
  · refine ⟨⟨e, e.src, k⟩, List.mem_filterMap.2 ⟨(e, k), hk, ?_⟩, rfl⟩
    simp only [if_neg hsrc, if_pos (h.resolve_left hsrc)]

theorem Attached.mono {g' : CountedGraph} {e : Edge} (h : g.Attached e)
    (hn : ∀ n ∈ g.nodes, n ∈ g'.nodes) : g'.Attached e :=
  ⟨hn _ h.1, hn _ h.2⟩

/-- An edge that a vanishing node leaves without an end is among those that vanish with it. -/
theorem Attached.erase {e : Edge} (h : g.Attached e) {edges : Counts Edge} (he : e ∈ edges) :
    Attached { nodes := g.nodes.erase n, edges } e ∨
      e ∈ (incident { nodes := g.nodes.erase n, edges } n).map Release.edge := by
  by_cases hn : e.src = n ∨ e.dst = n
  · exact .inr (mem_incident he hn)
  · obtain ⟨hsrc, hdst⟩ := not_or.1 hn
    have hkeep (m : String) (hm : m ∈ g.nodes) (hmn : m ≠ n) : m ∈ g.nodes.erase n := by
      rw [Std.ExtTreeMap.mem_erase, ne_eq, Std.LawfulEqOrd.compare_eq_iff_eq]
      exact ⟨Ne.symm hmn, hm⟩
    exact .inl ⟨hkeep _ h.1 hsrc, hkeep _ h.2 hdst⟩

theorem mem_of_mem_erase {edges : Counts Edge} {e e' : Edge} (h : e ∈ edges.erase e') :
    e ∈ edges ∧ e ≠ e' := by
  rw [Std.ExtTreeMap.mem_erase, ne_eq, Std.LawfulEqOrd.compare_eq_iff_eq] at h
  exact ⟨h.2, fun heq => h.1 heq.symm⟩

/-- Removing the edge of a task leaves those of the other tasks. -/
theorem ClosedBut.erase {task : Release} {rest : List Release} (h : g.ClosedBut (task :: rest)) :
    ClosedBut { g with edges := g.edges.erase task.edge } rest := by
  intro e he
  obtain ⟨hmem, hne⟩ := mem_of_mem_erase he
  rcases h e hmem with hattached | htask
  · exact .inl hattached
  · exact .inr ((List.mem_cons.1 htask).resolve_left hne)

/-- Removing a node adds its edges to the tasks. -/
theorem ClosedBut.eraseNode {tasks : List Release} (h : g.ClosedBut tasks) :
    ClosedBut { g with nodes := g.nodes.erase n }
      (incident { g with nodes := g.nodes.erase n } n ++ tasks) := by
  intro e he
  rw [List.map_append, List.mem_append]
  rcases h e he with hattached | htask
  · exact (hattached.erase he).imp_right .inl
  · exact .inr (.inr htask)

theorem mem_addNode {m : String} : m ∈ (g.addNode n).nodes ↔ m = n ∨ m ∈ g.nodes := by
  rw [addNode, Counts.add, if_neg Nat.one_ne_zero, Std.ExtTreeMap.mem_insert,
    Std.LawfulEqOrd.compare_eq_iff_eq, eq_comm]

theorem mem_remove {c : Counts String} {m : String} {k : Nat} (h : k < c.count n) (hm : m ∈ c) :
    m ∈ c.remove n k := by
  rw [Counts.remove, if_neg (by omega)]
  exact Std.ExtTreeMap.mem_insert.2 (.inr hm)

/-- A removal ends with both ends of every edge in place. -/
theorem ClosedBut.release {tasks : List Release} (h : g.ClosedBut tasks) :
    (g.release tasks).Closed := by
  fun_induction CountedGraph.release g tasks with
  | case1 g =>
      intro e he
      exact (h e he).resolve_right List.not_mem_nil
  | case2 g task rest edges hmem hlast smaller ih =>
      exact ih (ClosedBut.eraseNode h.erase)
  | case3 g task rest edges hmem hmore ih =>
      apply ih
      intro e he
      have hrest := h.erase e he
      exact hrest.imp_left fun hattached =>
        hattached.mono fun m hm => mem_remove (Nat.lt_of_not_le hmore) hm
  | case4 g task rest edges hmem ih => exact ih h.erase

namespace Closed

variable (h : g.Closed)

include h

theorem addNode (n : String) : (g.addNode n).Closed := fun e he =>
  (h e he).mono fun _ hm => mem_addNode.2 (.inr hm)

theorem addEdge (e : Edge) : (g.addEdge e).Closed := by
  have hends : ((g.addNode e.src).addNode e.dst).Closed := (h.addNode e.src).addNode e.dst
  intro e' he'
  rw [CountedGraph.addEdge, Counts.add, if_neg Nat.one_ne_zero] at he'
  rcases Std.ExtTreeMap.mem_insert.1 he' with heq | hold
  · rw [Std.LawfulEqOrd.compare_eq_iff_eq] at heq
    subst heq
    exact ⟨mem_addNode.2 (.inr (mem_addNode.2 (.inl rfl))), mem_addNode.2 (.inl rfl)⟩
  · exact hends e' hold

theorem removeNode (n : String) : (g.removeNode n).Closed := by
  have hnone : g.ClosedBut [] := fun e he => .inl (h e he)
  have htasks := hnone.eraseNode (n := n)
  rw [List.append_nil] at htasks
  exact htasks.release

theorem deleteNode (n : String) : (g.deleteNode n).Closed := by
  unfold CountedGraph.deleteNode
  split
  · split
    · exact h.removeNode n
    · next hmore =>
        intro e he
        exact (h e he).mono fun m hm => mem_remove (Nat.lt_of_not_le hmore) hm
  · exact h

theorem deleteEdge (e : Edge) : (g.deleteEdge e).Closed := by
  unfold CountedGraph.deleteEdge
  split
  · have hless : Closed { g with edges := g.edges.remove e 1 } := by
      intro e' he'
      apply h e'
      rw [Counts.remove] at he'
      split at he'
      · exact (mem_of_mem_erase he').1
      · next hmore =>
          rcases Std.ExtTreeMap.mem_insert.1 he' with heq | hold
          · rw [Std.LawfulEqOrd.compare_eq_iff_eq] at heq
            exact heq ▸ Counts.mem_of_count_pos (by omega)
          · exact hold
    exact (hless.deleteNode e.src).deleteNode e.dst
  · exact h

theorem perform (op : Operation) : (g.perform op).Closed := by
  cases op with
  | addNode n => exact h.addNode n
  | addEdge e => exact h.addEdge e
  | deleteNode n => exact h.deleteNode n
  | deleteEdge e => exact h.deleteEdge e
  | removeNode n => exact h.removeNode n

end Closed

/-- Whatever operations are performed, both ends of every edge are nodes. -/
theorem closed_ofOperations (operations : List Operation) : (ofOperations operations).Closed := by
  have hrun (g : CountedGraph) (h : g.Closed) : (operations.foldl perform g).Closed := by
    induction operations generalizing g with
    | nil => exact h
    | cons op rest ih => exact ih _ (h.perform op)
  exact hrun {} fun e he => absurd he Std.ExtTreeMap.not_mem_empty

end DatalogPolicy.CountedGraph

import DatalogPolicy.Proofs.Graph.Operations

/-!
# What deletions do to counts

A deletion counts no edge more often than before, and the edge that it names less often.
Neither it nor an insertion leaves a node or an edge that is not counted.
-/

namespace DatalogPolicy.CountedGraph

variable {g : CountedGraph} {n : String} {e e' : Edge}

section Edges

/-- A removal keeps the counts of the edges that it does not remove. -/
theorem edgeCount_release (tasks : List Release) :
    (g.release tasks).edgeCount e ≤ g.edgeCount e := by
  have herase (edges : Counts Edge) (e' : Edge) :
      Counts.count (edges.erase e') e ≤ edges.count e := by
    rw [Counts.count_erase]
    split
    · exact Nat.zero_le _
    · exact Nat.le_refl _
  fun_induction CountedGraph.release g tasks with
  | case1 g => exact Nat.le_refl _
  | case2 g task rest edges hmem hlast smaller ih => exact ih.trans (herase g.edges task.edge)
  | case3 g task rest edges hmem hmore ih => exact ih.trans (herase g.edges task.edge)
  | case4 g task rest edges hmem ih => exact ih.trans (herase g.edges task.edge)

theorem edgeCount_removeNode : (g.removeNode n).edgeCount e ≤ g.edgeCount e :=
  edgeCount_release _

theorem edgeCount_deleteNode : (g.deleteNode n).edgeCount e ≤ g.edgeCount e := by
  unfold deleteNode
  split
  · split
    · exact edgeCount_removeNode
    · exact Nat.le_refl _
  · exact Nat.le_refl _

theorem edgeCount_deleteEdge :
    (g.deleteEdge e').edgeCount e ≤ g.edgeCount e - if e' = e then 1 else 0 := by
  unfold deleteEdge
  split
  · have hless : (CountedGraph.mk g.nodes (g.edges.remove e' 1)).edgeCount e =
        g.edgeCount e - if e' = e then 1 else 0 := Counts.count_remove g.edges e' e 1
    rw [← hless]
    exact edgeCount_deleteNode.trans edgeCount_deleteNode
  · next hunknown =>
      split
      · next heq =>
          have hzero : g.edgeCount e = 0 := by
            apply Counts.count_eq_zero_of_not_mem
            rwa [← heq, Std.ExtTreeMap.mem_iff_contains]
          rw [hzero]
      · exact Nat.le_refl _

end Edges

/-- No node and no edge is there without being counted. -/
structure Counted (g : CountedGraph) : Prop where
  nodes : g.nodes.Positive
  edges : g.edges.Positive

namespace Counted

theorem empty : Counted {} := ⟨Counts.positive_empty, Counts.positive_empty⟩

theorem release {tasks : List Release} (h : g.Counted) : (g.release tasks).Counted := by
  fun_induction CountedGraph.release g tasks with
  | case1 g => exact h
  | case2 g task rest edges hmem hlast smaller ih => exact ih ⟨h.nodes.erase, h.edges.erase⟩
  | case3 g task rest edges hmem hmore ih => exact ih ⟨h.nodes.remove _, h.edges.erase⟩
  | case4 g task rest edges hmem ih => exact ih ⟨h.nodes, h.edges.erase⟩

variable (h : g.Counted)

include h

theorem addNode (n : String) : (g.addNode n).Counted := ⟨h.nodes.add 1, h.edges⟩

theorem addEdge (e : Edge) : (g.addEdge e).Counted :=
  ⟨((h.addNode e.src).addNode e.dst).nodes, h.edges.add 1⟩

theorem removeNode (n : String) : (g.removeNode n).Counted :=
  release ⟨h.nodes.erase, h.edges⟩

theorem deleteNode (n : String) : (g.deleteNode n).Counted := by
  unfold CountedGraph.deleteNode
  split
  · split
    · exact h.removeNode n
    · exact ⟨h.nodes.remove 1, h.edges⟩
  · exact h

theorem deleteEdge (e : Edge) : (g.deleteEdge e).Counted := by
  unfold CountedGraph.deleteEdge
  split
  · have hless : Counted { g with edges := g.edges.remove e 1 } := ⟨h.nodes, h.edges.remove 1⟩
    exact (hless.deleteNode e.src).deleteNode e.dst
  · exact h

end Counted

end DatalogPolicy.CountedGraph

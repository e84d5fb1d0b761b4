import DatalogPolicy.Proofs.Dependency.Stratification
import DatalogPolicy.Proofs.Graph.Deletion

/-!
# What changes preserve

Whatever changes are applied to a dependency graph, both ends of every edge are nodes and
everything that is there is counted. The changes of a deletion count the edges of the
formula less often and no edge more often.
-/

namespace DatalogPolicy

/-- The tables under modals that a change inserts or deletes are counted. -/
def GraphChange.Counted : GraphChange → Prop
  | .modals _ m => m.counts.Positive
  | _ => True

namespace DependencyGraph

/-- Both ends of every edge are nodes, and everything that is there is counted. -/
structure WellFormed (d : DependencyGraph) : Prop where
  closed : d.graph.Closed
  counted : d.graph.Counted
  modals : d.modals.counts.Positive

namespace WellFormed

variable {d : DependencyGraph} {change : GraphChange} {log : List GraphChange}

theorem empty (headToBody : Bool) : WellFormed { headToBody } where
  closed _ h := absurd h Std.ExtTreeMap.not_mem_empty
  counted := .empty
  modals := Counts.positive_empty

theorem apply (h : d.WellFormed) (hchange : change.Counted) : (d.apply change).WellFormed := by
  cases change with
  | node insert n =>
      cases insert with
      | true => exact ⟨h.closed.addNode n, h.counted.addNode n, h.modals⟩
      | false => exact ⟨h.closed.deleteNode n, h.counted.deleteNode n, h.modals⟩
  | edge insert e =>
      cases insert with
      | true => exact ⟨h.closed.addEdge e, h.counted.addEdge e, h.modals⟩
      | false => exact ⟨h.closed.deleteEdge e, h.counted.deleteEdge e, h.modals⟩
  | modals insert m =>
      have hold := Counts.Holds.of_positive h.modals
      have hnew := Counts.Holds.of_positive (c := m.counts) hchange
      cases insert with
      | true => exact ⟨h.closed, h.counted, (hold.union hnew).positive⟩
      | false => exact ⟨h.closed, h.counted, (hold.diff hnew).positive⟩

theorem applyAll (h : d.WellFormed) (hlog : ∀ change ∈ log, change.Counted) :
    (d.applyAll log).WellFormed := by
  induction log generalizing d with
  | nil => exact h
  | cons change rest ih =>
      obtain ⟨hchange, hrest⟩ := List.forall_mem_cons.1 hlog
      exact ih (h.apply hchange) hrest

end WellFormed

/-- The changes that some events ask for are counted. -/
theorem counted_changesOf (d : DependencyGraph) (selection : Selection) (events : List Event) :
    ∀ change ∈ d.changesOf selection events, change.Counted := by
  intro change hchange
  obtain ⟨e, -, hchange⟩ := List.mem_flatMap.1 hchange
  rw [changes, List.mem_append, List.mem_append, List.mem_map, List.mem_map,
    List.mem_singleton] at hchange
  rcases hchange with (⟨n, -, rfl⟩ | ⟨e, -, rfl⟩) | rfl
  · trivial
  · trivial
  · exact modals_positive selection e.target d.headToBody e.formula

section Deletion

variable {d : DependencyGraph} {e : Edge}

theorem edgeCount_deleteNodes (ns : List String) :
    (d.applyAll (ns.map (.node false))).graph.edgeCount e ≤ d.graph.edgeCount e := by
  induction ns generalizing d with
  | nil => exact Nat.le_refl _
  | cons n rest ih =>
      have hstep : (d.apply (.node false n)).graph.edgeCount e ≤ d.graph.edgeCount e :=
        CountedGraph.edgeCount_deleteNode
      exact ih.trans hstep

theorem edgeCount_deleteEdges (es : List Edge) :
    (d.applyAll (es.map (.edge false))).graph.edgeCount e ≤ d.graph.edgeCount e - es.count e := by
  induction es generalizing d with
  | nil => exact Nat.le_refl _
  | cons e' rest ih =>
      have hstep : (d.apply (.edge false e')).graph.edgeCount e ≤
          d.graph.edgeCount e - if e' = e then 1 else 0 := CountedGraph.edgeCount_deleteEdge
      have hrest : (d.applyAll ((e' :: rest).map (.edge false))).graph.edgeCount e ≤
          (d.apply (.edge false e')).graph.edgeCount e - rest.count e := ih
      rw [List.count_cons]
      simp only [beq_iff_eq]
      omega

/-- Deleting a contribution counts its edges less often, and no edge more often. -/
theorem edgeCount_deleteContribution (c : Contribution) :
    (d.applyAll (changes false c)).graph.edgeCount e ≤
      d.graph.edgeCount e - c.edges.count e := by
  rw [changes, applyAll, List.foldl_append, List.foldl_append]
  have hnodes := edgeCount_deleteNodes (d := d) (e := e) c.nodes
  have hedges := edgeCount_deleteEdges (d := d.applyAll (c.nodes.map (.node false))) (e := e) c.edges
  exact hedges.trans (Nat.sub_le_sub_right hnodes _)

end Deletion

end DependencyGraph

end DatalogPolicy

import DatalogPolicy.Proofs.Graph.Accounting
import DatalogPolicy.Proofs.Graph.Deletion

/-!
# Changes of a graph that can be taken back

What is added can always be dropped again. What is dropped can be added again just when
it was there and nothing else went away with it: a reference to a node that does not
exist is not dropped, and the edges of a node that loses its last reference do not come
back with the node.
-/

namespace DatalogPolicy

namespace Counts.Positive

variable {α : Type} [Ord α] [Std.TransOrd α] [Std.LawfulEqOrd α] [DecidableEq α] {c : Counts α}

theorem remove_add (h : c.Positive) (x : α) : (c.add x 1).remove x 1 = c := by
  apply ((h.add 1).remove 1).ext h
  intro y
  rw [count_remove, count_add, Nat.add_sub_cancel]

theorem add_remove (h : c.Positive) {x : α} (hx : x ∈ c) : (c.remove x 1).add x 1 = c := by
  apply ((h.remove 1).add 1).ext h
  intro y
  have hpos := h x hx
  rw [count_add, count_remove]
  split
  · next hxy =>
      subst hxy
      omega
  · rfl

theorem add_comm (h : c.Positive) (x y : α) : (c.add x 1).add y 1 = (c.add y 1).add x 1 := by
  apply ((h.add 1).add 1).ext ((h.add 1).add 1)
  intro z
  simp only [count_add, Nat.add_right_comm]

end Counts.Positive

namespace CountedGraph

variable {g : CountedGraph} {n : String} {e : Edge}

theorem deleteNode_of_not_mem (h : n ∉ g.nodes) : g.deleteNode n = g := by
  rw [deleteNode, if_neg]
  exact mt Std.ExtTreeMap.mem_iff_contains.2 h

section Additions

theorem Closed.drops_addNode (h : g.Closed) (hg : g.Counted) (n : String) :
    (g.addNode n).Drops n := by
  refine ⟨mem_addNode.2 (.inl rfl), ?_⟩
  by_cases hn : n ∈ g.nodes
  · have hpos : 0 < g.nodes.count n := hg.nodes n hn
    have hcount : (g.addNode n).nodeCount n = g.nodes.count n + 1 := by
      rw [nodeCount, CountedGraph.addNode, Counts.count_add, if_pos rfl]
    exact .inl (by omega)
  · refine .inr fun e he => ?_
    obtain ⟨hsrc, hdst⟩ := h e he
    exact ⟨fun heq => hn (heq ▸ hsrc), fun heq => hn (heq ▸ hdst)⟩

theorem deleteNode_addNode (h : g.Closed) (hg : g.Counted) (n : String) :
    (g.addNode n).deleteNode n = g := by
  rw [(h.drops_addNode hg n).deleteNode_eq, addNode, hg.nodes.remove_add]

theorem addNode_comm (hg : g.Counted) (n m : String) :
    (g.addNode n).addNode m = (g.addNode m).addNode n :=
  congrArg (CountedGraph.mk · g.edges) (hg.nodes.add_comm n m)

theorem deleteEdge_addEdge (h : g.Closed) (hg : g.Counted) (e : Edge) :
    (g.addEdge e).deleteEdge e = g := by
  have hmem : e ∈ (g.addEdge e).edges := by
    apply Counts.mem_of_count_pos
    rw [addEdge, Counts.count_add, if_pos rfl]
    exact Nat.succ_pos _
  have hloose : (g.addEdge e).loosen e = (g.addNode e.dst).addNode e.src := by
    rw [addNode_comm hg, loosen, addEdge]
    exact congrArg (CountedGraph.mk _) (hg.edges.remove_add e)
  rw [deleteEdge_of_mem hmem, hloose, deleteNode_addNode (h.addNode e.dst) (hg.addNode e.dst),
    deleteNode_addNode h hg]

end Additions

section Deletions

/-- The edges that a removal is about are gone. -/
theorem edgeCount_release_of_mem {tasks : List Release} (h : e ∈ tasks.map Release.edge) :
    (g.release tasks).edgeCount e = 0 := by
  have herased (g' : CountedGraph) (rest : List Release) (hg' : g'.edges.count e = 0) :
      (g'.release rest).edgeCount e = 0 :=
    Nat.le_zero.1 ((edgeCount_release rest).trans (Nat.le_of_eq hg'))
  have hzero (edges : Counts Edge) : Counts.count (edges.erase e) e = 0 := by
    rw [Counts.count_erase, if_pos rfl]
  fun_induction CountedGraph.release g tasks with
  | case1 g => exact absurd h List.not_mem_nil
  | case2 g task rest edges hmem hlast smaller ih =>
      rcases List.mem_cons.1 h with rfl | hrest
      · exact herased _ _ (hzero g.edges)
      · apply ih
        rw [List.map_append]
        exact List.mem_append_right _ hrest
  | case3 g task rest edges hmem hmore ih =>
      rcases List.mem_cons.1 h with rfl | hrest
      · exact herased _ _ (hzero g.edges)
      · exact ih hrest
  | case4 g task rest edges hmem ih =>
      rcases List.mem_cons.1 h with rfl | hrest
      · exact herased _ _ (hzero g.edges)
      · exact ih hrest

/-- The last reference to a node takes every edge of the node along. -/
theorem exists_lost (hn : n ∈ g.nodes) (h : ¬ g.Drops n) :
    ∃ e ∈ g.edges, (g.deleteNode n).edgeCount e = 0 := by
  obtain ⟨hlast, htouched⟩ : g.nodeCount n ≤ 1 ∧ ∃ e ∈ g.edges, e.src = n ∨ e.dst = n := by
    simpa only [Drops, hn, true_and, not_or, Nat.not_lt, not_forall, exists_prop, not_and_or,
      not_not] using h
  obtain ⟨e, he, hends⟩ := htouched
  have hcontains : g.containsNode n = true := Std.ExtTreeMap.mem_iff_contains.1 hn
  refine ⟨e, he, ?_⟩
  rw [deleteNode, if_pos hcontains, if_pos hlast, removeNode]
  exact edgeCount_release_of_mem (mem_incident he hends)

/-- A dropped reference to a node can be added again just when it was dropped alone. -/
theorem addNode_deleteNode_iff (hg : g.Counted) :
    (g.deleteNode n).addNode n = g ↔ g.Drops n := by
  constructor
  · intro heq
    have hn : n ∈ g.nodes := heq ▸ mem_addNode.2 (.inl rfl)
    by_contra hnot
    obtain ⟨e, he, hlost⟩ := exists_lost hn hnot
    have hpos : 0 < g.edgeCount e := hg.edges e he
    have hsame : ((g.deleteNode n).addNode n).edgeCount e = g.edgeCount e := by rw [heq]
    have hadded : ((g.deleteNode n).addNode n).edgeCount e = (g.deleteNode n).edgeCount e := rfl
    omega
  · intro h
    rw [h.deleteNode_eq, addNode]
    exact congrArg (CountedGraph.mk · g.edges) (hg.nodes.add_remove h.1)

theorem edgeCount_loosen (e' : Edge) :
    (g.loosen e).edgeCount e' = g.edgeCount e' - if e = e' then 1 else 0 :=
  Counts.count_remove g.edges e e' 1

theorem edgeCount_addEdge (e' : Edge) :
    (g.addEdge e).edgeCount e' = g.edgeCount e' + if e = e' then 1 else 0 :=
  Counts.count_add g.edges e e' 1

theorem Counted.loosen (hg : g.Counted) (e : Edge) : (g.loosen e).Counted :=
  ⟨hg.nodes, hg.edges.remove 1⟩

/-- A dropped reference to an edge can be added again only if no edge goes away with it. -/
theorem edgeCount_deleteEdge_ne_zero (hg : g.Counted) (heq : (g.deleteEdge e).addEdge e = g)
    {e' : Edge} (he' : e' ∈ (g.loosen e).edges) : (g.deleteEdge e).edgeCount e' ≠ 0 := by
  intro hlost
  have hpos : 0 < (g.loosen e).edgeCount e' := (hg.loosen e).edges e' he'
  have hcount : g.edgeCount e' = (g.deleteEdge e).edgeCount e' + if e = e' then 1 else 0 := by
    rw [← edgeCount_addEdge, heq]
  rw [edgeCount_loosen] at hpos
  omega

/-- Of a reference to an edge that can be added again, the one to the source was dropped alone. -/
theorem drops_src_of_addEdge_deleteEdge (hg : g.Counted) (heq : (g.deleteEdge e).addEdge e = g)
    (he : e ∈ g.edges) (hsrc : e.src ∈ (g.loosen e).nodes) : (g.loosen e).Drops e.src := by
  by_contra hnot
  obtain ⟨e', he', hlost⟩ := exists_lost hsrc hnot
  apply edgeCount_deleteEdge_ne_zero hg heq he'
  rw [deleteEdge_of_mem he]
  exact Nat.le_zero.1 (edgeCount_deleteNode.trans (Nat.le_of_eq hlost))

/-- Of such a reference, the one to the target was dropped alone, once that to the source was. -/
theorem drops_dst_of_addEdge_deleteEdge (hg : g.Counted) (heq : (g.deleteEdge e).addEdge e = g)
    (he : e ∈ g.edges) (hsrc : (g.loosen e).Drops e.src) :
    ((g.loosen e).deleteNode e.src).Drops e.dst := by
  have hpart := hsrc.deleteNode_eq
  by_contra hnot
  by_cases hrest : e.dst ∈ ((g.loosen e).deleteNode e.src).nodes
  · obtain ⟨e', he', hlost⟩ := exists_lost hrest hnot
    rw [hpart] at he'
    apply edgeCount_deleteEdge_ne_zero hg heq he'
    rw [deleteEdge_of_mem he]
    exact hlost
  · -- the only reference was that of the other end, so adding the edge adds one too many
    have hnone : (g.nodes.remove e.src 1).count e.dst = 0 := by
      apply Counts.count_eq_zero_of_not_mem
      rwa [hpart] at hrest
    have hcount : ((g.deleteEdge e).addEdge e).nodeCount e.dst = g.nodeCount e.dst := by rw [heq]
    rw [deleteEdge_of_mem he, deleteNode_of_not_mem hrest, hpart] at hcount
    simp only [nodeCount, addEdge, addNode, loosen, Counts.count_add, hnone] at hcount
    rw [Counts.count_remove] at hnone
    simp only [if_true] at hcount
    omega

theorem DropsEdge.addEdge_deleteEdge (hg : g.Counted) (h : g.DropsEdge e) :
    (g.deleteEdge e).addEdge e = g := by
  obtain ⟨he, hsrc, hdst⟩ := h
  rw [deleteEdge_of_mem he, hdst.deleteNode_eq, hsrc.deleteNode_eq]
  have hedges : (g.edges.remove e 1).add e 1 = g.edges := hg.edges.add_remove he
  have hdst : e.dst ∈ g.nodes.remove e.src 1 := by
    have hmem := hdst.1
    rwa [hsrc.deleteNode_eq] at hmem
  have hnodes : (((g.nodes.remove e.src 1).remove e.dst 1).add e.src 1).add e.dst 1 = g.nodes := by
    rw [((hg.nodes.remove 1).remove 1).add_comm, (hg.nodes.remove 1).add_remove hdst,
      hg.nodes.add_remove hsrc.1]
  simp only [addEdge, addNode, loosen, hedges, hnodes]

/-- A dropped reference to an edge can be added again just when it was dropped alone. -/
theorem addEdge_deleteEdge_iff (h : g.Closed) (hg : g.Counted) :
    (g.deleteEdge e).addEdge e = g ↔ g.DropsEdge e := by
  refine ⟨fun heq => ?_, DropsEdge.addEdge_deleteEdge hg⟩
  have he : e ∈ g.edges := by
    apply Counts.mem_of_count_pos
    show 0 < g.edgeCount e
    rw [← heq, edgeCount_addEdge, if_pos rfl]
    exact Nat.succ_pos _
  have hsrc := drops_src_of_addEdge_deleteEdge hg heq he (h e he).1
  exact ⟨he, hsrc, drops_dst_of_addEdge_deleteEdge hg heq he hsrc⟩

end Deletions

end CountedGraph

end DatalogPolicy

import DatalogPolicy.Graph.Basic
import DatalogPolicy.Proofs.Graph.Counts

/-!
# Reference accounting

The references to the nodes of a graph are the explicit ones and those of its edges,
of which each refers to both of its ends. As long as only outstanding references are
dropped, a node never loses its last reference while an edge touches it, so nothing
is removed along with it.
-/

namespace DatalogPolicy.CountedGraph

/-- The nodes to which some edges refer, each as often as an edge ends there. -/
def ends (E : Multiset Edge) : Multiset String := E.map Edge.src + E.map Edge.dst

theorem ends_cons (e : Edge) (E : Multiset Edge) : ends (e ::ₘ E) = e.src ::ₘ e.dst ::ₘ ends E := by
  simp [ends, Multiset.cons_add, Multiset.add_cons, Multiset.cons_swap]

theorem src_mem_ends {e : Edge} {E : Multiset Edge} (h : e ∈ E) : e.src ∈ ends E :=
  Multiset.mem_add.2 (.inl (Multiset.mem_map_of_mem _ h))

theorem dst_mem_ends {e : Edge} {E : Multiset Edge} (h : e ∈ E) : e.dst ∈ ends E :=
  Multiset.mem_add.2 (.inr (Multiset.mem_map_of_mem _ h))

/-- How often an edge ends at a node, which is twice for a loop. -/
def touches (e : Edge) (n : String) : Nat :=
  (if e.src = n then 1 else 0) + if e.dst = n then 1 else 0

theorem count_ends_add (E F : Multiset Edge) (n : String) :
    (ends (E + F)).count n = (ends E).count n + (ends F).count n := by
  simp only [ends, Multiset.map_add, Multiset.count_add]
  omega

theorem count_ends_replicate (k : Nat) (e : Edge) (n : String) :
    (ends (Multiset.replicate k e)).count n = k * touches e n := by
  simp only [ends, Multiset.map_replicate, Multiset.count_add, Multiset.count_replicate, touches,
    Nat.mul_add, mul_ite, Nat.mul_one, Nat.mul_zero]

/-- The references of the edges of a graph to a node are the counts of the edges that touch it. -/
theorem count_ends_items (edges : Counts Edge) (n : String) :
    (ends edges.items).count n =
      (edges.keys.map fun e => edges.count e * touches e n).sum := by
  have hlist (l : List (Edge × Nat)) :
      (ends (l.map fun p => Multiset.replicate p.2 p.1).sum).count n =
        (l.map fun p => p.2 * touches p.1 n).sum := by
    induction l with
    | nil => rfl
    | cons p rest ih =>
        rw [List.map_cons, List.sum_cons, count_ends_add, ih, count_ends_replicate,
          List.map_cons, List.sum_cons]
  rw [Counts.items, hlist, ← Std.ExtTreeMap.map_fst_toList_eq_keys, List.map_map]
  congr 1
  apply List.map_congr_left
  rintro ⟨e, k⟩ hp
  rw [Std.ExtTreeMap.mem_toList_iff_getElem?_eq_some] at hp
  have hk : edges.count e = k := by
    rw [Counts.count, Std.ExtTreeMap.getD_eq_getD_getElem?, hp, Option.getD_some]
  simp only [Function.comp_apply, hk]

/-- The nodes are referred to by the explicit references `N` and by the edges `E`, and the edges
are counted as often as they are in `E`. -/
structure Accounts (g : CountedGraph) (N : Multiset String) (E : Multiset Edge) : Prop where
  nodes : g.nodes.Holds (N + ends E)
  edges : g.edges.Holds E

/-- No edge goes away with a node that no edge touches. -/
theorem incident_of_untouched {g : CountedGraph} {n : String}
    (h : ∀ e ∈ g.edges, e.src ≠ n ∧ e.dst ≠ n) : g.incident n = [] := by
  rw [incident, List.filterMap_eq_nil_iff]
  rintro ⟨e, count⟩ he
  have he : e ∈ g.edges := by
    rw [← Std.ExtTreeMap.mem_keys, ← Std.ExtTreeMap.map_fst_toList_eq_keys]
    exact List.mem_map_of_mem he
  obtain ⟨hsrc, hdst⟩ := h e he
  simp only [if_neg hsrc, if_neg hdst]

/-- A node that no edge touches is removed alone. -/
theorem removeNode_of_untouched {g : CountedGraph} {n : String}
    (h : ∀ e ∈ g.edges, e.src ≠ n ∧ e.dst ≠ n) :
    g.removeNode n = { g with nodes := g.nodes.erase n } := by
  have hincident : incident { g with nodes := g.nodes.erase n } n = [] := incident_of_untouched h
  simp only [removeNode, hincident, release]

/-- A reference to a node can be dropped alone: there is one, and unless no edge touches the node
it is not the last one. -/
def Drops (g : CountedGraph) (n : String) : Prop :=
  n ∈ g.nodes ∧ (1 < g.nodeCount n ∨ ∀ e ∈ g.edges, e.src ≠ n ∧ e.dst ≠ n)

theorem Drops.deleteNode_eq {g : CountedGraph} {n : String} (h : g.Drops n) :
    g.deleteNode n = { g with nodes := g.nodes.remove n 1 } := by
  have hcontains : g.containsNode n = true := Std.ExtTreeMap.mem_iff_contains.1 h.1
  rw [deleteNode, if_pos hcontains]
  split
  · next hlast =>
      rw [removeNode_of_untouched (h.2.resolve_left (Nat.not_lt_of_le hlast)), Counts.remove]
      exact congrArg (CountedGraph.mk · g.edges) (if_pos hlast).symm
  · rfl

/-- The graph with a reference to an edge dropped, but not yet those to its ends. -/
def loosen (g : CountedGraph) (e : Edge) : CountedGraph := { g with edges := g.edges.remove e 1 }

theorem deleteEdge_of_mem {g : CountedGraph} {e : Edge} (h : e ∈ g.edges) :
    g.deleteEdge e = ((g.loosen e).deleteNode e.src).deleteNode e.dst := by
  have hcontains : g.edges.contains e = true := Std.ExtTreeMap.mem_iff_contains.1 h
  rw [deleteEdge, if_pos hcontains]
  rfl

/-- A reference to an edge can be dropped alone: there is one, and so can those to its ends. -/
def DropsEdge (g : CountedGraph) (e : Edge) : Prop :=
  e ∈ g.edges ∧ (g.loosen e).Drops e.src ∧ ((g.loosen e).deleteNode e.src).Drops e.dst

namespace Accounts

variable {g g' : CountedGraph} {N : Multiset String} {E : Multiset Edge}

theorem empty : Accounts {} 0 0 := ⟨Counts.Holds.empty, Counts.Holds.empty⟩

/-- The references determine the graph. -/
theorem unique (h : Accounts g N E) (h' : Accounts g' N E) : g = g' := by
  cases g
  cases g'
  congr 1
  · exact h.nodes.unique h'.nodes
  · exact h.edges.unique h'.edges

/-- A node counts its explicit references and the edges that touch it. -/
theorem nodeCount_eq (h : Accounts g N E) (n : String) :
    g.nodeCount n =
      N.count n + (g.edgeList.map fun e => g.edgeCount e * touches e n).sum := by
  rw [nodeCount, h.nodes.count_eq, Multiset.count_add, ← h.edges.items_eq, count_ends_items]
  rfl

theorem addNode (h : Accounts g N E) (n : String) : Accounts (g.addNode n) (n ::ₘ N) E where
  nodes := Multiset.cons_add n N (ends E) ▸ h.nodes.add_one n
  edges := h.edges

theorem addEdge (h : Accounts g N E) (e : Edge) : Accounts (g.addEdge e) N (e ::ₘ E) where
  nodes := by
    have hn := ((h.addNode e.src).addNode e.dst).nodes
    rwa [Multiset.cons_add, Multiset.cons_add, Multiset.cons_swap, ← Multiset.add_cons,
      ← Multiset.add_cons, ← ends_cons] at hn
  edges := h.edges.add_one e

/-- An outstanding reference can be dropped alone. -/
theorem drops (h : Accounts g N E) {n : String} (hn : n ∈ N) : g.Drops n := by
  refine ⟨h.nodes.mem_iff.2 (Multiset.mem_add.2 (.inl hn)), ?_⟩
  by_cases hfree : n ∈ ends E
  · have hcount : g.nodeCount n = N.count n + (ends E).count n := by
      rw [nodeCount, h.nodes.count_eq, Multiset.count_add]
    have hexplicit : 0 < N.count n := Multiset.count_pos.2 hn
    have hedges : 0 < (ends E).count n := Multiset.count_pos.2 hfree
    exact .inl (by omega)
  · refine .inr fun e he => ?_
    have he := h.edges.mem_iff.1 he
    exact ⟨fun hs => hfree (hs ▸ src_mem_ends he), fun hd => hfree (hd ▸ dst_mem_ends he)⟩

/-- Dropping an outstanding reference never removes an edge. -/
theorem deleteNode (h : Accounts g N E) {n : String} (hn : n ∈ N) :
    Accounts (g.deleteNode n) (N.erase n) E := by
  rw [(h.drops hn).deleteNode_eq]
  refine ⟨?_, h.edges⟩
  rw [← Multiset.erase_add_left_pos _ hn]
  exact h.nodes.remove_one n

/-- The graph with a reference to an edge dropped, the ends of which count as explicit references
until they are dropped as well. -/
theorem loosen (h : Accounts g N E) {e : Edge} (he : e ∈ E) :
    Accounts (g.loosen e) (e.src ::ₘ e.dst ::ₘ N) (E.erase e) where
  nodes := by
    have hn := h.nodes
    rw [← Multiset.cons_erase he, ends_cons, Multiset.add_cons, Multiset.add_cons] at hn
    rwa [Multiset.cons_add, Multiset.cons_add]
  edges := h.edges.remove_one e

/-- An outstanding edge can be dropped alone. -/
theorem dropsEdge (h : Accounts g N E) {e : Edge} (he : e ∈ E) : g.DropsEdge e := by
  have hsrc := (h.loosen he).deleteNode (Multiset.mem_cons_self _ _)
  rw [Multiset.erase_cons_head] at hsrc
  exact ⟨h.edges.mem_iff.2 he, (h.loosen he).drops (Multiset.mem_cons_self _ _),
    hsrc.drops (Multiset.mem_cons_self _ _)⟩

theorem deleteEdge (h : Accounts g N E) {e : Edge} (he : e ∈ E) :
    Accounts (g.deleteEdge e) N (E.erase e) := by
  rw [deleteEdge_of_mem (h.edges.mem_iff.2 he)]
  have hsrc := (h.loosen he).deleteNode (Multiset.mem_cons_self _ _)
  rw [Multiset.erase_cons_head] at hsrc
  have hdst := hsrc.deleteNode (Multiset.mem_cons_self _ _)
  rwa [Multiset.erase_cons_head] at hdst

end Accounts

end DatalogPolicy.CountedGraph

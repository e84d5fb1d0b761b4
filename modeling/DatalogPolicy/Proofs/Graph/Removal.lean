import DatalogPolicy.Proofs.Graph.Balance
import Mathlib.Data.List.Perm.Basic

/-!
# References and removals

The references to a node are its explicit ones and those of the edges that touch it, as long as
an explicit reference is only deleted where there is one. Then no release ever gives back more
references than a node has, and a node that is removed takes along the edges that touch it and
the neighbours to which only these edges refer, and nothing else.
-/

namespace DatalogPolicy.CountedGraph

/-- What an operation adds to the explicit references to a node. -/
def Operation.explicit (n : String) : Operation → Int
  | .addNode m => if m = n then 1 else 0
  | .deleteNode m => if m = n then -1 else 0
  | .addEdge _ | .deleteEdge _ | .removeNode _ => 0

/-- A graph with the explicit references to its nodes. -/
structure Reckoning where
  graph : CountedGraph := {}
  explicit : String → Int := fun _ => 0

namespace Reckoning

/-- Performs an operation. The explicit references to a node are reckoned from the time at which it
was last absent. -/
def perform (r : Reckoning) (op : Operation) : Reckoning where
  graph := r.graph.perform op
  explicit n := if n ∈ (r.graph.perform op).nodes then r.explicit n + op.explicit n else 0

/-- A node may be deleted if it is absent or has an explicit reference. -/
def Permits (r : Reckoning) : Operation → Prop
  | .deleteNode n => n ∉ r.graph.nodes ∨ 0 < r.explicit n
  | .addNode _ | .addEdge _ | .deleteEdge _ | .removeNode _ => True

/-- Every one of some operations is permitted when it is performed. -/
def PermitsAll (r : Reckoning) : List Operation → Prop
  | [] => True
  | op :: rest => r.Permits op ∧ (r.perform op).PermitsAll rest

/-- The graph after some operations on an empty one, with the explicit references. -/
def ofOperations (operations : List Operation) : Reckoning := operations.foldl perform {}

end Reckoning

/-- The graph without a node, its edges counted as before. -/
def dropNode (g : CountedGraph) (n : String) : CountedGraph := { g with nodes := g.nodes.erase n }

/-- Somewhere in the release of edges, more references are given back than a node has. -/
inductive Saturates : CountedGraph → List Release → Prop
  | now {g task rest} (h : task.other ∈ g.nodes) (hless : g.nodeCount task.other < task.count) :
      Saturates g (task :: rest)
  | within {g task rest} (h : task.other ∈ g.nodes) (hlast : g.nodeCount task.other ≤ task.count)
      (hremoval : Saturates ((g.dropEdge task.edge).dropNode task.other)
        (((g.dropEdge task.edge).dropNode task.other).incident task.other)) :
      Saturates g (task :: rest)
  | later {g task rest}
      (h : Saturates ((g.dropEdge task.edge).releaseNode task.other task.count) rest) :
      Saturates g (task :: rest)

/-- Somewhere in the removal of a node, more references are given back than another one has. -/
def RemovalSaturates (g : CountedGraph) (n : String) : Prop :=
  Saturates (g.dropNode n) ((g.dropNode n).incident n)

/-- An operation comes to a removal in which more references are given back than there are. -/
inductive OperationSaturates : CountedGraph → Operation → Prop
  | removeNode {g n} (h : g.RemovalSaturates n) : OperationSaturates g (.removeNode n)
  | deleteNode {g n} (hlast : g.nodeCount n = 1) (h : g.RemovalSaturates n) :
      OperationSaturates g (.deleteNode n)
  | deleteSrc {g e} (he : e ∈ g.edges) (h : OperationSaturates (g.loosen e) (.deleteNode e.src)) :
      OperationSaturates g (.deleteEdge e)
  | deleteDst {g e} (he : e ∈ g.edges)
      (h : OperationSaturates ((g.loosen e).deleteNode e.src) (.deleteNode e.dst)) :
      OperationSaturates g (.deleteEdge e)

/-- How many references to a node the edges hold that touch another one. -/
def heldAlong (g : CountedGraph) (other n : String) : Nat :=
  ((g.edgeList.filter fun e => e.src = other ∨ e.dst = other).map fun e =>
    g.edgeCount e * touches e n).sum

variable {S : Set String} {g g' : CountedGraph} {N : Multiset String} {n m : String} {e : Edge}
  {task : Release} {tasks : List Release}

section Releases

/-- The graph after an edge is released, its other end losing the references of the edge. -/
def released (g : CountedGraph) (task : Release) : CountedGraph where
  nodes := g.nodes.remove task.other task.count
  edges := g.edges.erase task.edge

theorem Counted.releaseEdge (hg : g.Counted) (task : Release) : (g.released task).Counted :=
  ⟨hg.nodes.remove _, hg.edges.erase⟩

theorem Balanced.releaseEdge (h : Balanced S g N) (ht : Due S g task) :
    Balanced S (g.released task) N :=
  h.settle ht fun n => Counts.count_remove _ _ n _

/-- The other end of an edge that is due has the references of the edge. -/
theorem Balanced.count_le (h : Balanced S g N) (ht : Due S g task) (hother : task.other ∈ S) :
    task.count ≤ g.nodeCount task.other := by
  obtain ⟨⟨gone, hS, -, hends⟩, -, hcount⟩ := ht
  have htouches : 0 < touches task.edge task.other := by
    rw [touches]
    rcases hends with ⟨-, hdst⟩ | ⟨-, hsrc⟩
    · rw [if_pos hdst]
      omega
    · rw [if_pos hsrc]
      omega
  calc task.count = g.edgeCount task.edge := (hcount hother).symm
    _ ≤ g.edgeCount task.edge * touches task.edge task.other := Nat.le_mul_of_pos_right _ htouches
    _ ≤ g.held task.other := by
      rw [← held_dropEdge task.edge]
      exact Nat.le_add_left _ _
    _ ≤ N.count task.other + g.held task.other := Nat.le_add_left _ _
    _ ≤ g.nodeCount task.other := h.ge _ hother

/-- Once the other end of an edge that is due has no reference left, no edge touches it. -/
theorem Balanced.untouched_of_last (h : Balanced S g N) (hg : g.Counted) (ht : Due S g task)
    (hother : task.other ∈ S) (hlast : g.nodeCount task.other ≤ task.count) :
    ∀ e ∈ g.edges.erase task.edge, e.src ≠ task.other ∧ e.dst ≠ task.other := by
  refine untouched_of_held (hg.releaseEdge task) ?_
  have hge := (h.releaseEdge ht).ge _ hother
  have hzero : (g.released task).nodeCount task.other = 0 := by
    refine (Counts.count_remove g.nodes task.other task.other task.count).trans ?_
    rw [if_pos rfl]
    exact Nat.sub_eq_zero_of_le hlast
  omega

/-- Releasing an edge that is due takes nothing else along. -/
theorem Balanced.releaseNode_eq (h : Balanced S g N) (hg : g.Counted) (ht : Due S g task)
    (hother : task.other ∈ g.nodes → task.other ∈ S) :
    (g.dropEdge task.edge).releaseNode task.other task.count = g.released task := by
  by_cases hmem : task.other ∈ g.nodes
  · rw [releaseNode, if_pos (show task.other ∈ (g.dropEdge task.edge).nodes from hmem)]
    split
    · next hlast =>
        rw [removeNode_of_untouched (h.untouched_of_last hg ht (hother hmem) hlast)]
        exact congrArg (CountedGraph.mk · _) (Counts.remove_of_le hlast).symm
    · rfl
  · have hzero : g.nodes.count task.other = 0 := Counts.count_eq_zero_of_not_mem hmem
    have hnodes : g.nodes.remove task.other task.count = g.nodes := by
      rw [Counts.remove_of_le (hzero ▸ Nat.zero_le _)]
      refine hg.nodes.erase.ext hg.nodes fun n => ?_
      rw [Counts.count_erase]
      split
      · next heq => exact heq ▸ hzero.symm
      · rfl
    rw [releaseNode_of_not_mem (show task.other ∉ (g.dropEdge task.edge).nodes from hmem),
      released, hnodes]
    rfl

/-- Edges that are due are released one after the other, without taking anything else along and
without giving back more references than there are. -/
theorem Balanced.release_eq (h : Balanced S g N) (hg : g.Counted) (hdue : ∀ t ∈ tasks, Due S g t)
    (hapart : tasks.Pairwise (ReleasedApart S))
    (hother : ∀ t ∈ tasks, t.other ∈ g.nodes → t.other ∈ S) :
    g.release tasks = tasks.foldl released g ∧ ¬ Saturates g tasks := by
  induction tasks generalizing g with
  | nil =>
      rw [CountedGraph.release]
      exact ⟨rfl, nofun⟩
  | cons task rest ih =>
      obtain ⟨hfirst, hrest⟩ := List.forall_mem_cons.1 hdue
      obtain ⟨hne, hapart⟩ := List.pairwise_cons.1 hapart
      obtain ⟨hS, hothers⟩ := List.forall_mem_cons.1 hother
      have hstep := h.releaseNode_eq hg hfirst hS
      have hless (n : String) (hn : n ∈ (g.released task).nodes) : n ∈ g.nodes :=
        Counts.mem_of_mem_remove hn
      obtain ⟨hrun, hnot⟩ := ih (h.releaseEdge hfirst) (hg.releaseEdge task)
        (fun t ht => (hrest t ht).settle hless (hne t ht)) hapart
        fun t ht hmem => hothers t ht (hless _ hmem)
      refine ⟨?_, fun hsaturates => ?_⟩
      · rw [release_cons, hstep, hrun, List.foldl_cons]
      · cases hsaturates with
        | now hmem hless => exact Nat.not_lt_of_le (h.count_le hfirst (hS hmem)) hless
        | within hmem hlast hremoval =>
            have hnone : ((g.dropEdge task.edge).dropNode task.other).incident task.other = [] :=
              incident_of_untouched (h.untouched_of_last hg hfirst (hS hmem) hlast)
            rw [hnone] at hremoval
            cases hremoval
        | later hlater =>
            rw [hstep] at hlater
            exact hnot hlater

theorem edgeCount_foldl_released (tasks : List Release) (e : Edge) :
    (tasks.foldl released g).edgeCount e =
      if e ∈ tasks.map Release.edge then 0 else g.edgeCount e := by
  induction tasks generalizing g with
  | nil => rfl
  | cons task rest ih =>
      have herase : (g.released task).edgeCount e = if task.edge = e then 0 else g.edgeCount e :=
        Counts.count_erase g.edges task.edge e
      rw [List.foldl_cons, ih, herase, List.map_cons]
      simp only [List.mem_cons, eq_comm (a := e)]
      split <;> split <;> simp_all

end Releases

section Removal

/-- A node of a balanced graph has its explicit references and those of the edges. -/
theorem Balanced.nodeCount_eq (h : Balanced Set.univ g N) (n : String) :
    g.nodeCount n = N.count n + g.held n :=
  Nat.le_antisymm (h.le n) (h.ge n (Set.mem_univ n))

/-- The nodes other than one. -/
abbrev others (n : String) : Set String := {m | m ≠ n}

theorem Balanced.mono {T : Set String} (h : Balanced S g N) (hT : T ⊆ S) : Balanced T g N :=
  ⟨h.le, fun n hn => h.ge n (hT hn)⟩

theorem held_eq_zero (h : ∀ e ∈ g.edges, e.src ≠ n ∧ e.dst ≠ n) : g.held n = 0 := by
  rw [held, count_ends_items]
  refine List.sum_eq_zero (List.forall_mem_map.2 fun e he => ?_)
  obtain ⟨hsrc, hdst⟩ := h e (Std.ExtTreeMap.mem_keys.1 he)
  rw [touches, if_neg hsrc, if_neg hdst, Nat.mul_zero]

/-- A graph with an absent node is balanced if the other nodes are. -/
theorem Balanced.of_others (h : Balanced (others n) g N) (hg : g.Closed) (hn : n ∉ g.nodes)
    (hN : N.count n = 0) : Balanced Set.univ g N := by
  refine ⟨h.le, fun m _ => ?_⟩
  by_cases hm : m = n
  · subst hm
    have hheld : g.held m = 0 := held_eq_zero fun e he =>
      ⟨fun hsrc => hn (hsrc ▸ (hg e he).1), fun hdst => hn (hdst ▸ (hg e he).2)⟩
    rw [hN, hheld]
    exact Nat.zero_le _
  · exact h.ge m hm

variable (h : Balanced Set.univ g N) (hg : g.Counted)

include h hg

/-- The edges of a node that is removed are released one after the other, without taking anything
else along and without giving back more references than there are. -/
theorem Balanced.removeNode_eq (n : String) :
    g.removeNode n = ((g.dropNode n).incident n).foldl released (g.dropNode n) ∧
      ¬ g.RemovalSaturates n := by
  have hothers : Balanced (others n) (g.dropNode n) N :=
    (h.mono (Set.subset_univ _)).eraseNode (fun hn => hn rfl) fun _ _ => rfl
  refine hothers.release_eq ⟨hg.nodes.erase, hg.edges⟩
    (due_incident (fun hn => hn rfl) not_mem_erase) apart_incident fun task _ hmem => ?_
  rintro heq
  exact not_mem_erase (heq ▸ hmem)

/-- The edges that touch a node are removed with it, and no others. -/
theorem Balanced.edgeCount_removeNode (n : String) (e : Edge) : (g.removeNode n).edgeCount e =
    if e.src = n ∨ e.dst = n then 0 else g.edgeCount e := by
  rw [(h.removeNode_eq hg n).1, edgeCount_foldl_released]
  by_cases htouches : e.src = n ∨ e.dst = n
  · rw [if_pos htouches, ite_eq_left_iff]
    exact fun hnot => Counts.count_eq_zero_of_not_mem fun he => hnot (mem_incident he htouches)
  · rw [if_neg htouches, if_neg]
    · rfl
    · rw [List.mem_map]
      rintro ⟨task, htask, rfl⟩
      exact htouches ((of_mem_incident htask).2.imp And.left And.left)

/-- The balance of a graph from which a node is removed, with its explicit references. -/
theorem Balanced.remove (hclosed : g.Closed) (n : String) :
    Balanced Set.univ (g.removeNode n) (N.filter (· ≠ n)) := by
  have hcount (m : String) (hm : m ≠ n) : N.count m = (N.filter (· ≠ n)).count m :=
    (Multiset.count_filter_of_pos (p := (· ≠ n)) hm).symm
  refine Balanced.of_others (n := n) ?_ (hclosed.removeNode n) not_mem_removeNode
    (Multiset.count_filter_of_neg (fun hn => hn rfl))
  exact (h.mono (Set.subset_univ _)).removeNode hg (fun hn => hn rfl) hcount

end Removal

section Held

variable (n : String)

theorem held_eq_sum : g.held n = (g.edgeList.map fun e => g.edgeCount e * touches e n).sum :=
  count_ends_items g.edges n

/-- The references of the edges that a node takes along are those that the other edges do not
hold. -/
theorem held_add_heldAlong (hg : g.Counted) (hg' : g'.Counted) {t : String}
    (hedges : ∀ e, g'.edgeCount e = if e.src = t ∨ e.dst = t then 0 else g.edgeCount e) :
    g'.held n + g.heldAlong t n = g.held n := by
  let along : Edge → Bool := fun e => e.src = t ∨ e.dst = t
  let references : Edge → Nat := fun e => g.edgeCount e * touches e n
  have hkept {e : Edge} (he : along e = false) : g'.edgeCount e = g.edgeCount e := by
    rw [hedges, if_neg (of_decide_eq_false he)]
  have hlist : g'.edgeList.Perm (g.edgeList.filter fun e => !along e) := by
    refine (List.perm_ext_iff_of_nodup Std.ExtTreeMap.nodup_keys
      (Std.ExtTreeMap.nodup_keys.filter _)).2 fun e => ?_
    have hmem : e ∈ g'.edges ↔ e ∈ g.edges ∧ along e = false := by
      rw [hg'.edges.mem_iff, hg.edges.mem_iff]
      show 0 < g'.edgeCount e ↔ 0 < g.edgeCount e ∧ along e = false
      cases he : along e with
      | false => rw [hkept he, and_iff_left rfl]
      | true =>
          rw [hedges, if_pos (of_decide_eq_true he)]
          exact iff_of_false (Nat.lt_irrefl 0) fun h => Bool.noConfusion h.2
    show e ∈ g'.edges.keys ↔ e ∈ g.edges.keys.filter fun e => !along e
    rw [List.mem_filter, Std.ExtTreeMap.mem_keys, Std.ExtTreeMap.mem_keys, hmem, Bool.not_eq_true']
  have hrest : g'.held n = ((g.edgeList.filter fun e => !along e).map references).sum := by
    rw [held_eq_sum, (hlist.map _).sum_eq]
    refine congrArg List.sum (List.map_congr_left fun e he => ?_)
    have he : along e = false := by simpa using (List.mem_filter.1 he).2
    rw [hkept he]
  have hsplit := ((List.filter_append_perm along g.edgeList).map references).sum_eq
  rw [List.map_append, List.sum_append] at hsplit
  rw [hrest, held_eq_sum, ← hsplit, Nat.add_comm]
  rfl

end Held

section Operations

variable {op : Operation}

/-- A deletion is of an absent node or of one with an explicit reference. -/
def Backed (g : CountedGraph) (N : Multiset String) (op : Operation) : Prop :=
  ∀ n, op = .deleteNode n → n ∈ g.nodes → n ∈ N

variable (h : Balanced Set.univ g N) (hg : g.Counted)

include h hg

/-- An operation keeps the balance, and the explicit references change as it says. -/
theorem Balanced.perform (hclosed : g.Closed) (hop : Backed g N op) :
    ∃ N', Balanced Set.univ (g.perform op) N' ∧
      ∀ n ∈ (g.perform op).nodes, (N'.count n : Int) = N.count n + op.explicit n := by
  cases op with
  | addNode m =>
      refine ⟨m ::ₘ N, h.addNode m, fun n _ => ?_⟩
      rw [count_cons_node, Operation.explicit]
      split <;> simp
  | addEdge e => exact ⟨N, h.addEdge e, fun n _ => (Int.add_zero _).symm⟩
  | deleteEdge e => exact ⟨N, h.deleteEdge hg e, fun n _ => (Int.add_zero _).symm⟩
  | removeNode m =>
      refine ⟨N.filter (· ≠ m), h.remove hg hclosed m, fun n hn => ?_⟩
      have hne : n ≠ m := fun heq => not_mem_removeNode (heq ▸ hn)
      rw [Multiset.count_filter_of_pos (p := (· ≠ m)) hne]
      exact (Int.add_zero _).symm
  | deleteNode m =>
      by_cases hm : m ∈ g.nodes
      · obtain ⟨N', rfl⟩ := Multiset.exists_cons_of_mem (hop m rfl hm)
        refine ⟨N', h.deleteNode hg, fun n _ => ?_⟩
        rw [count_cons_node, Operation.explicit]
        split <;> simp
      · have heq : g.perform (.deleteNode m) = g := deleteNode_of_not_mem hm
        refine ⟨N, heq.symm ▸ h, fun n hn => ?_⟩
        have hne : m ≠ n := fun hmn => hm (hmn ▸ heq ▸ hn)
        rw [Operation.explicit, if_neg hne, Int.add_zero]

theorem Balanced.not_saturates_deleteNode (n : String) :
    ¬ OperationSaturates g (.deleteNode n) := by
  rintro (_ | ⟨-, hremoval⟩)
  exact (h.removeNode_eq hg n).2 hremoval

/-- No operation comes to a removal in which more references are given back than there are. -/
theorem Balanced.not_saturates (op : Operation) : ¬ OperationSaturates g op := by
  rintro (hremoval | ⟨-, hremoval⟩ | ⟨he, hsrc⟩ | ⟨he, hdst⟩)
  · exact (h.removeNode_eq hg _).2 hremoval
  · exact (h.removeNode_eq hg _).2 hremoval
  · exact (h.loosen (hg.edges _ he)).not_saturates_deleteNode (hg.loosen _) _ hsrc
  · have hsrc := (h.loosen (hg.edges _ he)).deleteNode (hg.loosen _)
    exact hsrc.not_saturates_deleteNode ((hg.loosen _).deleteNode _) _ hdst

/-- What a node that is removed takes along, and what it leaves of the references to the others. -/
theorem Balanced.removeNode_spec (hclosed : g.Closed) (t : String) :
    (∀ e, (g.removeNode t).edgeCount e =
      if e.src = t ∨ e.dst = t then 0 else g.edgeCount e) ∧
    (∀ n, n ∈ (g.removeNode t).nodes ↔
      n ∈ g.nodes ∧ n ≠ t ∧ g.heldAlong t n ≠ g.nodeCount n) ∧
    ∀ n, n ≠ t → (g.removeNode t).nodeCount n + g.heldAlong t n = g.nodeCount n := by
  have hcounts (n : String) (hn : n ≠ t) :
      (g.removeNode t).nodeCount n + g.heldAlong t n = g.nodeCount n := by
    have hbefore := h.nodeCount_eq n
    have hafter := (h.remove hg hclosed t).nodeCount_eq n
    have hheld := held_add_heldAlong n hg (hg.removeNode t) (h.edgeCount_removeNode hg t)
    rw [Multiset.count_filter_of_pos (p := (· ≠ t)) hn] at hafter
    omega
  refine ⟨h.edgeCount_removeNode hg t, fun n => ?_, hcounts⟩
  by_cases hn : n = t
  · exact iff_of_false (hn ▸ not_mem_removeNode) fun hand => hand.2.1 hn
  · have hcount := hcounts n hn
    have hmem : n ∈ (g.removeNode t).nodes ↔ 0 < (g.removeNode t).nodeCount n :=
      (hg.removeNode t).nodes.mem_iff
    have hold : n ∈ g.nodes ↔ 0 < g.nodeCount n := hg.nodes.mem_iff
    rw [hmem, hold, and_iff_right hn]
    omega

end Operations

section Reckoning

variable {r : Reckoning} {op : Operation} {operations : List Operation}

namespace Reckoning

/-- The graph is balanced with its explicit references. -/
structure Sound (r : Reckoning) (N : Multiset String) : Prop where
  counted : r.graph.Counted
  closed : r.graph.Closed
  balanced : r.graph.Balanced Set.univ N
  explicit_eq : ∀ n, r.explicit n = N.count n

theorem Sound.empty : Sound {} 0 where
  counted := .empty
  closed _ he := absurd he Std.ExtTreeMap.not_mem_empty
  balanced := .empty _
  explicit_eq _ := rfl

/-- A permitted operation keeps the reckoning sound. -/
theorem Sound.perform (h : r.Sound N) (hop : r.Permits op) : ∃ N', (r.perform op).Sound N' := by
  have hbacked : Backed r.graph N op := by
    rintro n rfl hn
    have hpos : 0 < r.explicit n := hop.resolve_left (not_not.2 hn)
    rw [h.explicit_eq] at hpos
    exact Multiset.count_pos.1 (by omega)
  obtain ⟨N', hbalanced, hcount⟩ := h.balanced.perform h.counted h.closed hbacked
  refine ⟨N', h.counted.perform op, h.closed.perform op, hbalanced, fun n => ?_⟩
  show (if n ∈ (r.graph.perform op).nodes then r.explicit n + op.explicit n else 0) = N'.count n
  split
  · next hn => rw [hcount n hn, h.explicit_eq]
  · next hn =>
      have hzero : (r.graph.perform op).nodeCount n = 0 := Counts.count_eq_zero_of_not_mem hn
      have heq := hbalanced.nodeCount_eq n
      omega

/-- Permitted operations keep the reckoning sound. -/
theorem Sound.run (h : r.Sound N) (hops : r.PermitsAll operations) :
    ∃ N', (operations.foldl Reckoning.perform r).Sound N' := by
  induction operations generalizing r N with
  | nil => exact ⟨N, h⟩
  | cons op rest ih =>
      obtain ⟨N', hstep⟩ := h.perform hops.1
      exact ih hstep hops.2

theorem graph_foldl (r : Reckoning) (operations : List Operation) :
    (operations.foldl perform r).graph = operations.foldl CountedGraph.perform r.graph := by
  induction operations generalizing r with
  | nil => rfl
  | cons op rest ih => exact ih _

end Reckoning

/-- After operations of which each is permitted, a node has its explicit references and those of the
edges that touch it. No operation comes to a removal in which more references are given back than
there are, and the removal of a node takes along just the edges that touch it and the neighbours
to which only these edges refer. -/
theorem references_ofOperations (operations : List Operation)
    (h : Reckoning.PermitsAll {} operations) :
    let g := ofOperations operations
    (∀ n, (g.nodeCount n : Int) = (Reckoning.ofOperations operations).explicit n +
      ((g.edgeList.map fun e => g.edgeCount e * touches e n).sum : Nat)) ∧
    (∀ op, ¬ OperationSaturates g op) ∧
    ∀ t,
      (∀ e, (g.removeNode t).edgeCount e =
        if e.src = t ∨ e.dst = t then 0 else g.edgeCount e) ∧
      (∀ n, n ∈ (g.removeNode t).nodes ↔
        n ∈ g.nodes ∧ n ≠ t ∧ g.heldAlong t n ≠ g.nodeCount n) ∧
      ∀ n, n ≠ t → (g.removeNode t).nodeCount n + g.heldAlong t n = g.nodeCount n := by
  intro g
  obtain ⟨N, hcounted, hclosed, hbalanced, hexplicit⟩ := Reckoning.Sound.empty.run h
  rw [Reckoning.graph_foldl] at hcounted hclosed hbalanced
  have hcount (n : String) : g.nodeCount n = N.count n + g.held n := hbalanced.nodeCount_eq n
  refine ⟨fun n => ?_, hbalanced.not_saturates hcounted, hbalanced.removeNode_spec hcounted hclosed⟩
  rw [Reckoning.ofOperations, hexplicit, ← held_eq_sum, hcount]
  exact Int.natCast_add _ _

instance (r : Reckoning) (op : Operation) : Decidable (r.Permits op) := by
  cases op <;> unfold Reckoning.Permits <;> infer_instance

/-- Opposite edges, a loop, an edge counted twice, and deletions of a node and of none. -/
def sampleOperations : List Operation :=
  [.addNode "a", .addNode "a", .deleteNode "a", .deleteNode "z", .addEdge ⟨"a", "b", false⟩,
    .addEdge ⟨"b", "a", true⟩, .addEdge ⟨"b", "c", false⟩, .addEdge ⟨"c", "c", false⟩,
    .addEdge ⟨"e", "b", true⟩, .addEdge ⟨"e", "b", true⟩]

theorem references_sampleOperations :
    let g := ofOperations sampleOperations
    Reckoning.PermitsAll {} sampleOperations ∧
    (g.edgeList.map fun e => g.edgeCount e * touches e "a").sum = 2 ∧ g.nodeCount "a" = 3 ∧
    ¬ OperationSaturates g (.removeNode "b") ∧
    g.heldAlong "b" "e" = 2 ∧ "e" ∉ (g.removeNode "b").nodes ∧
    g.heldAlong "b" "a" = 2 ∧ (g.removeNode "b").nodeCount "a" = 1 := by
  intro g
  have hpermits : Reckoning.PermitsAll {} sampleOperations := by
    simp only [sampleOperations, Reckoning.PermitsAll]
    decide +kernel
  obtain ⟨hcount, hsaturates, hremoval⟩ := references_ofOperations sampleOperations hpermits
  obtain ⟨-, hmem, hothers⟩ := hremoval "b"
  have hexplicit : (Reckoning.ofOperations sampleOperations).explicit "a" = 1 := by decide +kernel
  have hedges : (g.edgeList.map fun e => g.edgeCount e * touches e "a").sum = 2 := by
    decide +kernel
  have hall : g.heldAlong "b" "e" = 2 ∧ g.nodeCount "e" = 2 := by decide +kernel
  have hsome : g.heldAlong "b" "a" = 2 := by decide +kernel
  have hreferences : g.nodeCount "a" = 3 := by
    have := hcount "a"
    rw [hexplicit, hedges] at this
    exact_mod_cast this
  have hrest : (g.removeNode "b").nodeCount "a" + 2 = 3 := by
    rw [← hreferences, ← hsome]
    exact hothers "a" (by decide)
  refine ⟨hpermits, hedges, hreferences, hsaturates _, hall.1, fun h => ?_, hsome, by omega⟩
  exact ((hmem "e").1 h).2.2 (hall.1.trans hall.2.symm)

end Reckoning

end DatalogPolicy.CountedGraph

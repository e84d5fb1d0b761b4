import DatalogPolicy.Proofs.Graph.Undo

/-!
# Removals and deletions as they are carried out

Removing a node and releasing references to one call each other, and counts are lessened
by one without a look at whether they are zero. The relations below say step by step what
happens: they have no case for a count of zero, and no result where calls go on forever.
On every graph a removal has exactly one result, that of `removeNode`, and on the graphs
that come out of the empty one all operations have exactly one result.
-/

namespace DatalogPolicy

namespace CountedGraph

/-- The graph without an edge, its ends counting the references of the edge as before. -/
def dropEdge (g : CountedGraph) (e : Edge) : CountedGraph := { g with edges := g.edges.erase e }

mutual

/-- Removing a node: it goes, and then the edges that touched it. -/
inductive Removes : CountedGraph → String → CountedGraph → Prop
  | intro {g n g'} (h : Clears n { g with nodes := g.nodes.erase n } (g.incident n) g') :
      Removes g n g'

/-- Edges of a removed node go one after the other, each with its references to its other end. -/
inductive Clears : String → CountedGraph → List Release → CountedGraph → Prop
  | done {n g} : Clears n g [] g
  | loop {n g task rest g'} (h : task.other = n) (hrest : Clears n (g.dropEdge task.edge) rest g') :
      Clears n g (task :: rest) g'
  | step {n g task rest between g'} (hne : task.other ≠ n)
      (h : Releases (g.dropEdge task.edge) task.other task.count between)
      (hrest : Clears n between rest g') : Clears n g (task :: rest) g'

/-- References to a node are dropped, and the node is removed with the last one. -/
inductive Releases : CountedGraph → String → Nat → CountedGraph → Prop
  | absent {g n k} (h : n ∉ g.nodes) : Releases g n k g
  | kept {g n k} (hk : k < g.nodeCount n) :
      Releases g n k { g with nodes := g.nodes.insert n (g.nodeCount n - k) }
  | last {g n k g'} (h : n ∈ g.nodes) (hk : g.nodeCount n ≤ k) (hremoved : Removes g n g') :
      Releases g n k g'

end

/-- Deleting a node lessens its count, which must not be zero, by one. -/
inductive DeletesNode : CountedGraph → String → CountedGraph → Prop
  | absent {g n} (h : n ∉ g.nodes) : DeletesNode g n g
  | kept {g n} (h : 1 < g.nodeCount n) :
      DeletesNode g n { g with nodes := g.nodes.insert n (g.nodeCount n - 1) }
  | last {g n g'} (h : g.nodeCount n = 1) (hremoved : Removes g n g') : DeletesNode g n g'

/-- Deleting an edge lessens its count, which must not be zero, by one and deletes its ends. -/
inductive DeletesEdge : CountedGraph → Edge → CountedGraph → Prop
  | absent {g e} (h : e ∉ g.edges) : DeletesEdge g e g
  | kept {g e between g'} (h : 1 < g.edgeCount e)
      (hsrc : DeletesNode { g with edges := g.edges.insert e (g.edgeCount e - 1) } e.src between)
      (hdst : DeletesNode between e.dst g') : DeletesEdge g e g'
  | last {g e between g'} (h : g.edgeCount e = 1)
      (hsrc : DeletesNode (g.dropEdge e) e.src between)
      (hdst : DeletesNode between e.dst g') : DeletesEdge g e g'

/-- Performing an operation step by step. -/
inductive Performs : CountedGraph → Operation → CountedGraph → Prop
  | addNode {g n} : Performs g (.addNode n) (g.addNode n)
  | addEdge {g e} : Performs g (.addEdge e) (g.addEdge e)
  | deleteNode {g n g'} (h : DeletesNode g n g') : Performs g (.deleteNode n) g'
  | deleteEdge {g e g'} (h : DeletesEdge g e g') : Performs g (.deleteEdge e) g'
  | removeNode {g n g'} (h : Removes g n g') : Performs g (.removeNode n) g'

/-- Performing operations in order. -/
inductive Runs : CountedGraph → List Operation → CountedGraph → Prop
  | done {g} : Runs g [] g
  | step {g op between rest g'} (h : Performs g op between) (hrest : Runs between rest g') :
      Runs g (op :: rest) g'

variable {g g' : CountedGraph} {n m : String} {k : Nat} {tasks : List Release}

section Release

/-- The graph after some references to a node are dropped. -/
def releaseNode (g : CountedGraph) (n : String) (k : Nat) : CountedGraph :=
  if n ∈ g.nodes then
    if g.nodeCount n ≤ k then g.removeNode n else { g with nodes := g.nodes.remove n k }
  else g

/-- Edges that come last are released last. -/
theorem release_append (tasks rest : List Release) :
    g.release (tasks ++ rest) = (g.release tasks).release rest := by
  fun_induction CountedGraph.release g tasks with
  | case1 g => rfl
  | case2 g task tasks edges hmem hlast smaller ih =>
      rw [← ih, List.append_assoc, List.cons_append, release, dif_pos hmem, if_pos hlast]
  | case3 g task tasks edges hmem hmore ih =>
      rw [← ih, List.cons_append, release, dif_pos hmem, if_neg hmore]
  | case4 g task tasks edges hmem ih =>
      rw [← ih, List.cons_append, release, dif_neg hmem]

/-- Edges are released one after the other. -/
theorem release_cons (task : Release) (rest : List Release) :
    g.release (task :: rest) =
      ((g.dropEdge task.edge).releaseNode task.other task.count).release rest := by
  rw [release, releaseNode]
  split
  · next hmem =>
      rw [if_pos (show task.other ∈ (g.dropEdge task.edge).nodes from hmem)]
      split
      · next hlast =>
          rw [if_pos (show (g.dropEdge task.edge).nodeCount task.other ≤ task.count from hlast),
            release_append]
          rfl
      · next hmore =>
          rw [if_neg (show ¬ (g.dropEdge task.edge).nodeCount task.other ≤ task.count from hmore)]
          rfl
  · next hmem =>
      rw [if_neg (show task.other ∉ (g.dropEdge task.edge).nodes from hmem)]
      rfl

theorem mem_of_mem_release : m ∈ (g.release tasks).nodes → m ∈ g.nodes := by
  fun_induction CountedGraph.release g tasks with
  | case1 g => exact id
  | case2 g task rest edges hmem hlast smaller ih =>
      exact fun h => Std.ExtTreeMap.mem_of_mem_erase (ih h)
  | case3 g task rest edges hmem hmore ih =>
      exact fun h => Counts.mem_of_mem_remove (ih h)
  | case4 g task rest edges hmem ih => exact ih

theorem size_release_le : (g.release tasks).nodes.size ≤ g.nodes.size := by
  fun_induction CountedGraph.release g tasks with
  | case1 g => exact Nat.le_refl _
  | case2 g task rest edges hmem hlast smaller ih =>
      exact ih.trans (Nat.le_of_lt (Counts.size_erase_lt hmem))
  | case3 g task rest edges hmem hmore ih => exact ih.trans (Counts.size_remove_le _ _ _)
  | case4 g task rest edges hmem ih => exact ih

theorem mem_of_mem_releaseNode (h : m ∈ (g.releaseNode n k).nodes) : m ∈ g.nodes := by
  rw [releaseNode] at h
  split at h
  · split at h
    · exact Std.ExtTreeMap.mem_of_mem_erase (mem_of_mem_release h)
    · exact Counts.mem_of_mem_remove h
  · exact h

theorem size_releaseNode_le : (g.releaseNode n k).nodes.size ≤ g.nodes.size := by
  rw [releaseNode]
  split
  · split
    · exact size_release_le.trans Std.ExtTreeMap.size_erase_le
    · exact Counts.size_remove_le _ _ _
  · exact Nat.le_refl _

theorem releaseNode_of_not_mem (hn : n ∉ g.nodes) : g.releaseNode n k = g := if_neg hn

/-- A removed node does not come back. -/
theorem not_mem_released {e : Edge} (hn : n ∉ g.nodes) :
    n ∉ ((g.dropEdge e).releaseNode m k).nodes :=
  fun h => hn (mem_of_mem_releaseNode (g := g.dropEdge e) h)

theorem not_mem_erase : n ∉ g.nodes.erase n := fun h =>
  (Std.ExtTreeMap.mem_erase.1 h).1 (Std.LawfulEqOrd.compare_eq_iff_eq.2 rfl)

theorem not_mem_removeNode : n ∉ (g.removeNode n).nodes := fun h =>
  not_mem_erase (mem_of_mem_release h)

end Release

section Removal

mutual

/-- The result of a removal is that of `removeNode`. -/
theorem Removes.eq : ∀ {g n g'}, Removes g n g' → g' = g.removeNode n
  | _, _, _, .intro h => h.eq not_mem_erase

/-- The result of releasing the edges of a removed node is that of `release`. -/
theorem Clears.eq : ∀ {n g tasks g'}, Clears n g tasks g' → n ∉ g.nodes → g' = g.release tasks
  | _, _, _, _, .done, _ => by rw [release]
  | _, g, _, _, @Clears.loop _ _ task _ _ hloop hrest, hn => by
      have hnone : task.other ∉ (g.dropEdge task.edge).nodes := hloop ▸ hn
      rw [release_cons, releaseNode_of_not_mem hnone]
      exact hrest.eq hn
  | _, _, _, _, .step _ h hrest, hn => by
      have hbetween := h.eq
      rw [release_cons, ← hbetween]
      exact hrest.eq (hbetween ▸ not_mem_released hn)

/-- The result of dropping references to a node is that of `releaseNode`. -/
theorem Releases.eq : ∀ {g n k g'}, Releases g n k g' → g' = g.releaseNode n k
  | _, _, _, _, .absent hn => by rw [releaseNode, if_neg hn]
  | _, _, _, _, .kept hk => by
      rw [releaseNode, if_pos (Counts.mem_of_count_pos (Nat.zero_lt_of_lt hk)),
        if_neg (Nat.not_le_of_lt hk), Counts.remove_of_lt hk]
      rfl
  | _, _, _, _, .last hn hk h => by
      rw [releaseNode, if_pos hn, if_pos hk]
      exact h.eq

end

/-- Edges of a removed node can be released, and each cascade of removals ends: the nodes become
fewer with every removal inside another one. -/
theorem clears_release (hn : n ∉ g.nodes) : Clears n g tasks (g.release tasks) := by
  induction hsize : g.nodes.size using Nat.strongRecOn generalizing g n tasks with
  | ind size ih =>
      have hle : g.nodes.size ≤ size := Nat.le_of_eq hsize
      clear hsize
      induction tasks generalizing g with
      | nil =>
          rw [release]
          exact .done
      | cons task rest ihrest =>
          rw [release_cons]
          have hnext := ihrest (g := (g.dropEdge task.edge).releaseNode task.other task.count)
            (not_mem_released hn) ((size_releaseNode_le (g := g.dropEdge task.edge)).trans hle)
          by_cases hloop : task.other = n
          · have hnone : task.other ∉ (g.dropEdge task.edge).nodes := hloop ▸ hn
            rw [releaseNode_of_not_mem hnone] at hnext ⊢
            exact .loop hloop hnext
          · refine .step hloop ?_ hnext
            rw [releaseNode]
            split
            · next hmem =>
                split
                · next hlast =>
                    have hless := Counts.size_erase_lt hmem
                    exact .last hmem hlast
                      (.intro (ih _ (Nat.lt_of_lt_of_le hless hle) not_mem_erase rfl))
                · next hmore =>
                    rw [Counts.remove_of_lt (Nat.lt_of_not_le hmore)]
                    exact .kept (Nat.lt_of_not_le hmore)
            · next hmem => exact .absent hmem

/-- A removal has exactly one result. -/
theorem removes_iff : Removes g n g' ↔ g' = g.removeNode n :=
  ⟨Removes.eq, fun h => h ▸ .intro (clears_release not_mem_erase)⟩

end Removal

section Deletion

variable {e : Edge}

theorem deleteNode_of_one (h : g.nodeCount n = 1) : g.deleteNode n = g.removeNode n := by
  have hn : n ∈ g.nodes := Counts.mem_of_count_pos (Nat.lt_of_lt_of_eq Nat.one_pos h.symm)
  have hcontains : g.containsNode n = true := Std.ExtTreeMap.mem_iff_contains.1 hn
  rw [deleteNode, if_pos hcontains, if_pos (Nat.le_of_eq h)]

theorem deleteNode_of_lt (h : 1 < g.nodeCount n) :
    g.deleteNode n = { g with nodes := g.nodes.insert n (g.nodeCount n - 1) } := by
  have hn : n ∈ g.nodes := Counts.mem_of_count_pos (Nat.zero_lt_of_lt h)
  have hcontains : g.containsNode n = true := Std.ExtTreeMap.mem_iff_contains.1 hn
  rw [deleteNode, if_pos hcontains, if_neg (Nat.not_le_of_lt h), Counts.remove_of_lt h]
  rfl

theorem DeletesNode.eq (h : DeletesNode g n g') : g' = g.deleteNode n := by
  cases h with
  | absent hn => exact (deleteNode_of_not_mem hn).symm
  | kept hmore => exact (deleteNode_of_lt hmore).symm
  | last hone hremoved => exact hremoved.eq.trans (deleteNode_of_one hone).symm

/-- A node can be deleted where what is there is counted. -/
theorem deletesNode_deleteNode (hg : g.Counted) (n : String) :
    DeletesNode g n (g.deleteNode n) := by
  by_cases hn : n ∈ g.nodes
  · have hpos : 0 < g.nodeCount n := hg.nodes n hn
    rcases Nat.lt_or_eq_of_le hpos with hmore | hone
    · exact deleteNode_of_lt hmore ▸ .kept hmore
    · exact .last hone.symm (removes_iff.2 (deleteNode_of_one hone.symm))
  · exact (deleteNode_of_not_mem hn).symm ▸ .absent hn

theorem deleteEdge_of_not_mem (h : e ∉ g.edges) : g.deleteEdge e = g := by
  rw [deleteEdge, if_neg]
  exact mt Std.ExtTreeMap.mem_iff_contains.2 h

theorem loosen_of_one (h : g.edgeCount e = 1) : g.loosen e = g.dropEdge e :=
  congrArg (CountedGraph.mk g.nodes) (Counts.remove_of_le (Nat.le_of_eq h))

theorem loosen_of_lt (h : 1 < g.edgeCount e) :
    g.loosen e = { g with edges := g.edges.insert e (g.edgeCount e - 1) } :=
  congrArg (CountedGraph.mk g.nodes) (Counts.remove_of_lt h)

theorem DeletesEdge.eq (h : DeletesEdge g e g') : g' = g.deleteEdge e := by
  cases h with
  | absent he => exact (deleteEdge_of_not_mem he).symm
  | kept hmore hsrc hdst =>
      have he : e ∈ g.edges := Counts.mem_of_count_pos (Nat.zero_lt_of_lt hmore)
      rw [deleteEdge_of_mem he, loosen_of_lt hmore, ← hsrc.eq]
      exact hdst.eq
  | last hone hsrc hdst =>
      have he : e ∈ g.edges := Counts.mem_of_count_pos (Nat.lt_of_lt_of_eq Nat.one_pos hone.symm)
      rw [deleteEdge_of_mem he, loosen_of_one hone, ← hsrc.eq]
      exact hdst.eq

/-- An edge can be deleted where what is there is counted. -/
theorem deletesEdge_deleteEdge (hg : g.Counted) (e : Edge) : DeletesEdge g e (g.deleteEdge e) := by
  by_cases he : e ∈ g.edges
  · have hloose : (g.loosen e).Counted := hg.loosen e
    have hsrc := deletesNode_deleteNode hloose e.src
    have hdst := deletesNode_deleteNode (hloose.deleteNode e.src) e.dst
    have hpos : 0 < g.edgeCount e := hg.edges e he
    rw [deleteEdge_of_mem he]
    rcases Nat.lt_or_eq_of_le hpos with hmore | hone
    · exact .kept hmore (loosen_of_lt hmore ▸ hsrc) hdst
    · exact .last hone.symm (loosen_of_one hone.symm ▸ hsrc) hdst
  · exact (deleteEdge_of_not_mem he).symm ▸ .absent he

end Deletion

section Runs

variable {op : Operation} {operations : List Operation}

theorem Performs.eq (h : Performs g op g') : g' = g.perform op := by
  cases h with
  | addNode | addEdge => rfl
  | deleteNode h => exact h.eq
  | deleteEdge h => exact h.eq
  | removeNode h => exact h.eq

theorem performs_perform (hg : g.Counted) (op : Operation) : Performs g op (g.perform op) := by
  cases op with
  | addNode n => exact .addNode
  | addEdge e => exact .addEdge
  | deleteNode n => exact .deleteNode (deletesNode_deleteNode hg n)
  | deleteEdge e => exact .deleteEdge (deletesEdge_deleteEdge hg e)
  | removeNode n => exact .removeNode (removes_iff.2 rfl)

theorem Counted.perform (hg : g.Counted) (op : Operation) : (g.perform op).Counted := by
  cases op with
  | addNode n => exact hg.addNode n
  | addEdge e => exact hg.addEdge e
  | deleteNode n => exact hg.deleteNode n
  | deleteEdge e => exact hg.deleteEdge e
  | removeNode n => exact hg.removeNode n

theorem Counted.run (hg : g.Counted) (operations : List Operation) :
    (operations.foldl CountedGraph.perform g).Counted := by
  induction operations generalizing g with
  | nil => exact hg
  | cons op rest ih => exact ih (hg.perform op)

theorem Runs.eq (h : Runs g operations g') : g' = operations.foldl CountedGraph.perform g := by
  induction h with
  | done => rfl
  | step h _ ih => rw [ih, h.eq, List.foldl_cons]

/-- Operations can be performed in order where what is there is counted. -/
theorem runs_foldl (hg : g.Counted) (operations : List Operation) :
    Runs g operations (operations.foldl CountedGraph.perform g) := by
  induction operations generalizing g with
  | nil => exact .done
  | cons op rest ih => exact .step (performs_perform hg op) (ih (hg.perform op))

/-- Whatever operations are performed on the empty graph, all nodes and edges that are left are
counted, both ends of every edge are nodes, and no operation lessens a count of zero: all of them
are carried out, with one result. Removals have exactly one result on every graph. -/
theorem wellFormed_ofOperations (operations : List Operation) :
    (ofOperations operations).Counted ∧ (ofOperations operations).Closed ∧
      (∀ g, Runs {} operations g ↔ g = ofOperations operations) ∧
      ∀ g n, ∃! g', Removes g n g' := by
  refine ⟨Counted.empty.run operations, closed_ofOperations operations, fun g => ?_, fun g n => ?_⟩
  · exact ⟨Runs.eq, fun h => h ▸ runs_foldl .empty operations⟩
  · exact ⟨g.removeNode n, removes_iff.2 rfl, fun g' h => h.eq⟩

end Runs

end CountedGraph

end DatalogPolicy

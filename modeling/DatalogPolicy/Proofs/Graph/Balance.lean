import DatalogPolicy.Proofs.Graph.Execution

/-!
# Balanced graphs

When nodes are removed outright, later deletions drop references that are not there any
more. No node ever has more references than the explicit ones and those of its edges, and
of the nodes that have not been removed outright each has exactly as many: whatever goes
away with another node, the edges to it take along just what they hold.
-/

namespace DatalogPolicy

namespace Counts

variable {α : Type} [Ord α] [Std.TransOrd α] [Std.LawfulEqOrd α] [DecidableEq α] (c : Counts α)
  (x : α)

theorem items_erase_add : items (c.erase x) + Multiset.replicate (c.count x) x = c.items := by
  ext y
  rw [Multiset.count_add, count_items, count_items, Multiset.count_replicate, count_erase]
  split
  · next hxy => rw [hxy, Nat.zero_add]
  · rfl

theorem items_add_one : (c.add x 1).items = x ::ₘ c.items := by
  ext y
  rw [count_items, count_add, Multiset.count_cons, count_items]
  simp only [eq_comm]

theorem cons_items_remove_one {c : Counts α} {x : α} (h : 0 < c.count x) :
    x ::ₘ (c.remove x 1).items = c.items := by
  ext y
  rw [Multiset.count_cons, count_items, count_items, count_remove]
  by_cases hxy : x = y
  · subst hxy
    simp only [if_true]
    omega
  · simp only [if_neg hxy, if_neg (Ne.symm hxy), Nat.sub_zero, Nat.add_zero]

end Counts

namespace CountedGraph

variable {S : Set String} {g : CountedGraph} {N : Multiset String} {n m : String} {e : Edge}
  {task : Release} {tasks : List Release}

section Held

/-- How many references to a node the edges hold. -/
def held (g : CountedGraph) (n : String) : Nat := (ends g.edges.items).count n

theorem held_dropEdge (e : Edge) (n : String) :
    (g.dropEdge e).held n + g.edgeCount e * touches e n = g.held n := by
  rw [held, held, ← Counts.items_erase_add g.edges e, count_ends_add, count_ends_replicate]
  rfl

theorem count_ends_cons (e : Edge) (E : Multiset Edge) (n : String) :
    (ends (e ::ₘ E)).count n = (ends E).count n + touches e n := by
  rw [← Multiset.singleton_add, count_ends_add, ← Multiset.replicate_one, count_ends_replicate,
    Nat.one_mul, Nat.add_comm]

theorem held_addEdge (e : Edge) (n : String) : (g.addEdge e).held n = g.held n + touches e n := by
  rw [held, held, ← count_ends_cons, ← Counts.items_add_one]
  rfl

theorem held_loosen (he : 0 < g.edgeCount e) (n : String) :
    (g.loosen e).held n + touches e n = g.held n := by
  rw [held, held, ← count_ends_cons, loosen, Counts.cons_items_remove_one he]

/-- No edge touches a node to which the edges hold no references. -/
theorem untouched_of_held (hg : g.Counted) (h : g.held n = 0) :
    ∀ e ∈ g.edges, e.src ≠ n ∧ e.dst ≠ n := by
  intro e he
  have hitem : e ∈ g.edges.items := by
    rw [← Multiset.count_pos, Counts.count_items]
    exact hg.edges e he
  have hnone : n ∉ ends g.edges.items := Multiset.count_eq_zero.1 h
  exact ⟨fun hs => hnone (hs ▸ src_mem_ends hitem), fun hd => hnone (hd ▸ dst_mem_ends hitem)⟩

theorem nodeCount_addNode (n m : String) :
    (g.addNode n).nodeCount m = g.nodeCount m + if n = m then 1 else 0 :=
  Counts.count_add g.nodes n m 1

theorem nodeCount_addEdge (e : Edge) (n : String) :
    (g.addEdge e).nodeCount n = g.nodeCount n + touches e n := by
  have hnodes : (g.addEdge e).nodeCount n = ((g.addNode e.src).addNode e.dst).nodeCount n := rfl
  rw [hnodes, nodeCount_addNode, nodeCount_addNode, touches, Nat.add_assoc]

/-- How often a node is there with one more reference to another one. -/
theorem count_cons_node (N : Multiset String) (n m : String) :
    (n ::ₘ N).count m = N.count m + if n = m then 1 else 0 := by
  rw [Multiset.count_cons]
  simp only [eq_comm]

end Held

/-- No node has more references than the explicit ones `N` and those of its edges, and the nodes in
`S` have exactly as many. -/
structure Balanced (S : Set String) (g : CountedGraph) (N : Multiset String) : Prop where
  le : ∀ n, g.nodeCount n ≤ N.count n + g.held n
  ge : ∀ n ∈ S, N.count n + g.held n ≤ g.nodeCount n

/-- An edge that is about to be released leads from a node that is gone to another one, of which it
gives back what it holds. -/
structure Due (S : Set String) (g : CountedGraph) (task : Release) : Prop where
  ends : ∃ gone, gone ∉ S ∧ gone ∉ g.nodes ∧
    (task.edge.src = gone ∧ task.edge.dst = task.other ∨
      task.edge.dst = gone ∧ task.edge.src = task.other)
  count_le : g.edgeCount task.edge ≤ task.count
  count_eq : task.other ∈ S → g.edgeCount task.edge = task.count

section Release

/-- An edge that is released later is another one, if it leads to a node in `S`. -/
def ReleasedApart (S : Set String) (a b : Release) : Prop := b.other ∈ S → a.edge ≠ b.edge

theorem Due.settle (h : Due S g task) {nodes : Counts String}
    (hnodes : ∀ n ∈ nodes, n ∈ g.nodes) (hne : task.other ∈ S → e ≠ task.edge) :
    Due S { nodes, edges := g.edges.erase e } task := by
  obtain ⟨⟨gone, hS, hgone, hends⟩, hle, heq⟩ := h
  have hcount : Counts.count (g.edges.erase e) task.edge =
      if e = task.edge then 0 else g.edgeCount task.edge := Counts.count_erase _ _ _
  refine ⟨⟨gone, hS, fun hmem => hgone (hnodes gone hmem), hends⟩, ?_, fun hother => ?_⟩
  · refine Nat.le_trans (Nat.le_of_eq hcount) ?_
    split
    · exact Nat.zero_le _
    · exact hle
  · exact hcount.trans ((if_neg (hne hother)).trans (heq hother))

/-- Releasing an edge and its references to the other end keeps the balance. -/
theorem Balanced.settle (h : Balanced S g N) (ht : Due S g task) {nodes : Counts String}
    (hnodes : ∀ n, nodes.count n = g.nodeCount n - if task.other = n then task.count else 0) :
    Balanced S { nodes, edges := g.edges.erase task.edge } N := by
  obtain ⟨⟨gone, hS, hgone, hends⟩, hle, heq⟩ := ht
  have hheld (n : String) : held { nodes, edges := g.edges.erase task.edge } n +
      g.edgeCount task.edge * touches task.edge n = g.held n := held_dropEdge task.edge n
  have htouches {n : String} (hn : n ≠ gone) :
      touches task.edge n = if task.other = n then 1 else 0 := by
    rcases hends with ⟨hsrc, hdst⟩ | ⟨hdst, hsrc⟩
    · rw [touches, hsrc, hdst, if_neg hn.symm, Nat.zero_add]
    · rw [touches, hsrc, hdst, if_neg hn.symm, Nat.add_zero]
  constructor
  · intro n
    refine Nat.le_trans (Nat.le_of_eq (hnodes n)) ?_
    by_cases hn : n = gone
    · have hzero : g.nodeCount n = 0 := Counts.count_eq_zero_of_not_mem (hn ▸ hgone)
      rw [hzero, Nat.zero_sub]
      exact Nat.zero_le _
    · have hn' := hheld n
      have hbound := h.le n
      rw [htouches hn] at hn'
      by_cases hother : task.other = n
      · rw [if_pos hother] at hn' ⊢
        omega
      · rw [if_neg hother] at hn' ⊢
        omega
  · intro n hn
    refine Nat.le_trans ?_ (Nat.le_of_eq (hnodes n).symm)
    have hn' := hheld n
    have hbound := h.ge n hn
    rw [htouches fun heq => hS (heq ▸ hn)] at hn'
    by_cases hother : task.other = n
    · rw [if_pos hother, heq (hother ▸ hn)] at hn'
      rw [if_pos hother]
      omega
    · rw [if_neg hother] at hn' ⊢
      omega

/-- An edge that goes away with a node leads from it to the other end, and is counted as often as
it says. -/
theorem of_mem_incident (h : task ∈ g.incident n) : g.edgeCount task.edge = task.count ∧
    (task.edge.src = n ∧ task.edge.dst = task.other ∨
      task.edge.dst = n ∧ task.edge.src = task.other) := by
  obtain ⟨⟨e, k⟩, he, htask⟩ := List.mem_filterMap.1 h
  have hcount : g.edgeCount e = k := by
    rw [Std.ExtTreeMap.mem_toList_iff_getElem?_eq_some] at he
    rw [edgeCount, Counts.count, Std.ExtTreeMap.getD_eq_getD_getElem?, he, Option.getD_some]
  dsimp only at htask
  split at htask
  · next hsrc =>
      cases htask
      exact ⟨hcount, .inl ⟨hsrc, rfl⟩⟩
  · split at htask
    · next hdst =>
        cases htask
        exact ⟨hcount, .inr ⟨hdst, rfl⟩⟩
    · cases htask

/-- Every edge goes away with a node once. -/
theorem pairwise_incident : (g.incident n).Pairwise fun a b => a.edge ≠ b.edge := by
  have hedge {p : Edge × Nat} {task : Release} (h : (if p.1.src = n then
      some (Release.mk p.1 p.1.dst p.2) else if p.1.dst = n then some ⟨p.1, p.1.src, p.2⟩
      else none) = some task) : task.edge = p.1 := by
    split at h
    · cases h
      rfl
    · split at h <;> cases h
      rfl
  rw [incident, List.pairwise_filterMap]
  refine Std.ExtTreeMap.distinct_keys_toList.imp fun {p q} hpq a ha b hb heq => ?_
  rw [hedge ha, hedge hb] at heq
  exact hpq (Std.LawfulEqOrd.compare_eq_iff_eq.2 heq)

theorem apart_incident : (g.incident n).Pairwise (ReleasedApart S) :=
  pairwise_incident.imp fun hne => fun _ => hne

/-- The edges of a node that is gone are due. -/
theorem due_incident (hS : n ∉ S) (hn : n ∉ g.nodes) : ∀ t ∈ g.incident n, Due S g t := by
  intro t ht
  obtain ⟨hcount, hends⟩ := of_mem_incident ht
  exact ⟨⟨n, hS, hn, hends⟩, Nat.le_of_eq hcount, fun _ => hcount⟩

/-- The edges of a node that is still there are not yet due, if they lead to a node in `S`. -/
theorem Due.apart {g' : CountedGraph} {t : Release} (h : Due S g t) (hS : n ∉ S) (hn : n ∈ g.nodes)
    (htask : task ∈ g'.incident n) : ReleasedApart S task t := by
  obtain ⟨⟨gone, -, hgone, hends⟩, -, -⟩ := h
  intro hother heq
  have hgone : gone ≠ n := fun h => hgone (h ▸ hn)
  have hother : t.other ≠ n := fun h => hS (h ▸ hother)
  obtain ⟨-, hends'⟩ := of_mem_incident htask
  rw [heq] at hends'
  rcases hends with ⟨hsrc, hdst⟩ | ⟨hdst, hsrc⟩ <;> rcases hends' with ⟨h, -⟩ | ⟨h, -⟩
  · exact hgone (hsrc.symm.trans h)
  · exact hother (hdst.symm.trans h)
  · exact hother (hsrc.symm.trans h)
  · exact hgone (hdst.symm.trans h)

/-- A removal keeps the balance while the edges of the nodes that are gone are released. -/
theorem Balanced.release (h : Balanced S g N) (hg : g.Counted) (hdue : ∀ t ∈ tasks, Due S g t)
    (hapart : tasks.Pairwise (ReleasedApart S)) : Balanced S (g.release tasks) N := by
  fun_induction CountedGraph.release g tasks with
  | case1 g => exact h
  | case2 g task rest edges hmem hlast smaller ih =>
      obtain ⟨hfirst, hrest⟩ := List.forall_mem_cons.1 hdue
      obtain ⟨hne, hapart⟩ := List.pairwise_cons.1 hapart
      have hsmaller : Balanced S smaller N := by
        refine h.settle hfirst fun n => ?_
        rw [Counts.count_erase]
        split
        · next heq =>
            subst heq
            exact (Nat.sub_eq_zero_of_le hlast).symm
        · rfl
      have hcounted : smaller.Counted := ⟨hg.nodes.erase, hg.edges.erase⟩
      have hdue : ∀ t ∈ rest, Due S smaller t := fun t ht =>
        (hrest t ht).settle (fun n hn => Std.ExtTreeMap.mem_of_mem_erase hn) (hne t ht)
      by_cases hS : task.other ∈ S
      · -- the node is in `S`, and has no reference left: no edge touches it
        have hzero : smaller.held task.other = 0 := by
          have hcount : smaller.nodeCount task.other = 0 :=
            (Counts.count_erase _ _ _).trans (if_pos rfl)
          have hge := hsmaller.ge _ hS
          omega
        have hnone := incident_of_untouched (untouched_of_held hcounted hzero)
        rw [hnone] at ih ⊢
        exact ih hsmaller hcounted hdue hapart
      · refine ih hsmaller hcounted (fun t ht => ?_) (List.pairwise_append.2 ⟨?_, hapart, ?_⟩)
        · exact (List.mem_append.1 ht).elim (due_incident hS not_mem_erase t) (hdue t)
        · exact apart_incident
        · exact fun a ha b hb => (hrest b hb).apart hS hmem ha
  | case3 g task rest edges hmem hmore ih =>
      obtain ⟨hfirst, hrest⟩ := List.forall_mem_cons.1 hdue
      obtain ⟨hne, hapart⟩ := List.pairwise_cons.1 hapart
      refine ih ?_ ⟨hg.nodes.remove _, hg.edges.erase⟩ (fun t ht => ?_) hapart
      · exact h.settle hfirst fun n => Counts.count_remove _ _ _ _
      · exact (hrest t ht).settle (fun n hn => Counts.mem_of_mem_remove hn) (hne t ht)
  | case4 g task rest edges hmem ih =>
      obtain ⟨hfirst, hrest⟩ := List.forall_mem_cons.1 hdue
      obtain ⟨hne, hapart⟩ := List.pairwise_cons.1 hapart
      refine ih ?_ ⟨hg.nodes, hg.edges.erase⟩ (fun t ht => ?_) hapart
      · refine h.settle hfirst fun n => ?_
        split
        · next heq =>
            subst heq
            have hzero : g.nodeCount task.other = 0 := Counts.count_eq_zero_of_not_mem hmem
            exact hzero.trans (by rw [hzero, Nat.zero_sub])
        · rfl
      · exact (hrest t ht).settle (fun n hn => hn) (hne t ht)

end Release

namespace Balanced

theorem empty (S : Set String) : Balanced S {} 0 := by
  have hnodes (n : String) : nodeCount {} n = 0 := Counts.count_empty n
  have hheld (n : String) : held {} n = 0 := by
    rw [held, show Counts.items (CountedGraph.edges {}) = 0 from Counts.Holds.empty.items_eq]
    rfl
  constructor
  · intro n
    rw [hnodes, hheld]
    exact Nat.zero_le _
  · intro n _
    rw [hnodes, hheld]
    exact Nat.le_refl _

/-- A node that goes keeps the balance of the others. -/
theorem eraseNode {N' : Multiset String} (h : Balanced S g N') (hS : n ∉ S)
    (hN : ∀ m, m ≠ n → N'.count m = N.count m) :
    Balanced S { g with nodes := g.nodes.erase n } N := by
  have hcount (m : String) : nodeCount { g with nodes := g.nodes.erase n } m =
      if n = m then 0 else g.nodeCount m := Counts.count_erase _ _ _
  constructor
  · intro m
    rw [hcount]
    split
    · exact Nat.zero_le _
    · next hne => exact hN m (Ne.symm hne) ▸ h.le m
  · intro m hm
    have hne : n ≠ m := fun heq => hS (heq ▸ hm)
    rw [hcount, if_neg hne]
    exact hN m hne.symm ▸ h.ge m hm

/-- Removing a node outright keeps the balance of the others. -/
theorem removeNode {N' : Multiset String} (h : Balanced S g N') (hg : g.Counted) (hS : n ∉ S)
    (hN : ∀ m, m ≠ n → N'.count m = N.count m) : Balanced S (g.removeNode n) N :=
  (h.eraseNode hS hN).release ⟨hg.nodes.erase, hg.edges⟩ (due_incident hS not_mem_erase)
    apart_incident

theorem addNode (h : Balanced S g N) (n : String) : Balanced S (g.addNode n) (n ::ₘ N) := by
  constructor
  · intro m
    have hm := h.le m
    have hheld : (g.addNode n).held m = g.held m := rfl
    rw [nodeCount_addNode, count_cons_node, hheld]
    omega
  · intro m hm
    have hm := h.ge m hm
    have hheld : (g.addNode n).held m = g.held m := rfl
    rw [nodeCount_addNode, count_cons_node, hheld]
    omega

theorem addEdge (h : Balanced S g N) (e : Edge) : Balanced S (g.addEdge e) N := by
  constructor
  · intro m
    have hm := h.le m
    rw [nodeCount_addEdge, held_addEdge]
    omega
  · intro m hm
    have hm := h.ge m hm
    rw [nodeCount_addEdge, held_addEdge]
    omega

/-- Deleting an explicit reference keeps the balance, whether or not the reference is there. -/
theorem deleteNode (h : Balanced S g (n ::ₘ N)) (hg : g.Counted) :
    Balanced S (g.deleteNode n) N := by
  by_cases hn : n ∈ g.nodes
  · by_cases hdrops : g.Drops n
    · rw [hdrops.deleteNode_eq]
      have hnodes (m : String) : nodeCount { g with nodes := g.nodes.remove n 1 } m =
          g.nodeCount m - if n = m then 1 else 0 := Counts.count_remove g.nodes n m 1
      have hheld (m : String) : held { g with nodes := g.nodes.remove n 1 } m = g.held m := rfl
      constructor
      · intro m
        have hm := h.le m
        rw [count_cons_node] at hm
        rw [hnodes, hheld]
        omega
      · intro m hm
        have hm := h.ge m hm
        rw [count_cons_node] at hm
        rw [hnodes, hheld]
        omega
    · obtain ⟨hlast, htouched⟩ := not_or.1 (not_and.1 hdrops hn)
      have hpos : 0 < g.nodeCount n := hg.nodes n hn
      have hone : g.nodeCount n = 1 := Nat.le_antisymm (Nat.le_of_not_lt hlast) hpos
      have hS : n ∉ S := by
        intro hS
        -- the only reference is the explicit one, so no edge holds any
        have hge := h.ge n hS
        rw [count_cons_node, if_pos rfl, hone] at hge
        exact htouched (untouched_of_held hg (by omega))
      rw [deleteNode_of_one hone]
      refine h.removeNode hg hS fun m hne => ?_
      rw [count_cons_node, if_neg hne.symm, Nat.add_zero]
  · rw [deleteNode_of_not_mem hn]
    constructor
    · intro m
      have hm := h.le m
      rw [count_cons_node] at hm
      by_cases heq : n = m
      · have hzero : g.nodeCount m = 0 := Counts.count_eq_zero_of_not_mem (heq ▸ hn)
        rw [hzero]
        exact Nat.zero_le _
      · rwa [if_neg heq] at hm
    · intro m hm
      have hm := h.ge m hm
      rw [count_cons_node] at hm
      omega

/-- What an edge held counts as explicit references until these are deleted as well. -/
theorem loosen (h : Balanced S g N) (he : 0 < g.edgeCount e) :
    Balanced S (g.loosen e) (e.src ::ₘ e.dst ::ₘ N) := by
  have hcount (m : String) :
      (e.src ::ₘ e.dst ::ₘ N).count m = N.count m + touches e m := by
    rw [count_cons_node, count_cons_node, touches]
    omega
  have hnodes (m : String) : (g.loosen e).nodeCount m = g.nodeCount m := rfl
  constructor
  · intro m
    have hm := h.le m
    have hheld := held_loosen he m
    rw [hcount, hnodes]
    omega
  · intro m hm
    have hm := h.ge m hm
    have hheld := held_loosen he m
    rw [hcount, hnodes]
    omega

theorem deleteEdge (h : Balanced S g N) (hg : g.Counted) (e : Edge) :
    Balanced S (g.deleteEdge e) N := by
  by_cases he : e ∈ g.edges
  · rw [deleteEdge_of_mem he]
    have hloose := hg.loosen e
    exact ((h.loosen (hg.edges e he)).deleteNode hloose).deleteNode (hloose.deleteNode e.src)
  · rwa [deleteEdge_of_not_mem he]

end Balanced

end CountedGraph

end DatalogPolicy

import DatalogPolicy.Proofs.Dependency.Changes
import DatalogPolicy.Proofs.Graph.Undo

/-!
# Undoing updates

Undoing a log restores the graph when every deletion, at its turn, drops references that
are there and nothing else. In particular it does so for insertions, and for deletions of
formulas that are in the graph. A change by itself is undone in no other case: what a
deletion does not find is ignored, but inserted when the deletion is undone, and what goes
away with the last reference to a table does not come back with the table.
-/

namespace DatalogPolicy.DependencyGraph

/-- The graphs that come out of empty ones by updates, replayed logs and deletions of tables. -/
inductive Reachable : DependencyGraph → Prop
  | empty (headToBody : Bool) : Reachable { headToBody }
  | update {d} (h : Reachable d) (selection : Selection) (events : List Event) :
      Reachable (d.update selection events).1
  | undo {d} (h : Reachable d) {log : List GraphChange}
      (hlog : ∀ change ∈ log, change.Counted) : Reachable (d.undo log)
  | deleteTable {d} (h : Reachable d) (table : String) : Reachable (d.deleteTable table)

/-- A change can be taken back: a deletion finds what it names, and drops nothing else. -/
def TakesBack (d : DependencyGraph) : GraphChange → Prop
  | .node false n => d.graph.Drops n
  | .edge false e => d.graph.DropsEdge e
  | .modals false m => ∀ p, m.counts.count p ≤ d.modals.counts.count p
  | _ => True

/-- Each change of a log can be taken back at its turn. -/
def TakesAllBack (d : DependencyGraph) : List GraphChange → Prop
  | [] => True
  | change :: rest => d.TakesBack change ∧ TakesAllBack (d.apply change) rest

section Changes

variable {d : DependencyGraph} {change : GraphChange} {log : List GraphChange}

theorem counted_invert (h : change.Counted) : (invert change).Counted := by
  cases change <;> exact h

theorem Reachable.wellFormed (h : d.Reachable) : d.WellFormed := by
  induction h with
  | empty headToBody => exact .empty headToBody
  | update _ selection events ih => exact ih.applyAll (counted_changesOf _ selection events)
  | undo _ hlog ih =>
      apply ih.applyAll
      intro change hchange
      obtain ⟨c, hc, rfl⟩ := List.mem_map.1 hchange
      exact counted_invert (hlog c (List.mem_reverse.1 hc))
  | deleteTable _ table ih =>
      exact ⟨ih.closed.removeNode table, ih.counted.removeNode table, ih.modals⟩

/-- Tables under modals that have been added can be dropped again. -/
theorem diff_union {a b : ModalIndex} (ha : a.counts.Positive) (hb : b.counts.Positive) :
    (a.union b).diff b = a := by
  have hheld := ((Counts.Holds.of_positive ha).union (.of_positive hb)).diff (.of_positive hb)
  rw [add_tsub_cancel_right] at hheld
  exact congrArg ModalIndex.mk (hheld.unique (.of_positive ha))

/-- Tables under modals that have been dropped can be added again just when all were there. -/
theorem union_diff_iff {a b : ModalIndex} (ha : a.counts.Positive) (hb : b.counts.Positive) :
    (a.diff b).union b = a ↔ ∀ p, b.counts.count p ≤ a.counts.count p := by
  have hcount (p : ModalTable) : ((a.diff b).union b).counts.count p =
      a.counts.count p - b.counts.count p + b.counts.count p :=
    (Counts.count_union (ha.diff hb) hb p).trans (by rw [Counts.count_diff ha hb])
  constructor
  · intro heq p
    have hp := hcount p
    rw [heq] at hp
    omega
  · intro hle
    refine congrArg ModalIndex.mk (((ha.diff hb).union hb).ext ha fun p => (hcount p).trans ?_)
    exact Nat.sub_add_cancel (hle p)

/-- Undoing a change restores the graph just when the change can be taken back. -/
theorem WellFormed.apply_invert_iff (h : d.WellFormed) (hchange : change.Counted) :
    (d.apply change).apply (invert change) = d ↔ d.TakesBack change := by
  obtain ⟨g, modals, headToBody⟩ := d
  have hgraph (g' : CountedGraph) :
      DependencyGraph.mk g' modals headToBody = ⟨g, modals, headToBody⟩ ↔ g' = g := by
    rw [mk.injEq, and_iff_left ⟨rfl, rfl⟩]
  have hmodals (m : ModalIndex) :
      DependencyGraph.mk g m headToBody = ⟨g, modals, headToBody⟩ ↔ m = modals := by
    rw [mk.injEq, and_iff_left rfl, and_iff_right rfl]
  cases change with
  | node insert n =>
      cases insert with
      | true =>
          have hundone := CountedGraph.deleteNode_addNode h.closed h.counted n
          exact iff_of_true ((hgraph _).2 hundone) trivial
      | false => exact (hgraph _).trans (CountedGraph.addNode_deleteNode_iff h.counted)
  | edge insert e =>
      cases insert with
      | true =>
          have hundone := CountedGraph.deleteEdge_addEdge h.closed h.counted e
          exact iff_of_true ((hgraph _).2 hundone) trivial
      | false => exact (hgraph _).trans (CountedGraph.addEdge_deleteEdge_iff h.closed h.counted)
  | modals insert m =>
      cases insert with
      | true => exact iff_of_true ((hmodals _).2 (diff_union h.modals hchange)) trivial
      | false => exact (hmodals _).trans (union_diff_iff h.modals hchange)

/-- Undoing a log restores the graph when each change can be taken back at its turn. -/
theorem WellFormed.undo_applyAll (h : d.WellFormed) (hlog : ∀ change ∈ log, change.Counted)
    (hback : d.TakesAllBack log) : (d.applyAll log).undo log = d := by
  induction log generalizing d with
  | nil => rfl
  | cons change rest ih =>
      obtain ⟨hchange, hrest⟩ := List.forall_mem_cons.1 hlog
      -- the first change is undone last, in the graph that it led to
      have hlast : (d.applyAll (change :: rest)).undo (change :: rest) =
          (((d.apply change).applyAll rest).undo rest).apply (invert change) := by
        simp only [undo, DependencyGraph.applyAll, List.reverse_cons, List.map_append,
          List.foldl_append, List.foldl_cons, List.map_cons, List.map_nil, List.foldl_nil]
      rw [hlast, ih (h.apply hchange) hrest hback.2]
      exact (h.apply_invert_iff hchange).2 hback.1

/-- Undoing an update restores the graph when each deletion drops references that are there and
nothing else. -/
theorem undo_update (h : d.Reachable) (selection : Selection) (events : List Event)
    (hback : d.TakesAllBack (d.update selection events).2) :
    (d.update selection events).1.undo (d.update selection events).2 = d :=
  h.wellFormed.undo_applyAll (counted_changesOf d selection events) hback

end Changes

section Backed

variable {d : DependencyGraph} {N : Multiset String} {E : Multiset Edge} {M : Multiset ModalTable}

theorem takesAllBack_append {xs ys : List GraphChange} : d.TakesAllBack (xs ++ ys) ↔
    d.TakesAllBack xs ∧ (d.applyAll xs).TakesAllBack ys := by
  induction xs generalizing d with
  | nil => exact (and_iff_right trivial).symm
  | cons change rest ih =>
      rw [List.cons_append, TakesAllBack, TakesAllBack, ih, and_assoc]
      rfl

theorem takesAllBack_insert (c : Contribution) : d.TakesAllBack (changes true c) := by
  have hinsert (log : List GraphChange) (hlog : ∀ d change, change ∈ log → TakesBack d change) :
      d.TakesAllBack log := by
    induction log generalizing d with
    | nil => trivial
    | cons change rest ih =>
        exact ⟨hlog d change List.mem_cons_self, ih fun d c hc => hlog d c (List.mem_cons_of_mem _ hc)⟩
  apply hinsert
  intro d change hchange
  rw [changes, List.mem_append, List.mem_append, List.mem_map, List.mem_map,
    List.mem_singleton] at hchange
  rcases hchange with (⟨n, -, rfl⟩ | ⟨e, -, rfl⟩) | rfl <;> trivial

namespace Accounts

theorem takesAllBack_nodes {ns : List String} (h : Accounts d (↑ns + N) E M) :
    d.TakesAllBack (ns.map (.node false)) := by
  induction ns generalizing d with
  | nil => trivial
  | cons n rest ih =>
      rw [← Multiset.cons_coe, Multiset.cons_add] at h
      have hstep := h.graph.deleteNode (Multiset.mem_cons_self n _)
      rw [Multiset.erase_cons_head] at hstep
      exact ⟨h.graph.drops (Multiset.mem_cons_self n _), ih ⟨hstep, h.modals⟩⟩

theorem takesAllBack_edges {es : List Edge} (h : Accounts d N (↑es + E) M) :
    d.TakesAllBack (es.map (.edge false)) := by
  induction es generalizing d with
  | nil => trivial
  | cons e rest ih =>
      rw [← Multiset.cons_coe, Multiset.cons_add] at h
      have hstep := h.graph.deleteEdge (Multiset.mem_cons_self e _)
      rw [Multiset.erase_cons_head] at hstep
      exact ⟨h.graph.dropsEdge (Multiset.mem_cons_self e _), ih ⟨hstep, h.modals⟩⟩

/-- The deletion of a contribution that is accounted for can be taken back. -/
theorem takesAllBack_delete {c : Contribution}
    (h : Accounts d (↑c.nodes + N) (↑c.edges + E) (c.modals.counts.items + M)) :
    d.TakesAllBack (changes false c) := by
  rw [changes, takesAllBack_append, takesAllBack_append]
  refine ⟨⟨h.takesAllBack_nodes, h.deleteNodes.takesAllBack_edges⟩, ?_, trivial⟩
  intro p
  have hheld := h.deleteNodes.deleteEdges.modals.count_eq p
  rw [Multiset.count_add, Counts.count_items] at hheld
  rw [applyAll, List.foldl_append]
  exact (Nat.le_add_right _ _).trans_eq hheld.symm

end Accounts

variable {headToBody : Bool} {selection : Selection} {kept : List Entry} {events : List Event}

/-- Deletions of formulas that are in the graph can be taken back. -/
theorem Maintains.takesAllBack (hs : selection.Respects)
    (h : Maintains headToBody selection d kept) (hb : Backed kept events) :
    d.TakesAllBack (d.update selection events).2 := by
  have hlog : (d.update selection events).2 = events.flatMap fun e =>
      changes e.insert (entryContribution headToBody selection (e.formula, e.target)) := by
    rw [DependencyGraph.update, changesOf, h.headToBody_eq]
    rfl
  rw [hlog]
  clear hlog
  induction events generalizing d kept with
  | nil => trivial
  | cons e rest ih =>
      rw [List.flatMap_cons, takesAllBack_append]
      refine ⟨?_, ih (h.step hs hb.1) hb.2⟩
      cases hinsert : e.insert with
      | true => exact takesAllBack_insert _
      | false =>
          have haccounts := h.accounts
          rw [total_erase (fun _ _ => entryNodes_congr hs) (hb.1 hinsert),
            total_erase (fun _ _ => entryEdges_congr hs) (hb.1 hinsert),
            total_erase (fun _ _ => entryModals_congr hs) (hb.1 hinsert)] at haccounts
          exact haccounts.takesAllBack_delete

theorem Reachable.maintain (headToBody : Bool) (selection : Selection)
    (updates : List (List Event)) : (maintain headToBody selection updates).Reachable := by
  have hfold (d : DependencyGraph) (h : d.Reachable) :
      (updates.foldl (fun d events => (d.update selection events).1) d).Reachable := by
    induction updates generalizing d with
    | nil => exact h
    | cons events rest ih => exact ih _ (h.update selection events)
  exact hfold _ (.empty headToBody)

/-- Updates that only delete what has been inserted are undone exactly. -/
theorem undo_of_backed (hs : selection.Respects) {updates : List (List Event)}
    (hb : Backed [] (updates.flatten ++ events)) :
    let d := maintain headToBody selection updates
    (d.update selection events).1.undo (d.update selection events).2 = d := by
  intro d
  rw [backed_append] at hb
  have hkept : Maintains headToBody selection d (outstanding updates.flatten) :=
    maintains_empty.updates hs hb.1
  exact (Reachable.maintain headToBody selection updates).wellFormed.undo_applyAll
    (counted_changesOf d selection events) (hkept.takesAllBack hs hb.2)

end Backed

/-- One of the loops that have been inserted is deleted, and another one is inserted. -/
def replacedLoop : List Event :=
  [{ formula := pairRule ["q"], insert := false }, { formula := pairRule ["p"], insert := true }]

theorem undo_replacedLoop :
    let d := maintain true {} loopUpdates
    d.Reachable ∧ d.TakesAllBack (d.update {} replacedLoop).2 ∧
      (d.update {} replacedLoop).1.undo (d.update {} replacedLoop).2 = d := by
  intro d
  have hs : Selection.Respects {} := Selection.respects_default true
  have hb : Backed [] loopUpdates.flatten := backed_loopUpdates
  have hkept : Maintains true {} d (outstanding loopUpdates.flatten) := maintains_empty.updates hs hb
  have hd : d.Reachable := .maintain true {} loopUpdates
  have hback : d.TakesAllBack (d.update {} replacedLoop).2 :=
    hkept.takesAllBack hs ⟨fun _ => by cbv, by rintro ⟨⟩, trivial⟩
  exact ⟨hd, hback, undo_update hd {} replacedLoop hback⟩

/-- The deletion of a fact over a table with one column. -/
def absentFact : List Event :=
  [{ formula := .literal { table := { table := "p" }, arguments := [⟨.const (.int 1), none⟩] },
      insert := false }]

/-- The deletion of a fact that is not in the graph is ignored, and inserts its table when it is
undone. -/
theorem undo_absentFact : Reachable {} ∧
    (({} : DependencyGraph).update {} absentFact).1.undo
      (({} : DependencyGraph).update {} absentFact).2 ≠ {} := by
  refine ⟨.empty true, fun heq => ?_⟩
  have hcount : ((({} : DependencyGraph).update {} absentFact).1.undo
      (({} : DependencyGraph).update {} absentFact).2).graph.nodeCount "p" = 1 := by decide +kernel
  rw [heq] at hcount
  exact absurd hcount (by decide +kernel)

end DatalogPolicy.DependencyGraph

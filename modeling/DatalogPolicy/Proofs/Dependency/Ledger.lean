import DatalogPolicy.Proofs.Dependency.Undo
import DatalogPolicy.Proofs.Graph.Balance

/-!
# Ledgers of dependency graphs

A ledger says what a graph should count. Insertions add to it, and deletions take back
what was there. Whatever tables are removed outright in between, the graph never counts
more than its ledger, and the tables that have not been removed count no less.
-/

namespace DatalogPolicy.DependencyGraph

/-- What a graph should count: explicit references to nodes, edges, and tables under modals. -/
@[ext]
structure Ledger where
  nodes : Multiset String
  edges : Multiset Edge
  modals : Multiset ModalTable

namespace Ledger

/-- The ledger with a contribution in addition. -/
def withContribution (l : Ledger) (c : Contribution) : Ledger where
  nodes := ↑c.nodes + l.nodes
  edges := ↑c.edges + l.edges
  modals := c.modals.counts.items + l.modals

/-- A change is posted: what is inserted is added, and what is deleted was there. -/
inductive Posts : Ledger → GraphChange → Ledger → Prop
  | insertNode {l n} : Posts l (.node true n) { l with nodes := n ::ₘ l.nodes }
  | deleteNode {l n} : Posts { l with nodes := n ::ₘ l.nodes } (.node false n) l
  | insertEdge {l e} : Posts l (.edge true e) { l with edges := e ::ₘ l.edges }
  | deleteEdge {l e} : Posts { l with edges := e ::ₘ l.edges } (.edge false e) l
  | insertModals {l m} (hm : m.counts.Positive) :
      Posts l (.modals true m) { l with modals := m.counts.items + l.modals }
  | deleteModals {l m} (hm : m.counts.Positive) :
      Posts { l with modals := m.counts.items + l.modals } (.modals false m) l

/-- The changes of a log are posted in order. -/
inductive PostsAll : Ledger → List GraphChange → Ledger → Prop
  | done {l} : PostsAll l [] l
  | step {l change between log l'} (h : Posts l change between) (hrest : PostsAll between log l') :
      PostsAll l (change :: log) l'

variable {l l' l'' : Ledger} {change : GraphChange} {log log' : List GraphChange}

theorem Posts.invert (h : Posts l change l') : Posts l' (invert change) l := by
  cases h with
  | insertNode => exact .deleteNode
  | deleteNode => exact .insertNode
  | insertEdge => exact .deleteEdge
  | deleteEdge => exact .insertEdge
  | insertModals hm => exact .deleteModals hm
  | deleteModals hm => exact .insertModals hm

namespace PostsAll

theorem append (h : PostsAll l log l') (h' : PostsAll l' log' l'') :
    PostsAll l (log ++ log') l'' := by
  induction h with
  | done => exact h'
  | step hchange _ ih => exact .step hchange (ih h')

/-- The changes that undo a log are posted from the ledger after it to the one before it. -/
theorem undo (h : PostsAll l log l') : PostsAll l' (log.reverse.map DependencyGraph.invert) l := by
  induction h with
  | done => exact .done
  | step hchange _ ih =>
      rw [List.reverse_cons, List.map_append, List.map_singleton]
      exact ih.append (.step hchange.invert .done)

theorem insertNodes (ns : List String) :
    PostsAll l (ns.map (.node true)) { l with nodes := ↑ns + l.nodes } := by
  induction ns generalizing l with
  | nil => simpa using PostsAll.done
  | cons n rest ih =>
      have hrest := ih (l := { l with nodes := n ::ₘ l.nodes })
      rw [Multiset.add_cons, ← Multiset.cons_add, Multiset.cons_coe] at hrest
      exact .step .insertNode hrest

theorem insertEdges (es : List Edge) :
    PostsAll l (es.map (.edge true)) { l with edges := ↑es + l.edges } := by
  induction es generalizing l with
  | nil => simpa using PostsAll.done
  | cons e rest ih =>
      have hrest := ih (l := { l with edges := e ::ₘ l.edges })
      rw [Multiset.add_cons, ← Multiset.cons_add, Multiset.cons_coe] at hrest
      exact .step .insertEdge hrest

/-- The changes of an insertion add the contribution. -/
theorem insert (l : Ledger) {c : Contribution} (hc : c.modals.counts.Positive) :
    PostsAll l (changes true c) (l.withContribution c) :=
  ((insertNodes c.nodes).append (insertEdges c.edges)).append (.step (.insertModals hc) .done)

theorem deleteNodes (ns : List String) :
    PostsAll { l with nodes := ↑ns + l.nodes } (ns.map (.node false)) l := by
  induction ns with
  | nil => simpa using PostsAll.done
  | cons n rest ih =>
      rw [← Multiset.cons_coe, Multiset.cons_add]
      exact .step (.deleteNode (l := { l with nodes := ↑rest + l.nodes })) ih

theorem deleteEdges (es : List Edge) :
    PostsAll { l with edges := ↑es + l.edges } (es.map (.edge false)) l := by
  induction es with
  | nil => simpa using PostsAll.done
  | cons e rest ih =>
      rw [← Multiset.cons_coe, Multiset.cons_add]
      exact .step (.deleteEdge (l := { l with edges := ↑rest + l.edges })) ih

/-- The changes of a deletion take the contribution back. -/
theorem delete (l : Ledger) {c : Contribution} (hc : c.modals.counts.Positive) :
    PostsAll (l.withContribution c) (changes false c) l := by
  have hnodes := deleteNodes c.nodes
    (l := { l with edges := ↑c.edges + l.edges, modals := c.modals.counts.items + l.modals })
  have hedges := deleteEdges c.edges (l := { l with modals := c.modals.counts.items + l.modals })
  exact (hnodes.append hedges).append (.step (.deleteModals hc) .done)

end PostsAll

end Ledger

/-- The graph counts no more than a ledger, tables under modals exactly as often, and the nodes in
`S` no less often than the ledger and the edges say. -/
structure Tracks (S : Set String) (d : DependencyGraph) (l : Ledger) : Prop where
  counted : d.graph.Counted
  nodes : d.graph.Balanced S l.nodes
  edges : ∀ e, d.graph.edgeCount e ≤ l.edges.count e
  modals : d.modals.counts.Holds l.modals

namespace Tracks

variable {S : Set String} {d : DependencyGraph} {l l' : Ledger} {change : GraphChange}
  {log : List GraphChange}

theorem empty (S : Set String) (headToBody : Bool) : Tracks S { headToBody } ⟨0, 0, 0⟩ where
  counted := .empty
  nodes := .empty S
  edges e := Nat.le_of_eq (Counts.count_empty e)
  modals := .empty

/-- A change that is posted keeps the graph on its ledger. -/
theorem apply (h : Tracks S d l) (hchange : l.Posts change l') : Tracks S (d.apply change) l' := by
  obtain ⟨hcounted, hnodes, hedges, hmodals⟩ := h
  cases hchange with
  | insertNode => exact ⟨hcounted.addNode _, hnodes.addNode _, hedges, hmodals⟩
  | deleteNode =>
      refine ⟨hcounted.deleteNode _, hnodes.deleteNode hcounted, fun e => ?_, hmodals⟩
      exact CountedGraph.edgeCount_deleteNode.trans (hedges e)
  | @insertEdge _ e =>
      refine ⟨hcounted.addEdge _, hnodes.addEdge _, fun e' => ?_, hmodals⟩
      have he := hedges e'
      show (d.graph.addEdge e).edgeCount e' ≤ (e ::ₘ l.edges).count e'
      rw [CountedGraph.edgeCount_addEdge, Multiset.count_cons]
      simp only [eq_comm]
      omega
  | @deleteEdge _ e =>
      refine ⟨hcounted.deleteEdge _, hnodes.deleteEdge hcounted _, fun e' => ?_, hmodals⟩
      have he := hedges e'
      have hdeleted : (d.graph.deleteEdge e).edgeCount e' ≤
          d.graph.edgeCount e' - if e = e' then 1 else 0 := CountedGraph.edgeCount_deleteEdge
      rw [Multiset.count_cons] at he
      simp only [eq_comm] at he hdeleted
      exact hdeleted.trans (by omega)
  | insertModals hm =>
      refine ⟨hcounted, hnodes, hedges, ?_⟩
      have hunion := hmodals.union (.of_positive hm)
      rwa [add_comm] at hunion
  | deleteModals hm =>
      refine ⟨hcounted, hnodes, hedges, ?_⟩
      have hdiff := hmodals.diff (.of_positive hm)
      rwa [add_tsub_cancel_left] at hdiff

/-- A log that is posted keeps the graph on its ledger. -/
theorem applyAll (h : Tracks S d l) (hlog : l.PostsAll log l') : Tracks S (d.applyAll log) l' := by
  induction hlog generalizing d with
  | done => exact h
  | step hchange _ ih => exact ih (h.apply hchange)

/-- Removing a table outright keeps the graph on its ledger, the table in `S` or not. -/
theorem deleteTable (h : Tracks S d l) {table : String} (htable : table ∉ S) :
    Tracks S (d.deleteTable table) l where
  counted := h.counted.removeNode table
  nodes := h.nodes.removeNode h.counted htable fun _ _ => rfl
  edges e := CountedGraph.edgeCount_removeNode.trans (h.edges e)
  modals := h.modals

/-- A graph with nothing on its ledger is empty. -/
theorem eq_empty (h : Tracks S d ⟨0, 0, 0⟩) : d = { headToBody := d.headToBody } := by
  obtain ⟨⟨nodes, edges⟩, modals, headToBody⟩ := d
  have hedges : edges = ∅ := by
    refine h.counted.edges.ext Counts.positive_empty fun e => ?_
    rw [Counts.count_empty]
    exact Nat.le_zero.1 (h.edges e)
  subst hedges
  have hnodes : nodes = ∅ := by
    refine h.counted.nodes.ext Counts.positive_empty fun n => ?_
    have hheld : CountedGraph.held ⟨nodes, ∅⟩ n = 0 := by
      rw [CountedGraph.held, show Counts.items (∅ : Counts Edge) = 0 from
        Counts.Holds.empty.items_eq]
      rfl
    have hle := h.nodes.le n
    rw [hheld] at hle
    rw [Counts.count_empty]
    exact Nat.le_zero.1 hle
  have hmodals : modals = {} := congrArg ModalIndex.mk (h.modals.unique .empty)
  rw [hnodes, hmodals]

end Tracks

end DatalogPolicy.DependencyGraph

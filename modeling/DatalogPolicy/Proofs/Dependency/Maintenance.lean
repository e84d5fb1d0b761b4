import DatalogPolicy.Proofs.Dependency.Contribution
import DatalogPolicy.Proofs.Graph.Accounting
import Mathlib.Data.List.Permutation

/-!
# Maintaining a dependency graph

A dependency graph that is maintained under insertions and deletions counts what the
outstanding formulas contribute, and nothing else. It is the graph that is built from
these formulas alone, in whatever order.
-/

namespace DatalogPolicy.DependencyGraph

/-- A formula in a policy, with the theory in which its tables are named. -/
abbrev Entry := Formula × Option String

/-- The entries that are left after an event. A deletion takes one entry equal to its own. -/
def keep (kept : List Entry) (e : Event) : List Entry :=
  if e.insert then (e.formula, e.target) :: kept else kept.erase (e.formula, e.target)

/-- The entries that have been inserted and not yet deleted. -/
def outstanding (events : List Event) : List Entry := events.foldl keep []

/-- Every deletion names an entry that is there when its turn comes. -/
def Backed (kept : List Entry) : List Event → Prop
  | [] => True
  | e :: rest =>
      (e.insert = false → kept.contains (e.formula, e.target) = true) ∧ Backed (keep kept e) rest

/-- The graph after several updates of an empty one. -/
def maintain (headToBody : Bool) (selection : Selection) (updates : List (List Event)) :
    DependencyGraph :=
  updates.foldl (fun d events => (d.update selection events).1) { headToBody }

/-- The graph of some entries, inserted one after the other. -/
def ofEntries (headToBody : Bool) (selection : Selection) (entries : List Entry) :
    DependencyGraph :=
  entries.foldl (fun d p => (d.insert selection p.2 p.1).1) { headToBody }

theorem entry_beq_iff {p q : Entry} : (p == q) = true ↔ (p.1 == q.1) = true ∧ p.2 = q.2 := by
  rw [← beq_iff_eq (a := p.2), ← Bool.and_eq_true]
  rfl

theorem entry_beq_comm {p q : Entry} : (p == q) = (q == p) := by
  rw [Bool.eq_iff_iff, entry_beq_iff, entry_beq_iff, BEq.comm (a := p.1), eq_comm (a := p.2)]

section Totals

variable {β : Type} {f : Entry → Multiset β}

/-- What some entries have together. -/
def total (f : Entry → Multiset β) (entries : List Entry) : Multiset β := (entries.map f).sum

@[simp] theorem total_cons (p : Entry) (entries : List Entry) :
    total f (p :: entries) = f p + total f entries := rfl

/-- Taking out an entry takes out what it has. -/
theorem total_erase (hf : ∀ p q : Entry, (p == q) = true → f p = f q) {p : Entry}
    {entries : List Entry} (h : entries.contains p = true) :
    total f entries = f p + total f (entries.erase p) := by
  induction entries with
  | nil => exact absurd h Bool.false_ne_true
  | cons q rest ih =>
      rw [List.erase_cons]
      by_cases hqp : (q == p) = true
      · rw [if_pos hqp, total_cons, hf q p hqp]
      · rw [List.contains_cons, entry_beq_comm, Bool.or_eq_true] at h
        rw [if_neg hqp, total_cons, total_cons, ih (h.resolve_left hqp), add_left_comm]

/-- Entries that are the same up to order and equality have the same together. -/
theorem total_of_isPerm (hf : ∀ p q : Entry, (p == q) = true → f p = f q) {xs ys : List Entry}
    (h : xs.isPerm ys = true) : total f xs = total f ys := by
  induction xs generalizing ys with
  | nil =>
      rw [List.isPerm, List.isEmpty_iff] at h
      rw [h]
  | cons p rest ih =>
      rw [List.isPerm, Bool.and_eq_true] at h
      rw [total_cons, ih h.2, total_erase hf h.1]

theorem total_reverse (entries : List Entry) : total f entries.reverse = total f entries := by
  rw [total, List.map_reverse, List.sum_reverse, total]

/-- An item that no entry has twice is there as often as there are entries with it. -/
theorem count_total [DecidableEq β] (hf : ∀ p, (f p).Nodup) (entries : List Entry) (x : β) :
    (total f entries).count x = entries.countP fun p => x ∈ f p := by
  induction entries with
  | nil => rfl
  | cons p rest ih =>
      rw [total_cons, Multiset.count_add, ih, List.countP_cons, Multiset.count_eq_of_nodup (hf p),
        add_comm]
      simp only [decide_eq_true_eq]

end Totals

/-- The nodes and the edges are accounted for by the explicit references `N` and the edges `E`, and
the tables under modals are those of `M`. -/
structure Accounts (d : DependencyGraph) (N : Multiset String) (E : Multiset Edge)
    (M : Multiset ModalTable) : Prop where
  graph : d.graph.Accounts N E
  modals : d.modals.counts.Holds M

namespace Accounts

variable {d d' : DependencyGraph} {N : Multiset String} {E : Multiset Edge}
  {M : Multiset ModalTable}

theorem unique (h : Accounts d N E M) (h' : Accounts d' N E M)
    (hd : d.headToBody = d'.headToBody) : d = d' := by
  obtain ⟨g, m, b⟩ := d
  obtain ⟨g', m', b'⟩ := d'
  have hg : g = g' := h.graph.unique h'.graph
  have hm : m = m' := congrArg ModalIndex.mk (h.modals.unique h'.modals)
  rw [hg, hm, show b = b' from hd]

theorem insertNodes (h : Accounts d N E M) (ns : List String) :
    Accounts (d.applyAll (ns.map (.node true))) (↑ns + N) E M := by
  induction ns generalizing d N with
  | nil => simpa [applyAll] using h
  | cons n rest ih =>
      have hstep : Accounts (d.apply (.node true n)) (n ::ₘ N) E M := ⟨h.graph.addNode n, h.modals⟩
      have hrest := ih hstep
      rwa [Multiset.add_cons, ← Multiset.cons_add, Multiset.cons_coe] at hrest

theorem insertEdges (h : Accounts d N E M) (es : List Edge) :
    Accounts (d.applyAll (es.map (.edge true))) N (↑es + E) M := by
  induction es generalizing d E with
  | nil => simpa [applyAll] using h
  | cons e rest ih =>
      have hstep : Accounts (d.apply (.edge true e)) N (e ::ₘ E) M := ⟨h.graph.addEdge e, h.modals⟩
      have hrest := ih hstep
      rwa [Multiset.add_cons, ← Multiset.cons_add, Multiset.cons_coe] at hrest

theorem deleteNodes {ns : List String} (h : Accounts d (↑ns + N) E M) :
    Accounts (d.applyAll (ns.map (.node false))) N E M := by
  induction ns generalizing d with
  | nil => simpa [applyAll] using h
  | cons n rest ih =>
      rw [← Multiset.cons_coe, Multiset.cons_add] at h
      have hstep := h.graph.deleteNode (Multiset.mem_cons_self n _)
      rw [Multiset.erase_cons_head] at hstep
      exact ih ⟨hstep, h.modals⟩

theorem deleteEdges {es : List Edge} (h : Accounts d N (↑es + E) M) :
    Accounts (d.applyAll (es.map (.edge false))) N E M := by
  induction es generalizing d with
  | nil => simpa [applyAll] using h
  | cons e rest ih =>
      rw [← Multiset.cons_coe, Multiset.cons_add] at h
      have hstep := h.graph.deleteEdge (Multiset.mem_cons_self e _)
      rw [Multiset.erase_cons_head] at hstep
      exact ih ⟨hstep, h.modals⟩

/-- An inserted contribution is added to what there is. -/
theorem insert (h : Accounts d N E M) {c : Contribution} (hc : c.modals.counts.Positive) :
    Accounts (d.applyAll (changes true c)) (↑c.nodes + N) (↑c.edges + E)
      (c.modals.counts.items + M) := by
  have hparts := (h.insertNodes c.nodes).insertEdges c.edges
  rw [add_comm _ M, changes, applyAll, List.foldl_append, List.foldl_append]
  exact ⟨hparts.graph, hparts.modals.union (.of_positive hc)⟩

/-- A deleted contribution leaves what else there is. -/
theorem delete {c : Contribution} (hc : c.modals.counts.Positive)
    (h : Accounts d (↑c.nodes + N) (↑c.edges + E) (c.modals.counts.items + M)) :
    Accounts (d.applyAll (changes false c)) N E M := by
  have hparts := h.deleteNodes.deleteEdges
  rw [changes, applyAll, List.foldl_append, List.foldl_append]
  refine ⟨hparts.graph, ?_⟩
  have hmodals := hparts.modals.diff (.of_positive hc)
  rwa [add_tsub_cancel_left] at hmodals

end Accounts

section Runs

variable {headToBody : Bool} {selection : Selection} {d : DependencyGraph}

/-- What an entry contributes. -/
def entryContribution (headToBody : Bool) (selection : Selection) (p : Entry) : Contribution :=
  contribution headToBody selection p.2 p.1

/-- The nodes that an entry contributes. -/
def entryNodes (headToBody : Bool) (selection : Selection) (p : Entry) : Multiset String :=
  ↑(entryContribution headToBody selection p).nodes

/-- The edges that an entry contributes. -/
def entryEdges (headToBody : Bool) (selection : Selection) (p : Entry) : Multiset Edge :=
  ↑(entryContribution headToBody selection p).edges

/-- The tables under modals that an entry contributes. -/
def entryModals (headToBody : Bool) (selection : Selection) (p : Entry) : Multiset ModalTable :=
  (entryContribution headToBody selection p).modals.counts.items

/-- The graph counts exactly what some entries contribute. -/
structure Maintains (headToBody : Bool) (selection : Selection) (d : DependencyGraph)
    (kept : List Entry) : Prop where
  accounts : d.Accounts (total (entryNodes headToBody selection) kept)
    (total (entryEdges headToBody selection) kept) (total (entryModals headToBody selection) kept)
  headToBody_eq : d.headToBody = headToBody

theorem entryContribution_congr (hs : selection.Respects) {p q : Entry} (h : (p == q) = true) :
    entryContribution headToBody selection p = entryContribution headToBody selection q := by
  obtain ⟨hformula, htheory⟩ := entry_beq_iff.1 h
  rw [entryContribution, htheory]
  exact contribution_congr headToBody hs hformula

section Congr

variable (hs : selection.Respects) {p q : Entry} (h : (p == q) = true)

include hs h

theorem entryNodes_congr :
    entryNodes headToBody selection p = entryNodes headToBody selection q :=
  congrArg (fun c : Contribution => (c.nodes : Multiset String)) (entryContribution_congr hs h)

theorem entryEdges_congr :
    entryEdges headToBody selection p = entryEdges headToBody selection q :=
  congrArg (fun c : Contribution => (c.edges : Multiset Edge)) (entryContribution_congr hs h)

theorem entryModals_congr :
    entryModals headToBody selection p = entryModals headToBody selection q :=
  congrArg (fun c : Contribution => c.modals.counts.items) (entryContribution_congr hs h)

end Congr

theorem headToBody_applyAll (d : DependencyGraph) (log : List GraphChange) :
    (d.applyAll log).headToBody = d.headToBody := by
  induction log generalizing d with
  | nil => rfl
  | cons change rest ih =>
      have hstep : (d.apply change).headToBody = d.headToBody := by
        cases change with
        | node insert n => cases insert <;> rfl
        | edge insert e => cases insert <;> rfl
        | modals insert m => cases insert <;> rfl
      exact (ih (d.apply change)).trans hstep

theorem maintains_empty : Maintains headToBody selection { headToBody } [] where
  accounts := ⟨CountedGraph.Accounts.empty, Counts.Holds.empty⟩
  headToBody_eq := rfl

/-- An insertion keeps the graph in step, whatever the selection. -/
theorem Maintains.insert {kept : List Entry} (h : Maintains headToBody selection d kept)
    (p : Entry) :
    Maintains headToBody selection
      (d.applyAll (changes true (entryContribution headToBody selection p))) (p :: kept) where
  accounts := h.accounts.insert (modals_positive selection p.2 headToBody p.1)
  headToBody_eq := (headToBody_applyAll _ _).trans h.headToBody_eq

/-- A deletion of an entry that is there keeps the graph in step. -/
theorem Maintains.delete (hs : selection.Respects) {kept : List Entry}
    (h : Maintains headToBody selection d kept) {p : Entry} (hp : kept.contains p = true) :
    Maintains headToBody selection
      (d.applyAll (changes false (entryContribution headToBody selection p))) (kept.erase p) := by
  refine ⟨?_, (headToBody_applyAll _ _).trans h.headToBody_eq⟩
  have haccounts := h.accounts
  rw [total_erase (fun _ _ => entryNodes_congr hs) hp,
    total_erase (fun _ _ => entryEdges_congr hs) hp,
    total_erase (fun _ _ => entryModals_congr hs) hp] at haccounts
  exact haccounts.delete (modals_positive selection p.2 headToBody p.1)

/-- An event that is backed keeps the graph in step with the outstanding entries. -/
theorem Maintains.step (hs : selection.Respects) {kept : List Entry} {e : Event}
    (h : Maintains headToBody selection d kept)
    (he : e.insert = false → kept.contains (e.formula, e.target) = true) :
    Maintains headToBody selection
      (d.applyAll (changes e.insert (entryContribution headToBody selection (e.formula, e.target))))
      (keep kept e) := by
  cases hinsert : e.insert with
  | true =>
      rw [keep, if_pos hinsert]
      exact h.insert (e.formula, e.target)
  | false =>
      rw [keep, if_neg (by rw [hinsert]; exact Bool.false_ne_true)]
      exact h.delete hs (he hinsert)

/-- An update that is backed keeps the graph in step with the outstanding entries. -/
theorem Maintains.update (hs : selection.Respects) {events : List Event} {kept : List Entry}
    (h : Maintains headToBody selection d kept) (hb : Backed kept events) :
    Maintains headToBody selection (d.update selection events).1 (events.foldl keep kept) := by
  have hchanges : d.changesOf selection events = events.flatMap fun e =>
      changes e.insert (entryContribution headToBody selection (e.formula, e.target)) := by
    rw [changesOf, h.headToBody_eq]
    rfl
  show Maintains headToBody selection (d.applyAll (d.changesOf selection events)) _
  rw [hchanges]
  clear hchanges
  induction events generalizing d kept with
  | nil => exact h
  | cons e rest ih =>
      rw [List.flatMap_cons, applyAll, List.foldl_append]
      exact ih (h.step hs hb.1) hb.2

theorem backed_append {kept : List Entry} {xs ys : List Event} :
    Backed kept (xs ++ ys) ↔ Backed kept xs ∧ Backed (xs.foldl keep kept) ys := by
  induction xs generalizing kept with
  | nil => exact (and_iff_right trivial).symm
  | cons e rest ih =>
      rw [List.cons_append, Backed, Backed, ih, List.foldl_cons, and_assoc]

/-- Updates that are backed keep the graph in step with the outstanding entries. -/
theorem Maintains.updates (hs : selection.Respects) {updates : List (List Event)}
    {kept : List Entry} (h : Maintains headToBody selection d kept)
    (hb : Backed kept updates.flatten) :
    Maintains headToBody selection
      (updates.foldl (fun d events => (d.update selection events).1) d)
      (updates.flatten.foldl keep kept) := by
  induction updates generalizing d kept with
  | nil => exact h
  | cons events rest ih =>
      rw [List.flatten_cons, backed_append] at hb
      rw [List.flatten_cons, List.foldl_append]
      exact ih (h.update hs hb.1) hb.2

/-- The graph of some entries counts what these contribute. -/
theorem maintains_ofEntries (entries : List Entry) :
    Maintains headToBody selection (ofEntries headToBody selection entries) entries.reverse := by
  have hgeneral (d : DependencyGraph) (kept : List Entry)
      (h : Maintains headToBody selection d kept) :
      Maintains headToBody selection
        (entries.foldl (fun d p => (d.insert selection p.2 p.1).1) d) (entries.reverse ++ kept) := by
    induction entries generalizing d kept with
    | nil => exact h
    | cons p rest ih =>
        have hstep : Maintains headToBody selection (d.insert selection p.2 p.1).1 (p :: kept) := by
          show Maintains headToBody selection (d.applyAll (d.changesOf selection _)) _
          rw [changesOf, h.headToBody_eq, List.flatMap_singleton]
          exact h.insert p
        rw [List.reverse_cons, List.append_assoc]
        exact ih _ _ hstep
  have h := hgeneral _ _ maintains_empty
  rwa [List.append_nil] at h

/-- Graphs that count what the same entries contribute are equal. -/
theorem Maintains.unique (hs : selection.Respects) {d' : DependencyGraph} {xs ys : List Entry}
    (h : Maintains headToBody selection d xs) (h' : Maintains headToBody selection d' ys)
    (hxy : xs.isPerm ys = true) : d = d' := by
  have haccounts := h.accounts
  rw [total_of_isPerm (fun _ _ => entryNodes_congr hs) hxy,
    total_of_isPerm (fun _ _ => entryEdges_congr hs) hxy,
    total_of_isPerm (fun _ _ => entryModals_congr hs) hxy] at haccounts
  exact haccounts.unique h'.accounts (h.headToBody_eq.trans h'.headToBody_eq.symm)

/-- The order of the entries makes no difference. -/
theorem Maintains.of_reverse {entries : List Entry}
    (h : Maintains headToBody selection d entries.reverse) :
    Maintains headToBody selection d entries := by
  obtain ⟨haccounts, hd⟩ := h
  rw [total_reverse, total_reverse, total_reverse] at haccounts
  exact ⟨haccounts, hd⟩

theorem Maintains.nodeCount_eq {entries : List Entry}
    (h : Maintains headToBody selection d entries) (n : String) :
    d.graph.nodeCount n =
      entries.countP (fun p => n ∈ (contribution headToBody selection p.2 p.1).nodes) +
        (d.graph.edgeList.map fun e =>
          d.graph.edgeCount e * CountedGraph.touches e n).sum := by
  have hnodup (p : Entry) : (entryNodes headToBody selection p).Nodup :=
    nodup_nodes headToBody p.1
  rw [h.accounts.graph.nodeCount_eq, count_total hnodup]
  rfl

theorem Maintains.edgeCount_eq {entries : List Entry}
    (h : Maintains headToBody selection d entries) (e : Edge) :
    d.graph.edgeCount e =
      entries.countP fun p => e ∈ (contribution headToBody selection p.2 p.1).edges := by
  have hnodup (p : Entry) : (entryEdges headToBody selection p).Nodup :=
    nodup_edges headToBody p.1
  rw [CountedGraph.edgeCount, h.accounts.graph.edges.count_eq, count_total hnodup]
  rfl

end Runs

/-- A graph that is maintained under any updates is the graph of the remaining entries, inserted
in any order. A node counts the entries that contribute it and the edges that touch it, and an
edge counts the entries that contribute it. -/
theorem maintain_eq_ofEntries (headToBody : Bool) (selection : Selection)
    (hs : selection.Respects) (updates : List (List Event)) (hb : Backed [] updates.flatten)
    (remaining : List Entry) (hr : remaining.isPerm (outstanding updates.flatten) = true) :
    let d := maintain headToBody selection updates
    d = ofEntries headToBody selection remaining ∧
    (∀ n, d.graph.nodeCount n =
      remaining.countP (fun p => n ∈ (contribution headToBody selection p.2 p.1).nodes) +
        (d.graph.edgeList.map fun e =>
          d.graph.edgeCount e * CountedGraph.touches e n).sum) ∧
    ∀ e, d.graph.edgeCount e =
      remaining.countP fun p => e ∈ (contribution headToBody selection p.2 p.1).edges := by
  intro d
  have hkept : Maintains headToBody selection d (outstanding updates.flatten) :=
    maintains_empty.updates hs hb
  have hbuilt : Maintains headToBody selection (ofEntries headToBody selection remaining)
      remaining := (maintains_ofEntries remaining).of_reverse
  have heq : ofEntries headToBody selection remaining = d := hbuilt.unique hs hkept hr
  rw [heq] at hbuilt
  exact ⟨heq.symm, hbuilt.nodeCount_eq, hbuilt.edgeCount_eq⟩

/-- A rule with two heads over tables with one column. -/
def pairRule (body : List String) : Formula :=
  let literal := fun table => ({ table := { table }, arguments := [⟨.var "x", none⟩] } : Literal)
  .rule { heads := [literal "p", literal "s"], body := body.map literal,
          heads_ne := List.cons_ne_nil _ _ }

/-- A loop is inserted twice and deleted once, with its body in another order. -/
def loopUpdates : List (List Event) :=
  [[{ formula := pairRule ["p", "q"], insert := true }],
    [{ formula := pairRule ["q"], insert := true },
      { formula := pairRule ["p", "q"], insert := true },
      { formula := pairRule ["q", "p"], insert := false }]]

/-- The rule that is deleted has been inserted before. -/
theorem backed_loopUpdates : Backed [] loopUpdates.flatten :=
  ⟨by rintro ⟨⟩, by rintro ⟨⟩, by rintro ⟨⟩, fun _ => by cbv, trivial⟩

theorem maintain_loopUpdates :
    let remaining := [(pairRule ["q", "p"], none), (pairRule ["q"], none)]
    Selection.Respects {} ∧ Backed [] loopUpdates.flatten ∧
      remaining.isPerm (outstanding loopUpdates.flatten) = true ∧
      maintain true {} loopUpdates = ofEntries true {} remaining := by
  intro remaining
  have hs : Selection.Respects {} := Selection.respects_default true
  have hb : Backed [] loopUpdates.flatten := backed_loopUpdates
  have hr : remaining.isPerm (outstanding loopUpdates.flatten) = true := by cbv
  exact ⟨hs, hb, hr, (maintain_eq_ofEntries true {} hs loopUpdates hb remaining hr).1⟩

end DatalogPolicy.DependencyGraph

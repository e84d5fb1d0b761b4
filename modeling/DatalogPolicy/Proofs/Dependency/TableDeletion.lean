import DatalogPolicy.Proofs.Dependency.Ledger

/-!
# Removing tables while a graph is maintained

Removing a table outright takes away references on which outstanding formulas count, and
leaves the table under its modals. Later deletions and undone logs drop references that
are not there any more. Still no edge outlives the formulas that contribute it, and
nothing is left when all formulas are deleted; and the tables under modals are tables of
the graph, unless they have been removed outright.
-/

namespace DatalogPolicy.DependencyGraph

/-- A call on a dependency graph. Inserting or deleting a formula is an update with one event. -/
inductive Call
  | update (events : List Event)
  | undo
  | deleteTable (table : String)

/-- A graph with the outstanding entries and with the logs that have not been undone, the latest
first, each with the entries before it. -/
structure Maintained where
  graph : DependencyGraph
  kept : List Entry := []
  logs : List (List GraphChange × List Entry) := []

namespace Maintained

/-- Performs a call. A log is undone when it is the latest one. -/
def perform (selection : Selection) (m : Maintained) : Call → Maintained
  | .update events =>
      let (graph, log) := m.graph.update selection events
      { graph, kept := events.foldl keep m.kept, logs := (log, m.kept) :: m.logs }
  | .undo =>
      match m.logs with
      | [] => m
      | (log, before) :: rest => { graph := m.graph.undo log, kept := before, logs := rest }
  | .deleteTable table => { m with graph := m.graph.deleteTable table }

/-- Every deletion names an entry that is outstanding when its turn comes. -/
def AllBacked (selection : Selection) (m : Maintained) : List Call → Prop
  | [] => True
  | call :: rest =>
      (match call with
        | .update events => Backed m.kept events
        | .undo | .deleteTable _ => True) ∧
      AllBacked selection (m.perform selection call) rest

/-- The state after some calls on a new graph. -/
def after (headToBody : Bool) (selection : Selection) (calls : List Call) : Maintained :=
  calls.foldl (perform selection) { graph := { headToBody } }

end Maintained

variable {headToBody : Bool} {selection : Selection} {kept : List Entry} {S : Set String}

section Entries

/-- The ledger of some entries. -/
def ledger (headToBody : Bool) (selection : Selection) (entries : List Entry) : Ledger where
  nodes := total (entryNodes headToBody selection) entries
  edges := total (entryEdges headToBody selection) entries
  modals := total (entryModals headToBody selection) entries

theorem ledger_cons (p : Entry) (entries : List Entry) :
    ledger headToBody selection (p :: entries) =
      (ledger headToBody selection entries).withContribution
        (entryContribution headToBody selection p) := rfl

theorem ledger_erase (hs : selection.Respects) {p : Entry} {entries : List Entry}
    (h : entries.contains p = true) :
    ledger headToBody selection entries =
      (ledger headToBody selection (entries.erase p)).withContribution
        (entryContribution headToBody selection p) := by
  ext1
  · exact total_erase (fun _ _ => entryNodes_congr hs) h
  · exact total_erase (fun _ _ => entryEdges_congr hs) h
  · exact total_erase (fun _ _ => entryModals_congr hs) h

/-- The changes that events ask for are posted from the entries before them to those after. -/
theorem postsAll_changesOf (hs : selection.Respects) {d : DependencyGraph}
    (hd : d.headToBody = headToBody) {events : List Event} (hb : Backed kept events) :
    (ledger headToBody selection kept).PostsAll (d.changesOf selection events)
      (ledger headToBody selection (events.foldl keep kept)) := by
  rw [changesOf, hd]
  induction events generalizing kept with
  | nil => exact .done
  | cons e rest ih =>
      rw [List.flatMap_cons]
      refine .append ?_ (ih hb.2)
      have hpositive := modals_positive selection e.target headToBody e.formula
      cases hinsert : e.insert with
      | true =>
          rw [keep, if_pos hinsert, ledger_cons]
          exact .insert _ hpositive
      | false =>
          rw [keep, if_neg (by rw [hinsert]; exact Bool.false_ne_true),
            ledger_erase hs (hb.1 hinsert)]
          exact .delete _ hpositive

/-- A table under a modal is one of the nodes of the same contribution. -/
theorem mem_entryNodes_of_modal {p : Entry} {entry : ModalTable}
    (h : entry ∈ entryModals headToBody selection p) :
    entry.table ∈ entryNodes headToBody selection p := by
  have hpair {tables : List (Literal × String)} (h : entry ∈ (modalsOf tables).counts.items) :
      entry.table ∈ tables.map Prod.snd := by
    rw [(modalsOf_holds tables).items_eq, Multiset.mem_coe, List.mem_filterMap] at h
    obtain ⟨q, hq, hentry⟩ := h
    obtain ⟨modal, -, rfl⟩ := Option.map_eq_some_iff.1 hentry
    exact List.mem_map_of_mem hq
  obtain ⟨f, theory⟩ := p
  cases f with
  | literal l =>
      simp only [entryModals, entryNodes, entryContribution, contribution] at h ⊢
      split at h
      · next hatom =>
          rw [if_pos hatom]
          exact hpair h
      · exact absurd h (Multiset.notMem_zero entry)
  | rule r =>
      obtain ⟨q, hq, htable⟩ := List.mem_map.1 (hpair h)
      exact mem_ruleNodes.2 ⟨q.2, List.mem_map_of_mem hq, .inl htable.symm⟩

/-- Every table under a modal is one of the nodes on the ledger. -/
theorem mem_nodes_of_modal {entry : ModalTable}
    (h : entry ∈ (ledger headToBody selection kept).modals) :
    entry.table ∈ (ledger headToBody selection kept).nodes := by
  obtain ⟨p, hp, hentry⟩ := mem_total.1 h
  exact mem_total.2 ⟨p, hp, mem_entryNodes_of_modal hentry⟩

end Entries

/-- Logs that have not been undone are posted between the entries before and after them. -/
inductive Logged (headToBody : Bool) (selection : Selection) :
    List Entry → List (List GraphChange × List Entry) → Prop
  | none {kept : List Entry} : Logged headToBody selection kept []
  | log {kept before : List Entry} {log : List GraphChange}
      {rest : List (List GraphChange × List Entry)}
      (h : (ledger headToBody selection before).PostsAll log (ledger headToBody selection kept))
      (hrest : Logged headToBody selection before rest) :
      Logged headToBody selection kept ((log, before) :: rest)

/-- The graph is on the ledger of the outstanding entries, and the tables in `S` count no less. -/
structure Maintained.Sound (headToBody : Bool) (selection : Selection) (S : Set String)
    (m : Maintained) : Prop where
  tracks : Tracks S m.graph (ledger headToBody selection m.kept)
  headToBody_eq : m.graph.headToBody = headToBody
  logged : Logged headToBody selection m.kept m.logs

namespace Maintained.Sound

variable {m : Maintained}

theorem new : Sound headToBody selection S { graph := { headToBody } } where
  tracks := .empty S headToBody
  headToBody_eq := rfl
  logged := .none

theorem update (hs : selection.Respects) (h : m.Sound headToBody selection S)
    {events : List Event} (hb : Backed m.kept events) :
    (m.perform selection (.update events)).Sound headToBody selection S where
  tracks := h.tracks.applyAll (postsAll_changesOf hs h.headToBody_eq hb)
  headToBody_eq := (headToBody_applyAll _ _).trans h.headToBody_eq
  logged := .log (postsAll_changesOf hs h.headToBody_eq hb) h.logged

theorem undo (h : m.Sound headToBody selection S) :
    (m.perform selection .undo).Sound headToBody selection S := by
  obtain ⟨graph, kept, logs⟩ := m
  obtain ⟨htracks, hd, hlogged⟩ := h
  cases hlogged with
  | none => exact ⟨htracks, hd, .none⟩
  | log hlog hrest =>
      exact ⟨htracks.applyAll hlog.undo, (headToBody_applyAll _ _).trans hd, hrest⟩

theorem deleteTable (h : m.Sound headToBody selection S) {table : String} (htable : table ∉ S) :
    (m.perform selection (.deleteTable table)).Sound headToBody selection S :=
  ⟨h.tracks.deleteTable htable, h.headToBody_eq, h.logged⟩

/-- Calls keep the graph on the ledger of the outstanding entries. -/
theorem calls (hs : selection.Respects) (h : m.Sound headToBody selection S) {calls : List Call}
    (hb : m.AllBacked selection calls) (hS : ∀ table, .deleteTable table ∈ calls → table ∉ S) :
    (calls.foldl (perform selection) m).Sound headToBody selection S := by
  induction calls generalizing m with
  | nil => exact h
  | cons call rest ih =>
      refine ih ?_ hb.2 fun table htable => hS table (List.mem_cons_of_mem _ htable)
      cases call with
      | update events => exact h.update hs hb.1
      | undo => exact h.undo
      | deleteTable table => exact h.deleteTable (hS table List.mem_cons_self)

theorem edgeCount_le (h : m.Sound headToBody selection S) (e : Edge) :
    m.graph.graph.edgeCount e ≤
      m.kept.countP fun p => e ∈ (contribution headToBody selection p.2 p.1).edges := by
  have hnodup (p : Entry) : (entryEdges headToBody selection p).Nodup :=
    nodup_edges headToBody p.1
  exact (h.tracks.edges e).trans_eq (count_total hnodup m.kept e)

theorem eq_new (h : m.Sound headToBody selection S) (hkept : m.kept = []) :
    m.graph = { headToBody } := by
  have htracks := h.tracks
  rw [hkept] at htracks
  rw [htracks.eq_empty, h.headToBody_eq]

/-- The tables in `S` that are under a modal are tables of the graph. -/
theorem mem_tables (h : m.Sound headToBody selection S) {modal table : String} (hS : table ∈ S)
    (htable : table ∈ m.graph.tablesWithModal modal) : table ∈ m.graph.tables := by
  obtain ⟨entry, hentry, rfl⟩ := List.mem_map.1 htable
  have hindex : entry ∈ m.graph.modals.counts :=
    Std.ExtTreeMap.mem_keys.1 (List.mem_filter.1 hentry).1
  have hnode := mem_nodes_of_modal (h.tracks.modals.mem_iff.1 hindex)
  have hpos : 0 < m.graph.graph.nodeCount entry.table := by
    have hcount := Multiset.count_pos.2 hnode
    have hge := h.tracks.nodes.ge _ hS
    omega
  exact Std.ExtTreeMap.mem_keys.2 (Counts.mem_of_count_pos hpos)

end Maintained.Sound

/-- Whatever tables are removed outright between updates and undone logs, each edge of the graph is
contributed by outstanding entries and counted no more often than there are such, and the graph is
as good as new when no entry is outstanding. -/
theorem edges_outstanding (headToBody : Bool) (selection : Selection) (hs : selection.Respects)
    (calls : List Call) (hb : Maintained.AllBacked selection { graph := { headToBody } } calls) :
    let m := Maintained.after headToBody selection calls
    (∀ e ∈ m.graph.graph.edges,
      (∃ p ∈ m.kept, e ∈ (contribution headToBody selection p.2 p.1).edges) ∧
      m.graph.graph.edgeCount e ≤
        m.kept.countP fun p => e ∈ (contribution headToBody selection p.2 p.1).edges) ∧
    (m.kept = [] → m.graph = { headToBody }) := by
  intro m
  have hm : m.Sound headToBody selection ∅ :=
    Maintained.Sound.new.calls hs hb fun _ _ => Set.notMem_empty _
  refine ⟨fun e he => ?_, hm.eq_new⟩
  have hpos : 0 < m.graph.graph.edgeCount e := hm.tracks.counted.edges e he
  have hsome := List.countP_pos_iff.1 (hpos.trans_le (hm.edgeCount_le e))
  simp only [decide_eq_true_eq] at hsome
  exact ⟨hsome, hm.edgeCount_le e⟩

/-- A rule is inserted, one of its tables is removed, the rule is inserted again, and both times it
is deleted, with another removal in between. -/
def removedTables : List Call :=
  [.update [{ formula := pairRule ["q"], insert := true }], .deleteTable "q",
    .update [{ formula := pairRule ["q"], insert := true }],
    .update [{ formula := pairRule ["q"], insert := false }], .deleteTable "p",
    .update [{ formula := pairRule ["q"], insert := false }]]

theorem edges_outstanding_removedTables :
    Selection.Respects {} ∧
      Maintained.AllBacked {} { graph := { headToBody := true } } removedTables ∧
      (Maintained.after true {} removedTables).graph = {} := by
  have hs : Selection.Respects {} := Selection.respects_default true
  -- What is outstanding depends on the events alone: it is computed without the graphs.
  let p : Entry := (pairRule ["q"], none)
  have htwo : [p, p].contains p = true := by cbv
  have hone : ([p, p].erase p).contains p = true := by cbv
  have hb : Maintained.AllBacked {} { graph := { headToBody := true } } removedTables :=
    ⟨⟨by rintro ⟨⟩, trivial⟩, trivial, ⟨by rintro ⟨⟩, trivial⟩, ⟨fun _ => htwo, trivial⟩, trivial,
      ⟨fun _ => hone, trivial⟩, trivial⟩
  have hkept : (Maintained.after true {} removedTables).kept = [] :=
    show ([p, p].erase p).erase p = [] by cbv
  exact ⟨hs, hb, (edges_outstanding true {} hs removedTables hb).2 hkept⟩

/-- A table under a modal is a table of the graph, unless it has been removed outright. -/
theorem tables_of_modal (headToBody : Bool) (selection : Selection) (hs : selection.Respects)
    (calls : List Call) (hb : Maintained.AllBacked selection { graph := { headToBody } } calls)
    (modal : String) :
    let m := Maintained.after headToBody selection calls
    ∀ table ∈ m.graph.tablesWithModal modal,
      table ∈ m.graph.tables ∨ .deleteTable table ∈ calls := by
  intro m table htable
  by_cases hremoved : Call.deleteTable table ∈ calls
  · exact .inr hremoved
  · have hm : m.Sound headToBody selection {t | Call.deleteTable t ∉ calls} :=
      Maintained.Sound.new.calls hs hb fun _ ht hnot => hnot ht
    exact .inl (hm.mem_tables hremoved htable)

/-- The insertion of a fact under a modal. -/
def markedFact (table : String) : List Event :=
  let name : TableName := { modal := some "insert", table }
  [{ formula := .literal { table := name, arguments := [⟨.const (.int 1), none⟩] }, insert := true }]

/-- A table is removed outright, which leaves the other one under its modal in the graph. -/
theorem tables_of_modal_markedFacts :
    let calls := [Call.update (markedFact "p"), .update (markedFact "q"), .deleteTable "p"]
    Selection.Respects {} ∧ Maintained.AllBacked {} { graph := { headToBody := true } } calls ∧
      "q" ∈ (Maintained.after true {} calls).graph.tables := by
  intro calls
  have hs : Selection.Respects {} := Selection.respects_default true
  have hb : Maintained.AllBacked {} { graph := { headToBody := true } } calls :=
    ⟨⟨by rintro ⟨⟩, trivial⟩, ⟨by rintro ⟨⟩, trivial⟩, trivial, trivial⟩
  have hq : "q" ∈ (Maintained.after true {} calls).graph.tablesWithModal "insert" := by
    decide +kernel
  refine ⟨hs, hb, (tables_of_modal true {} hs calls hb "insert" "q" hq).resolve_right ?_⟩
  simp [calls]

/-- A table that is removed outright stays under its modal. -/
theorem modal_of_removedTable :
    let calls := [Call.update (markedFact "p"), .deleteTable "p"]
    Maintained.AllBacked {} { graph := { headToBody := true } } calls ∧
      "p" ∈ (Maintained.after true {} calls).graph.tablesWithModal "insert" ∧
      "p" ∉ (Maintained.after true {} calls).graph.tables := by
  intro calls
  refine ⟨⟨⟨by rintro ⟨⟩, trivial⟩, trivial, trivial⟩, ?_, ?_⟩
  · decide +kernel
  · exact fun hp => CountedGraph.not_mem_removeNode (Std.ExtTreeMap.mem_keys.1 hp)

end DatalogPolicy.DependencyGraph

import DatalogPolicy.Dependency.ModalIndex
import DatalogPolicy.Formula
import DatalogPolicy.Graph.Reach
import DatalogPolicy.Graph.Strata

/-!
# Dependencies between tables

A rule makes the tables of its heads depend on the tables of its body. The graph
of a policy is maintained under insertions and deletions of formulas, and the log
of a change can be undone.
-/

namespace DatalogPolicy

/-- The parts of formulas that are looked at. -/
structure Selection where
  atoms : Bool := true
  /-- The heads that are looked at; all of them without a test. -/
  heads : Option (Literal → Bool) := none
  /-- The body literals that are looked at; all of them without a test. -/
  body : Option (Literal → Bool) := none

namespace Selection

/-- Whether a test, if there is one, selects a literal. -/
def selects (test : Option (Literal → Bool)) (l : Literal) : Bool := test.all (· l)

/-- The written form of a selection, which shows which tests there are. -/
def text (s : Selection) : String :=
  let flag := fun (b : Bool) => if b then "true" else "false"
  "Selection \x7b include_atoms: " ++ flag s.atoms ++ ", select_head: " ++ flag s.heads.isSome ++
    ", select_body: " ++ flag s.body.isSome ++ " \x7d"

end Selection

/-- What a formula adds to a dependency graph: nodes and edges in increasing order, and tables
under modals. -/
structure Contribution where
  nodes : List String := []
  edges : List Edge := []
  modals : ModalIndex := {}
deriving DecidableEq

/-- A change of a dependency graph. -/
inductive GraphChange
  | node (insert : Bool) (node : String)
  | edge (insert : Bool) (edge : Edge)
  | modals (insert : Bool) (modals : ModalIndex)
deriving DecidableEq

/-- The dependencies between the tables of a policy. -/
structure DependencyGraph where
  graph : CountedGraph := {}
  modals : ModalIndex := {}
  /-- Whether edges lead from heads to bodies. -/
  headToBody : Bool := true
deriving DecidableEq

namespace DependencyGraph

/-- The heads of a rule that are looked at, each with its table inside a theory. -/
def headTables (selection : Selection) (theory : Option String) (r : Rule) :
    List (Literal × String) :=
  (r.heads.filter (Selection.selects selection.heads)).map fun l => (l, l.table.globalName theory)

/-- The body literals of a rule that are looked at. -/
def bodyLiterals (selection : Selection) (r : Rule) : List Literal :=
  r.body.filter (Selection.selects selection.body)

/-- The edge between the tables of a head and of a body literal. -/
def edge (headToBody : Bool) (theory : Option String) (head : String) (l : Literal) : Edge :=
  let table := l.tableName theory
  if headToBody then ⟨head, table, l.negated⟩ else ⟨table, head, l.negated⟩

/-- The tables under modals among some literals. -/
def modalsOf (tables : List (Literal × String)) : ModalIndex :=
  tables.foldl
    (fun index (l, table) =>
      match l.table.modal with
      | some modal => index.add ⟨modal, table⟩
      | none => index)
    {}

/-- What a formula contributes. Negated facts contribute nothing, and body literals only count
together with a head. -/
def contribution (headToBody : Bool) (selection : Selection) (theory : Option String) :
    Formula → Contribution
  | .literal l =>
      if l.isAtom && selection.atoms then
        let table := l.table.globalName theory
        { nodes := [table], modals := modalsOf [(l, table)] }
      else {}
  | .rule r =>
      let heads := headTables selection theory r
      let body := bodyLiterals selection r
      { nodes := OrderedList.ofTexts
          (heads.flatMap fun (_, table) => table :: body.map (·.tableName theory))
        edges := OrderedList.ofList compare
          (heads.flatMap fun (_, table) => body.map (edge headToBody theory table))
        modals := modalsOf heads }

/-- Applies a change. -/
def apply (d : DependencyGraph) : GraphChange → DependencyGraph
  | .node true n => { d with graph := d.graph.addNode n }
  | .node false n => { d with graph := d.graph.deleteNode n }
  | .edge true e => { d with graph := d.graph.addEdge e }
  | .edge false e => { d with graph := d.graph.deleteEdge e }
  | .modals true m => { d with modals := d.modals.union m }
  | .modals false m => { d with modals := d.modals.diff m }

/-- The change in the other direction. -/
def invert : GraphChange → GraphChange
  | .node insert n => .node (!insert) n
  | .edge insert e => .edge (!insert) e
  | .modals insert m => .modals (!insert) m

/-- The changes that insert or delete a contribution: its nodes, its edges, its modals. -/
def changes (insert : Bool) (c : Contribution) : List GraphChange :=
  c.nodes.map (.node insert) ++ c.edges.map (.edge insert) ++ [.modals insert c.modals]

/-- The changes that some events ask for. -/
def changesOf (d : DependencyGraph) (selection : Selection) (events : List Event) :
    List GraphChange :=
  events.flatMap fun e =>
    changes e.insert (contribution d.headToBody selection e.target e.formula)

/-- Applies changes in order. -/
def applyAll (d : DependencyGraph) (log : List GraphChange) : DependencyGraph := log.foldl apply d

/-- Applies events in order; the log lists the changes. -/
def update (d : DependencyGraph) (selection : Selection) (events : List Event) :
    DependencyGraph × List GraphChange :=
  let log := d.changesOf selection events
  (d.applyAll log, log)

/-- Undoes the changes of a log, the last one first. -/
def undo (d : DependencyGraph) (log : List GraphChange) : DependencyGraph :=
  d.applyAll (log.reverse.map invert)

/-- Inserts a formula. -/
def insert (d : DependencyGraph) (selection : Selection) (theory : Option String) (f : Formula) :
    DependencyGraph × List GraphChange :=
  d.update selection [{ formula := f, insert := true, target := theory }]

/-- Deletes a formula. -/
def delete (d : DependencyGraph) (selection : Selection) (theory : Option String) (f : Formula) :
    DependencyGraph × List GraphChange :=
  d.update selection [{ formula := f, insert := false, target := theory }]

/-- The graph of a policy. -/
def ofFormulas (headToBody : Bool) (selection : Selection) (theory : Option String)
    (formulas : List Formula) : DependencyGraph :=
  formulas.foldl (fun d f => (d.insert selection theory f).1) { headToBody }

/-- The graph of some rules. -/
def ofRules (rules : List Rule) : DependencyGraph :=
  ofFormulas true {} none (rules.map .rule)

/-- Removes a table with its edges. -/
def deleteTable (d : DependencyGraph) (table : String) : DependencyGraph :=
  { d with graph := d.graph.removeNode table }

/-- The tables that stand under a modal. -/
def tablesWithModal (d : DependencyGraph) (modal : String) : List String := d.modals.tables modal

/-- Some tables and all that edges lead from to them. -/
def dependencies (d : DependencyGraph) (tables : List String) : List String :=
  d.graph.dependent tables

/-- Some tables and all that edges lead to from them. -/
def definitions (d : DependencyGraph) (tables : List String) : List String :=
  d.graph.reachable tables

/-- The tables in increasing order. -/
def tables (d : DependencyGraph) : List String := d.graph.nodeList

/-- Whether some table depends on itself. -/
def hasCycle (d : DependencyGraph) : Bool := d.graph.hasCycle

/-- The strata in which a negated edge leads to a lower stratum. -/
def stratify? (d : DependencyGraph) : Option Strata := d.graph.stratify? [true]

end DependencyGraph

/-- Whether some table of a policy depends on itself. -/
def isRecursive (formulas : List Formula) : Bool :=
  (DependencyGraph.ofFormulas true {} none formulas).hasCycle

/-- The strata of the tables of a policy, unless one depends on its own negation. -/
def stratify? (formulas : List Formula) : Option Strata :=
  (DependencyGraph.ofFormulas true {} none formulas).stratify?

/-- Whether no table of a policy depends on its own negation. -/
def isStratified (formulas : List Formula) : Bool := (stratify? formulas).isSome

end DatalogPolicy

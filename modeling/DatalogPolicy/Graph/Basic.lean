import DatalogPolicy.Graph.Counts

/-!
# Reference-counted graphs

Nodes and labelled edges are counted, so that what several users have added stays
until each of them has removed it. An edge refers to both of its ends, and to a
node twice if that is either end; a node without references is removed with its
edges, which release their other ends in turn.
-/

namespace DatalogPolicy

/-- An edge between two nodes. -/
structure Edge where
  src : String
  dst : String
  label : Bool
deriving DecidableEq, Repr

/-- The order of edges: by source, by target, by label. -/
def Edge.order : Edge → Edge → Ordering :=
  compareLex (compareOn (·.src)) (compareLex (compareOn (·.dst)) (compareOn (·.label)))

instance : Ord Edge := ⟨Edge.order⟩

instance : Std.TransOrd Edge :=
  inferInstanceAs (Std.TransCmp
    (compareLex (compareOn Edge.src) (compareLex (compareOn Edge.dst) (compareOn Edge.label))))

instance : Std.LawfulEqOrd Edge where
  eq_of_compare {a b} h := by
    have h : compareLex (compareOn Edge.src)
        (compareLex (compareOn Edge.dst) (compareOn Edge.label)) a b = .eq := h
    simp only [compareLex_eq_eq, compareOn, Std.LawfulEqOrd.compare_eq_iff_eq] at h
    cases a; cases b; simp_all

/-- A graph whose nodes and edges are counted. -/
structure CountedGraph where
  nodes : Counts String := {}
  edges : Counts Edge := {}
deriving DecidableEq

/-- An edge that goes away with one of its ends, its other end, and how often it was counted. -/
structure Release where
  edge : Edge
  other : String
  count : Nat

namespace CountedGraph

/-- The number of references to a node. -/
def nodeCount (g : CountedGraph) (node : String) : Nat := g.nodes.count node

/-- The number of references to an edge. -/
def edgeCount (g : CountedGraph) (edge : Edge) : Nat := g.edges.count edge

/-- Whether a node is in the graph. -/
def containsNode (g : CountedGraph) (node : String) : Bool := g.nodes.contains node

/-- The nodes in increasing order. -/
def nodeList (g : CountedGraph) : List String := g.nodes.keys

/-- The edges in increasing order. -/
def edgeList (g : CountedGraph) : List Edge := g.edges.keys

/-- Whether a graph has no nodes. -/
def isEmpty (g : CountedGraph) : Bool := g.nodes.isEmpty

/-- Adds a reference to a node. -/
def addNode (g : CountedGraph) (node : String) : CountedGraph :=
  { g with nodes := g.nodes.add node 1 }

/-- Adds a reference to an edge and to each of its ends. -/
def addEdge (g : CountedGraph) (edge : Edge) : CountedGraph :=
  let g := (g.addNode edge.src).addNode edge.dst
  { g with edges := g.edges.add edge 1 }

/-- The edges that touch a node, with what each of them releases. -/
def incident (g : CountedGraph) (node : String) : List Release :=
  g.edges.toList.filterMap fun (edge, count) =>
    if edge.src = node then some ⟨edge, edge.dst, count⟩
    else if edge.dst = node then some ⟨edge, edge.src, count⟩
    else none

/-- Removes edges one after the other. A node that loses its last reference is removed at once,
and its edges before the remaining ones. -/
def release (g : CountedGraph) : List Release → CountedGraph
  | [] => g
  | task :: rest =>
      let edges := g.edges.erase task.edge
      if _h : task.other ∈ g.nodes then
        if g.nodeCount task.other ≤ task.count then
          let smaller : CountedGraph := { nodes := g.nodes.erase task.other, edges }
          smaller.release (smaller.incident task.other ++ rest)
        else
          release { nodes := g.nodes.remove task.other task.count, edges } rest
      else release { g with edges } rest
termination_by tasks => (g.nodes.size, tasks.length)
decreasing_by
  · exact Prod.Lex.left _ _ (Counts.size_erase_lt _h)
  · rcases Nat.lt_or_eq_of_le (Counts.size_remove_le g.nodes task.other task.count) with h | h
    · exact Prod.Lex.left _ _ h
    · rw [h]; exact Prod.Lex.right _ (Nat.lt_succ_self _)
  · exact Prod.Lex.right _ (Nat.lt_succ_self _)

/-- Removes a node with its edges, however often it is referred to. -/
def removeNode (g : CountedGraph) (node : String) : CountedGraph :=
  let smaller := { g with nodes := g.nodes.erase node }
  smaller.release (smaller.incident node)

/-- Removes a reference to a node, and the node with its edges if it was the last one. -/
def deleteNode (g : CountedGraph) (node : String) : CountedGraph :=
  if g.containsNode node then
    if g.nodeCount node ≤ 1 then g.removeNode node
    else { g with nodes := g.nodes.remove node 1 }
  else g

/-- Removes a reference to an edge and to each of its ends; unknown edges are ignored. -/
def deleteEdge (g : CountedGraph) (edge : Edge) : CountedGraph :=
  if g.edges.contains edge then
    let g := { g with edges := g.edges.remove edge 1 }
    (g.deleteNode edge.src).deleteNode edge.dst
  else g

/-- The written form of an edge. -/
def edgeText (edge : Edge) : String :=
  edge.src ++ (if edge.label then " -not-> " else " -> ") ++ edge.dst

/-- The written form of a graph, without its counts. -/
def text (g : CountedGraph) : String :=
  "\x7bnodes: [" ++ String.intercalate ", " g.nodeList ++ "], edges: [" ++
    String.intercalate ", " (g.edgeList.map edgeText) ++ "]\x7d"

end CountedGraph

end DatalogPolicy

import DatalogPolicy.Graph.Reach

/-!
# Strongly connected components

Nodes that lead to each other form a component. What each node leads to is found by
a visit of its own, and the components are sorted by how many nodes that is, which
puts a component after those to which its edges lead.
-/

namespace DatalogPolicy.CountedGraph

/-- The nodes to which edges lead from each node. -/
def successors (g : CountedGraph) : Std.ExtTreeMap String (List String) :=
  g.edgeList.foldl (fun next e => next.insert e.src (e.dst :: next.getD e.src [])) {}

/-- The nodes that are met, depth first, where some are left and others are pending. -/
def visit (next : Std.ExtTreeMap String (List String)) (left : NodeSet) :
    List String → List String
  | [] => []
  | node :: pending =>
      if _h : node ∈ left then
        node :: visit next (left.erase node) (next.getD node [] ++ pending)
      else visit next left pending
termination_by pending => (left.size, pending.length)
decreasing_by
  · have hsize : (left.erase node).size = left.size - 1 := by
      rw [Std.ExtTreeSet.size_erase, if_pos (Std.ExtTreeSet.mem_iff_contains.1 _h)]
    have hpos : 0 < left.size := Nat.pos_of_ne_zero fun h =>
      Std.ExtTreeSet.not_mem_empty (Std.ExtTreeSet.eq_empty_iff_size_eq_zero.2 h ▸ _h)
    exact Prod.Lex.left _ _ (by omega)
  · exact Prod.Lex.right _ (Nat.lt_succ_self _)

/-- What each node leads to, with the node itself. -/
def descendants (g : CountedGraph) : Std.ExtTreeMap String NodeSet :=
  let next := g.successors
  let nodes := Std.ExtTreeSet.ofList g.nodeList
  Std.ExtTreeMap.ofList
    (g.nodeList.map fun node => (node, Std.ExtTreeSet.ofList (visit next nodes [node])))

/-- A node with those that it leads to and that lead back to it. -/
def componentOf (nodes : List String) (below : Std.ExtTreeMap String NodeSet) (node : String) :
    List String :=
  nodes.filter fun n => (below.getD node {}).contains n && (below.getD n {}).contains node

/-- The components of a graph, each of them after those to which its edges lead: these lead to
fewer nodes. -/
def components (g : CountedGraph) : List (List String) :=
  let below := g.descendants
  let component := componentOf g.nodeList below
  let firsts := g.nodeList.filter fun node => (component node).head? = some node
  (OrderedList.sort (compareOn fun node => (below.getD node {}).size) firsts).map component

end DatalogPolicy.CountedGraph

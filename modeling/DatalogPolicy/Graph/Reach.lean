import DatalogPolicy.Graph.Basic
import DatalogPolicy.Graph.Rounds
import DatalogPolicy.OrderedList
import Std.Data.ExtTreeSet

/-!
# Reachability

What can be reached from some nodes is found in rounds, each of which follows
every edge once. A new node is found in every round but the last, and it is an
end of an edge, so there are no more useful rounds than edges.
-/

namespace DatalogPolicy.CountedGraph

/-- The direction in which edges are followed. -/
inductive Direction
  | forward
  | backward
deriving DecidableEq, Repr

/-- The end at which an edge is entered. -/
def Direction.source (d : Direction) (e : Edge) : String :=
  match d with
  | forward => e.src
  | backward => e.dst

/-- The end to which an edge leads. -/
def Direction.target (d : Direction) (e : Edge) : String :=
  match d with
  | forward => e.dst
  | backward => e.src

/-- A set of nodes. -/
abbrev NodeSet := Std.ExtTreeSet String

/-- The set with the targets of all edges that are entered from it. -/
def followEdges (d : Direction) (edges : List Edge) (seen : NodeSet) : NodeSet :=
  edges.foldl
    (fun found e => if seen.contains (d.source e) then found.insert (d.target e) else found)
    seen

/-- The set with all that can be reached from it along edges. -/
def closure (d : Direction) (edges : List Edge) (seen : NodeSet) : NodeSet :=
  rounds (followEdges d edges) edges.length seen

/-- Some nodes and all that can be reached from them, in increasing order. -/
def search (g : CountedGraph) (d : Direction) (roots : List String) : List String :=
  (closure d g.edgeList (Std.ExtTreeSet.ofList roots)).toList

/-- Some nodes and all that they lead to. -/
def reachable (g : CountedGraph) (roots : List String) : List String := g.search .forward roots

/-- Some nodes and all that lead to them. -/
def dependent (g : CountedGraph) (roots : List String) : List String := g.search .backward roots

/-- What a node of the graph leads to, with the node itself. -/
def dependencies? (g : CountedGraph) (node : String) : Option (List String) :=
  if g.containsNode node then some (g.reachable [node]) else none

/-- The edges of which both ends are sources of given edges. -/
def pruneEdges (edges : List Edge) : List Edge :=
  let sources : NodeSet := Std.ExtTreeSet.ofList (edges.map (·.src))
  edges.filter fun e => sources.contains e.dst

/-- Whether some node reaches itself along edges. Edges that lead to nodes without edges of their
own are on no cycle; once they are pruned as often as there are edges, only edges that lead to
cycles are left. -/
def hasCycle (g : CountedGraph) : Bool :=
  !(rounds pruneEdges g.edgeList.length g.edgeList).isEmpty

end DatalogPolicy.CountedGraph

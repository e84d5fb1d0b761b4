import DatalogPolicy.Graph.Components

/-!
# Stratification

Each node gets the least stratum such that an edge never leads to a higher one,
and an edge with a bumping label leads to a lower one. The nodes of a component
share a stratum. A component comes after those to which its edges lead, so that
their strata are known when its own is computed.
-/

namespace DatalogPolicy

/-- The strata of nodes. -/
abbrev Strata := Std.ExtTreeMap String Nat

namespace CountedGraph

/-- The edges between nodes of the graph that leave a node. -/
def edgesFrom (g : CountedGraph) (node : String) : List Edge :=
  g.edgeList.filter fun e => e.src = node && g.containsNode e.src && g.containsNode e.dst

/-- The numbers of nodes, the same new one for some of them. -/
def assign (numbers : Std.ExtTreeMap String Nat) (nodes : List String) (number : Nat) :
    Std.ExtTreeMap String Nat :=
  nodes.foldl (fun numbers node => numbers.insert node number) numbers

/-- The number of the component of each node. -/
def numbering (components : List (List String)) : Std.ExtTreeMap String Nat :=
  components.zipIdx.foldl (fun numbers c => assign numbers c.1 c.2) {}

/-- The least stratum that an edge to a stratum leaves to its source. -/
def demand (labels : List Bool) (stratum : Nat) (e : Edge) : Nat :=
  stratum + if e.label ∈ labels then 1 else 0

/-- The strata that are known: those of the first components, and those of their nodes. -/
structure Layers where
  heights : List Nat := []
  strata : Strata := {}

namespace Layers

/-- The layers with the stratum of one more component. -/
def add (l : Layers) (members : List String) (stratum : Nat) : Layers :=
  { heights := l.heights ++ [stratum], strata := assign l.strata members stratum }

/-- The stratum of the next component, raised to what one of its edges demands. There is none if
the edge stays inside and has one of the labels. -/
def raise? (l : Layers) (labels : List Bool) (numbers : Std.ExtTreeMap String Nat)
    (stratum : Nat) (e : Edge) : Option Nat :=
  let target := numbers.getD e.dst 0
  if target = l.heights.length then if e.label ∈ labels then none else some stratum
  else some (max stratum (demand labels (l.heights.getD target 0) e))

end Layers

/-- The layers with the next component, just above what its edges demand. -/
def place? (g : CountedGraph) (labels : List Bool) (numbers : Std.ExtTreeMap String Nat)
    (l : Layers) (members : List String) : Option Layers :=
  ((members.flatMap g.edgesFrom).foldlM (l.raise? labels numbers) 0).map (l.add members)

/-- The strata of nodes whose components are given, each after those to which its edges lead. -/
def stratifyBy (g : CountedGraph) (labels : List Bool) (components : List (List String)) :
    Option Strata :=
  (components.foldlM (g.place? labels (numbering components)) {}).map (·.strata)

/-- The least strata of the nodes. There are none if a cycle has an edge with one of the labels. -/
def stratify? (g : CountedGraph) (labels : List Bool) : Option Strata :=
  g.stratifyBy labels g.components

end CountedGraph

end DatalogPolicy

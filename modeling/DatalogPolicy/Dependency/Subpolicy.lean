import DatalogPolicy.Dependency.Graph

/-!
# Parts of policies

The part of a policy that defines some output tables without using prohibited
ones, and on the basis of required ones.
-/

namespace DatalogPolicy

/-- The rules that define each table, and the graph of all rules that are still in use. -/
structure Subpolicy where
  definitions : Std.ExtTreeMap String (List Rule) := {}
  graph : DependencyGraph := {}

namespace Subpolicy

/-- The tables of the heads of a rule. -/
def headTables (r : Rule) : List String := r.heads.map (·.tableName none)

/-- The tables of the body of a rule. -/
def bodyTables (r : Rule) : List String := r.body.map (·.tableName none)

/-- Adds a rule to the definitions of a table, unless they have an equal one. -/
def define (definitions : Std.ExtTreeMap String (List Rule)) (table : String) (r : Rule) :
    Std.ExtTreeMap String (List Rule) :=
  definitions.insert table (OrderedList.insert compare r (definitions.getD table []))

/-- All rules of a policy, by the tables of their heads. -/
def ofRules (rules : List Rule) : Subpolicy where
  definitions :=
    rules.foldl (fun known r => (headTables r).foldl (fun known t => define known t r) known) {}
  graph := DependencyGraph.ofRules rules

/-- Keeps only the permitted definitions of a table; the others leave the graph as well. -/
def restrict (permitted : Rule → Bool) (s : Subpolicy) (table : String) : Subpolicy :=
  match s.definitions[table]? with
  | none => s
  | some rules =>
      let dropped := rules.filter (!permitted ·)
      { definitions := s.definitions.insert table (rules.filter permitted)
        graph := dropped.foldl (fun d r => (d.delete {} none (.rule r)).1) s.graph }

/-- Keeps only the permitted definitions of some tables. -/
def restrictAll (permitted : Rule → Bool) (tables : List String) (s : Subpolicy) : Subpolicy :=
  tables.foldl (restrict permitted) s

/-- The rules that define some tables or what these are defined by, in increasing order. -/
def rulesFor (s : Subpolicy) (tables : List String) : List Rule :=
  OrderedList.ofList compare
    ((s.graph.definitions tables).flatMap fun t => s.definitions.getD t [])

/-- The rules of a policy for some output tables. A definition of an output table is left out if
its body uses a table that depends on a prohibited one and is no output table, and then if none of
its body depends on a required table in what is left of the graph. -/
def find (rules : List Rule) (required prohibited output : List String) : List Rule :=
  let output := OrderedList.ofTexts output
  let all := ofRules rules
  let banned := (all.graph.dependencies prohibited).filter (· ∉ output)
  let clean := all.restrictAll (fun r => (bodyTables r).all (· ∉ banned)) output
  let needed := clean.graph.dependencies required
  let useful := clean.restrictAll (fun r => (bodyTables r).any (· ∈ needed)) output
  useful.rulesFor output

end Subpolicy

end DatalogPolicy

import DatalogPolicy.Proofs.Dependency.Stratification
import DatalogPolicy.Proofs.Graph.Cycle

/-!
# The direction of edges

The edges of a graph lead from heads to bodies or from bodies to heads. A search for what
depends on some tables goes against the edges in both cases, and a search for what defines
them goes along the edges. So each finds what it is for where edges lead from heads to
bodies, and the other one's tables where they lead from bodies to heads.
-/

namespace DatalogPolicy

namespace CountedGraph

/-- Where two graphs have the same paths in opposite directions, the search against the edges of
one answers like that along the edges of the other. -/
theorem dependent_eq_reachable {g g' : CountedGraph} (h : g.Links = Function.swap g'.Links)
    (roots : List String) : g.dependent roots = g'.reachable roots := by
  apply increasing_search.ext increasing_search
  intro n
  have hback : n ∈ g.dependent roots ↔ _ := mem_dependent
  rw [h] at hback
  simp only [Relation.reflTransGen_swap] at hback
  exact hback.trans mem_reachable.symm

end CountedGraph

namespace DependencyGraph

section Policies

variable (selection : Selection) (theory : Option String) (formulas : List Formula)

/-- A rule of a policy has a head over the first table and a body literal over the second one, both
of them selected. Inside a theory, a head with a service of its own keeps it behind the theory, and
a body literal with one stands for the table of that service. -/
def Uses (t u : String) : Prop :=
  ∃ r, .rule r ∈ formulas ∧
    ∃ head ∈ r.heads, Selection.selects selection.heads head = true ∧
    ∃ l ∈ r.body, Selection.selects selection.body l = true ∧
      t = head.table.globalName theory ∧ u = l.tableName theory

variable {selection theory formulas}

/-- A head and a body literal that a policy uses for it contribute an edge. -/
theorem links_ofFormulas_iff {headToBody : Bool} {t u : String} :
    (ofFormulas headToBody selection theory formulas).graph.Links t u ↔
      ∃ r, .rule r ∈ formulas ∧
        ∃ head ∈ r.heads, Selection.selects selection.heads head = true ∧
        ∃ l ∈ r.body, Selection.selects selection.body l = true ∧
          (edge headToBody theory (head.table.globalName theory) l).src = t ∧
          (edge headToBody theory (head.table.globalName theory) l).dst = u := by
  have hmaintains := maintains_ofFormulas headToBody selection theory formulas
  constructor
  · rintro ⟨e, he, rfl, rfl⟩
    obtain ⟨p, hp, he⟩ := hmaintains.mem_edges.1 he
    obtain ⟨f, hf, rfl⟩ := List.mem_map.1 hp
    cases f with
    | literal l => exact absurd he (by rw [contribution]; split <;> exact List.not_mem_nil)
    | rule r =>
        simp only [mem_ruleEdges, headTables, bodyLiterals, List.map_map, List.mem_map,
          List.mem_filter] at he
        obtain ⟨-, ⟨head, ⟨hhead, hselected⟩, rfl⟩, l, ⟨hl, hbody⟩, rfl⟩ := he
        exact ⟨r, hf, head, hhead, hselected, l, hl, hbody, rfl, rfl⟩
  · rintro ⟨r, hr, head, hhead, hselected, l, hl, hbody, hsrc, hdst⟩
    have htable : head.table.globalName theory ∈ (headTables selection theory r).map Prod.snd := by
      rw [headTables, List.map_map]
      exact List.mem_map_of_mem (List.mem_filter.2 ⟨hhead, hselected⟩)
    have hliteral : l ∈ bodyLiterals selection r := List.mem_filter.2 ⟨hl, hbody⟩
    have hedge := hmaintains.mem_edges.2 ⟨_, List.mem_map_of_mem hr,
      mem_ruleEdges.2 ⟨_, htable, List.mem_map_of_mem hliteral⟩⟩
    exact ⟨_, hedge, hsrc, hdst⟩

variable (selection theory formulas)

/-- Edges from heads to bodies lead from tables to those that they use. -/
theorem links_headToBody :
    (ofFormulas true selection theory formulas).graph.Links = Uses selection theory formulas := by
  funext t u
  apply propext
  rw [links_ofFormulas_iff, Uses]
  simp only [edge, if_true, @eq_comm _ _ t, @eq_comm _ _ u]

/-- Edges from bodies to heads lead from tables to those that use them. -/
theorem links_bodyToHead : (ofFormulas false selection theory formulas).graph.Links =
    Function.swap (Uses selection theory formulas) := by
  funext t u
  apply propext
  change _ ↔ Uses selection theory formulas u t
  rw [links_ofFormulas_iff, Uses]
  simp only [edge, Bool.false_eq_true, if_false, @eq_comm _ _ t, @eq_comm _ _ u,
    and_comm (a := t = _)]

end Policies

/-- Where edges lead from heads to bodies, the dependencies of some tables are these tables and all
that use them, directly or through other tables, and their definitions are these tables and all that
they use. Where edges lead from bodies to heads, the two answers are exchanged. -/
theorem dependencies_ofFormulas (selection : Selection) (theory : Option String)
    (formulas : List Formula) (tables : List String) :
    (∀ t, t ∈ (ofFormulas true selection theory formulas).dependencies tables ↔
      t ∈ tables ∨ ∃ u ∈ tables, Relation.TransGen (Uses selection theory formulas) t u) ∧
    (∀ t, t ∈ (ofFormulas true selection theory formulas).definitions tables ↔
      t ∈ tables ∨ ∃ u ∈ tables, Relation.TransGen (Uses selection theory formulas) u t) ∧
    (ofFormulas false selection theory formulas).dependencies tables =
      (ofFormulas true selection theory formulas).definitions tables ∧
    (ofFormulas false selection theory formulas).definitions tables =
      (ofFormulas true selection theory formulas).dependencies tables := by
  have hforth := links_headToBody selection theory formulas
  have hback := links_bodyToHead selection theory formulas
  rw [← hforth] at hback ⊢
  refine ⟨fun t => CountedGraph.mem_dependent_iff, fun t => CountedGraph.mem_reachable_iff,
    CountedGraph.dependent_eq_reachable hback tables,
    (CountedGraph.dependent_eq_reachable ?_ tables).symm⟩
  rw [hback]

/-- A head of a rule uses the body, but where edges lead from bodies to heads it is not among the
dependencies of the body. -/
theorem dependencies_reversedRule :
    Relation.TransGen (Uses {} none [pairRule ["q"]]) "p" "q" ∧
      "p" ∉ (ofFormulas false {} none [pairRule ["q"]]).dependencies ["q"] := by
  have huses : Uses {} none [pairRule ["q"]] "p" "q" :=
    ⟨_, List.mem_singleton_self _, _, List.mem_cons_self, rfl, _, List.mem_singleton_self _, rfl,
      rfl, rfl⟩
  exact ⟨.single huses, by decide +kernel⟩

end DependencyGraph

end DatalogPolicy

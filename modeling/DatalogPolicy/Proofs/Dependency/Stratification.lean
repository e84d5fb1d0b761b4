import DatalogPolicy.Proofs.Dependency.Maintenance
import DatalogPolicy.Proofs.Graph.Stratification

/-!
# Strata of a policy

The graph of a policy has the tables of its facts and rules as nodes, and an edge for
each head and body literal of a rule. Its strata are the least ones in which no rule
derives a table from a higher one, or from the negation of one that is as high.
-/

namespace DatalogPolicy

/-- The tables of a policy and their dependencies: a head depends on each literal of its body, and
strictly if that is negated. -/
def policyDependencies (formulas : List Formula) : Dependencies where
  nodes := {n |
    (∃ l, .literal l ∈ formulas ∧ l.negated = false ∧ n = l.tableName none) ∨
    ∃ r, .rule r ∈ formulas ∧ ∃ l ∈ r.heads ++ r.body, n = l.tableName none}
  DependsOn h b strict :=
    ∃ r, .rule r ∈ formulas ∧ ∃ head ∈ r.heads, ∃ l ∈ r.body,
      h = head.tableName none ∧ b = l.tableName none ∧ strict = l.negated

namespace TableName

/-- Outside of a theory, both ways of naming a table agree. -/
theorem globalName_none (t : TableName) : t.globalName none = t.name none := by
  cases h : t.service with
  | none => simp [globalName, name, joinParts, h, String.intercalate_singleton]
  | some service =>
      simp [globalName, name, joinParts, h, joinService, String.intercalate_cons_cons]

end TableName

namespace DependencyGraph

section Members

variable {headToBody : Bool} {selection : Selection} {d : DependencyGraph} {entries : List Entry}

theorem mem_total {β : Type} {f : Entry → Multiset β} {x : β} :
    x ∈ total f entries ↔ ∃ p ∈ entries, x ∈ f p := by
  induction entries with
  | nil => simp [total]
  | cons p rest ih => rw [total_cons, Multiset.mem_add, ih, List.exists_mem_cons_iff]

/-- The edges of a graph are those that its entries contribute. -/
theorem Maintains.mem_edges (h : Maintains headToBody selection d entries) {e : Edge} :
    e ∈ d.graph.edges ↔
      ∃ p ∈ entries, e ∈ (contribution headToBody selection p.2 p.1).edges := by
  rw [h.accounts.graph.edges.mem_iff, mem_total]
  rfl

/-- The ends of the edges that a formula contributes are among its nodes. -/
theorem ends_mem_nodes {theory : Option String} {f : Formula} {e : Edge}
    (h : e ∈ (contribution headToBody selection theory f).edges) :
    e.src ∈ (contribution headToBody selection theory f).nodes ∧
      e.dst ∈ (contribution headToBody selection theory f).nodes := by
  cases f with
  | literal l =>
      rw [contribution] at h
      split at h <;> exact absurd h List.not_mem_nil
  | rule r =>
      obtain ⟨t, ht, he⟩ := mem_ruleEdges.1 h
      obtain ⟨l, hl, rfl⟩ := List.mem_map.1 he
      have hhead : t ∈ (contribution headToBody selection theory (.rule r)).nodes :=
        mem_ruleNodes.2 ⟨t, ht, .inl rfl⟩
      have hbody : l.tableName theory ∈
          (contribution headToBody selection theory (.rule r)).nodes :=
        mem_ruleNodes.2 ⟨t, ht, .inr (List.mem_map_of_mem hl)⟩
      cases headToBody with
      | true => exact ⟨hhead, hbody⟩
      | false => exact ⟨hbody, hhead⟩

/-- The nodes of a graph are those that its entries contribute. -/
theorem Maintains.mem_nodes (h : Maintains headToBody selection d entries) {n : String} :
    n ∈ d.graph.nodes ↔
      ∃ p ∈ entries, n ∈ (contribution headToBody selection p.2 p.1).nodes := by
  rw [h.accounts.graph.nodes.mem_iff, Multiset.mem_add, mem_total]
  constructor
  · rintro (hn | hn)
    · exact hn
    · rw [CountedGraph.ends, Multiset.mem_add, Multiset.mem_map, Multiset.mem_map] at hn
      rcases hn with ⟨e, he, rfl⟩ | ⟨e, he, rfl⟩
      · obtain ⟨p, hp, he⟩ := mem_total.1 he
        exact ⟨p, hp, (ends_mem_nodes he).1⟩
      · obtain ⟨p, hp, he⟩ := mem_total.1 he
        exact ⟨p, hp, (ends_mem_nodes he).2⟩
  · exact .inl

theorem Maintains.closed (h : Maintains headToBody selection d entries) : d.graph.Closed := by
  intro e he
  obtain ⟨p, hp, he⟩ := h.mem_edges.1 he
  obtain ⟨hsrc, hdst⟩ := ends_mem_nodes he
  exact ⟨h.mem_nodes.2 ⟨p, hp, hsrc⟩, h.mem_nodes.2 ⟨p, hp, hdst⟩⟩

end Members

section Policies

variable {formulas : List Formula}

/-- The graph of a policy counts what its formulas contribute. -/
theorem maintains_ofFormulas (headToBody : Bool) (selection : Selection) (theory : Option String)
    (formulas : List Formula) :
    Maintains headToBody selection (ofFormulas headToBody selection theory formulas)
      (formulas.map (·, theory)) := by
  have h : Maintains headToBody selection
      (ofEntries headToBody selection (formulas.map (·, theory))) _ :=
    (maintains_ofEntries _).of_reverse
  rwa [ofEntries, List.foldl_map] at h

theorem filter_selects_none (literals : List Literal) :
    literals.filter (Selection.selects none) = literals :=
  List.filter_eq_self.2 fun _ _ => rfl

theorem mem_headTables {r : Rule} {t : String} :
    t ∈ (headTables {} none r).map Prod.snd ↔ ∃ l ∈ r.heads, t = l.tableName none := by
  simp only [headTables, filter_selects_none, List.map_map, List.mem_map, Function.comp_apply,
    TableName.globalName_none, Literal.tableName, eq_comm]

theorem mem_contribution_nodes {f : Formula} {n : String} :
    n ∈ (contribution true {} none f).nodes ↔
      (∃ l, f = .literal l ∧ l.negated = false ∧ n = l.tableName none) ∨
        ∃ r, f = .rule r ∧ ∃ l ∈ r.heads ++ r.body, n = l.tableName none := by
  cases f with
  | literal l =>
      simp only [Formula.literal.injEq, exists_eq_left', reduceCtorEq, false_and, exists_false,
        or_false]
      rw [contribution, Literal.isAtom, Bool.and_true, TableName.globalName_none]
      cases l.negated with
      | true => simp
      | false => simp [Literal.tableName]
  | rule r =>
      simp only [Formula.rule.injEq, exists_eq_left', reduceCtorEq, false_and, exists_false,
        false_or]
      rw [mem_ruleNodes, bodyLiterals, filter_selects_none]
      constructor
      · rintro ⟨t, ht, rfl | hn⟩
        · obtain ⟨l, hl, rfl⟩ := mem_headTables.1 ht
          exact ⟨l, List.mem_append_left _ hl, rfl⟩
        · obtain ⟨l, hl, rfl⟩ := List.mem_map.1 hn
          exact ⟨l, List.mem_append_right _ hl, rfl⟩
      · rintro ⟨l, hl, rfl⟩
        rcases List.mem_append.1 hl with hhead | hbody
        · exact ⟨_, mem_headTables.2 ⟨l, hhead, rfl⟩, .inl rfl⟩
        · -- a rule has a head, together with which the literal counts
          have hhead := List.head_mem r.heads_ne
          exact ⟨_, mem_headTables.2 ⟨_, hhead, rfl⟩, .inr (List.mem_map_of_mem hbody)⟩

theorem mem_contribution_edges {f : Formula} {e : Edge} :
    e ∈ (contribution true {} none f).edges ↔
      ∃ r, f = .rule r ∧ ∃ head ∈ r.heads, ∃ l ∈ r.body,
        e = ⟨head.tableName none, l.tableName none, l.negated⟩ := by
  cases f with
  | literal l =>
      simp only [reduceCtorEq, false_and, exists_false, iff_false]
      intro h
      rw [contribution] at h
      split at h <;> exact List.not_mem_nil h
  | rule r =>
      simp only [Formula.rule.injEq, exists_eq_left']
      rw [mem_ruleEdges, bodyLiterals, filter_selects_none]
      constructor
      · rintro ⟨t, ht, he⟩
        obtain ⟨head, hhead, rfl⟩ := mem_headTables.1 ht
        obtain ⟨l, hl, rfl⟩ := List.mem_map.1 he
        exact ⟨head, hhead, l, hl, rfl⟩
      · rintro ⟨head, hhead, l, hl, rfl⟩
        exact ⟨_, mem_headTables.2 ⟨head, hhead, rfl⟩, List.mem_map_of_mem hl⟩

/-- The dependencies along the edges of the graph of a policy are those of the policy. -/
theorem dependenciesUnder_ofFormulas (formulas : List Formula) :
    (ofFormulas true {} none formulas).graph.dependenciesUnder [true] =
      policyDependencies formulas := by
  have h := maintains_ofFormulas true {} none formulas
  have hlabel (b : Bool) : decide (b ∈ [true]) = b := by cases b <;> rfl
  rw [CountedGraph.dependenciesUnder, policyDependencies, Dependencies.mk.injEq]
  constructor
  · ext n
    apply h.mem_nodes.trans
    constructor
    · rintro ⟨p, hp, hn⟩
      obtain ⟨f, hf, rfl⟩ := List.mem_map.1 hp
      rcases mem_contribution_nodes.1 hn with ⟨l, rfl, hl⟩ | ⟨r, rfl, hr⟩
      · exact .inl ⟨l, hf, hl⟩
      · exact .inr ⟨r, hf, hr⟩
    · rintro (⟨l, hf, hl⟩ | ⟨r, hf, hr⟩)
      · exact ⟨_, List.mem_map_of_mem hf, mem_contribution_nodes.2 (.inl ⟨l, rfl, hl⟩)⟩
      · exact ⟨_, List.mem_map_of_mem hf, mem_contribution_nodes.2 (.inr ⟨r, rfl, hr⟩)⟩
  · funext n m strict
    refine propext ⟨?_, ?_⟩
    · rintro ⟨e, he, rfl, rfl, hstrict⟩
      obtain ⟨p, hp, he⟩ := h.mem_edges.1 he
      obtain ⟨f, hf, rfl⟩ := List.mem_map.1 hp
      obtain ⟨r, rfl, head, hhead, l, hl, rfl⟩ := mem_contribution_edges.1 he
      rw [hlabel] at hstrict
      exact ⟨r, hf, head, hhead, l, hl, rfl, rfl, hstrict.symm⟩
    · rintro ⟨r, hf, head, hhead, l, hl, rfl, rfl, rfl⟩
      refine ⟨_, h.mem_edges.2 ⟨_, List.mem_map_of_mem hf, mem_contribution_edges.2
        ⟨r, rfl, head, hhead, l, hl, rfl⟩⟩, rfl, rfl, hlabel _⟩

end Policies

end DependencyGraph

/-- The strata of a policy, and those of any graph for any labels, are the least ones that respect
the dependencies, and they exist unless a cycle passes through a strict dependency. They are the
same whichever way the strongly connected components are listed with successors first. -/
theorem stratifiedBy_leastStrata :
    (∀ formulas, (policyDependencies formulas).StratifiedBy (stratify? formulas)) ∧
    (∀ operations labels,
      ((CountedGraph.ofOperations operations).dependenciesUnder labels).StratifiedBy
        ((CountedGraph.ofOperations operations).stratify? labels)) ∧
    (∀ formulas components,
      (DependencyGraph.ofFormulas true {} none formulas).graph.ListsComponents components →
        (DependencyGraph.ofFormulas true {} none formulas).graph.stratifyBy [true] components =
          stratify? formulas) ∧
    ∀ operations,
      (CountedGraph.ofOperations operations).ListsComponents
        (CountedGraph.ofOperations operations).components ∧
      ∀ labels components,
        (CountedGraph.ofOperations operations).ListsComponents components →
          (CountedGraph.ofOperations operations).stratifyBy labels components =
            (CountedGraph.ofOperations operations).stratify? labels := by
  have hpolicy (formulas : List Formula) :=
    (DependencyGraph.maintains_ofFormulas true {} none formulas).closed
  have hgraph := CountedGraph.closed_ofOperations
  refine ⟨fun formulas => ?_, fun operations labels => (hgraph operations).stratifiedBy labels,
    fun formulas components h => h.stratifyBy_eq (hpolicy formulas) [true],
    fun operations => ⟨(hgraph operations).listsComponents,
      fun labels components h => h.stratifyBy_eq (hgraph operations) labels⟩⟩
  rw [← DependencyGraph.dependenciesUnder_ofFormulas]
  exact (hpolicy formulas).stratifiedBy [true]

/-- Two cycles, and edges with both labels from one of them to the other. -/
def sampleCycles : List CountedGraph.Operation :=
  [.addEdge ⟨"p", "q", false⟩, .addEdge ⟨"q", "p", false⟩, .addEdge ⟨"q", "r", false⟩,
    .addEdge ⟨"q", "r", true⟩, .addEdge ⟨"r", "s", false⟩, .addEdge ⟨"s", "r", false⟩]

theorem stratifiedBy_sampleCycles :
    (CountedGraph.ofOperations sampleCycles).ListsComponents [["s", "r"], ["q", "p"]] ∧
      ((CountedGraph.ofOperations sampleCycles).stratify? [true]).map (·.toList) =
        some [("p", 1), ("q", 1), ("r", 0), ("s", 0)] ∧
      (CountedGraph.ofOperations sampleCycles).stratify? [false] = none := by
  have hlists : (CountedGraph.ofOperations sampleCycles).ListsComponents
      [["s", "r"], ["q", "p"]] := by
    decide +kernel
  refine ⟨hlists, ?_, ?_⟩
  · rw [← (stratifiedBy_leastStrata.2.2.2 sampleCycles).2 [true] _ hlists]
    decide +kernel
  · rw [← (stratifiedBy_leastStrata.2.2.2 sampleCycles).2 [false] _ hlists]
    decide +kernel

end DatalogPolicy

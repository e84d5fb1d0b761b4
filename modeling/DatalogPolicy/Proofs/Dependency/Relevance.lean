import DatalogPolicy.Proofs.Dependency.Found

/-!
# Parts of policies on the basis of required tables

The definitions of output tables in the extracted part build on required tables. The other
rules are there for the tables that these definitions use, and need not build on a required
table themselves. As long as no dropped rule is repeated, the output table for which they
are there does.
-/

namespace DatalogPolicy.Subpolicy

open DependencyGraph

section Policies

variable {rules : List Rule} {required prohibited output : List String} {r : Rule} {t : String}
  {e : Edge}

/-- A table is a required one or depends on one. -/
def BuildsOn (rules : List Rule) (required : List String) (t : String) : Prop :=
  ∃ q ∈ required, DependsOn rules t q

/-- No rule that is dropped stands twice. -/
def DropsOnce (rules : List Rule) (required prohibited output : List String) : Prop :=
  rules.Pairwise fun a b => IsDropped rules required prohibited output a → (a == b) = false

theorem buildsOn_iff : BuildsOn rules required t ↔ t ∈ (ofRules rules).graph.dependencies required := by
  rw [DependencyGraph.dependencies, CountedGraph.mem_dependent, links_ofRules]
  rfl

instance : Decidable (BuildsOn rules required t) := decidable_of_iff _ buildsOn_iff.symm

theorem BuildsOn.head {u : String} (h : BuildsOn rules required t) (hu : DependsOn rules u t) :
    BuildsOn rules required u := by
  obtain ⟨q, hq, hdepends⟩ := h
  exact ⟨q, hq, hu.trans hdepends⟩

/-- The heads of a rule that is needed build on a required table. -/
theorem buildsOn_of_isNeeded (hr : r ∈ rules)
    (hneeded : isNeeded rules required prohibited output r = true) (ht : t ∈ headTables r) :
    BuildsOn rules required t := by
  obtain ⟨b, hb, hmem⟩ := List.any_eq_true.1 hneeded
  obtain ⟨q, hq, hpath⟩ := CountedGraph.mem_dependent.1 (of_decide_eq_true hmem)
  have hbody : BuildsOn rules required b :=
    ⟨q, hq, dependsOn_of_links (thins_clean rules prohibited output) hpath⟩
  exact hbody.head (dependsOn_of_rule hr ht hb)

/-- Where no dropped rule is repeated, an edge that is left of an output table comes from a rule
that is not dropped. -/
theorem exists_not_isDropped (h : DropsOnce rules required prohibited output)
    (hsrc : e.src ∈ output)
    (he : e ∈ (useful rules required prohibited output).graph.graph.edges) :
    ∃ r ∈ rules, e ∈ r.edges ∧ ¬ IsDropped rules required prohibited output r := by
  by_contra hnone
  have hall (r : Rule) (hr : r ∈ rules) (he : e ∈ r.edges) :
      IsDropped rules required prohibited output r :=
    not_not.1 fun hkept => hnone ⟨r, hr, he, hkept⟩
  -- the rules that contribute the edge are dropped in the first restriction or in the second one
  have hdropped (r : Rule) (hr : r ∈ rules) (he : e ∈ r.edges) :
      ∃ r' ∈ (((ofRules rules).rulesOf e.src).filter
          (!mayDefine rules prohibited output ·)).filter (e ∈ ·.edges) ++
        (((clean rules prohibited output).rulesOf e.src).filter
          (!isNeeded rules required prohibited output ·)).filter (e ∈ ·.edges),
        (r == r') = true := by
    obtain ⟨r', hr', heq⟩ := exists_mem_rulesOf_ofRules hr (mem_of_mem_edges he).1
    have he' : e ∈ r'.edges := edges_congr heq ▸ he
    refine ⟨r', List.mem_append.2 ?_, heq⟩
    simp only [List.mem_filter, decide_eq_true he', and_true, Bool.not_eq_true']
    cases hmay : mayDefine rules prohibited output r' with
    | false => exact .inl ⟨hr', rfl⟩
    | true =>
        refine .inr ⟨mem_rulesOf_restrictAll.2 ⟨hr', fun _ => hmay⟩, ?_⟩
        rw [← Bool.not_eq_true]
        exact fun hneeded => (hall r' (mem_rulesOf_ofRules hr').1 he').2 ⟨hmay, hneeded⟩
  have hsource := OrderedList.mem_ofTexts.2 hsrc
  have hcontributed := edgeCount_ofRules_le h hall hdropped
  have hclean : (clean rules prohibited output).graph.graph.edgeCount e ≤ _ :=
    edgeCount_restrictAll _ (maintains_ofRules rules).headToBody_eq hsource
  have huseful : (useful rules required prohibited output).graph.graph.edgeCount e ≤ _ :=
    edgeCount_restrictAll _ ((thins_clean rules prohibited output).headToBody_eq.trans
      (maintains_ofRules rules).headToBody_eq) hsource
  have hpos : 0 < (useful rules required prohibited output).graph.graph.edgeCount e :=
    ((thins_useful rules required prohibited output).wellFormed
      (wellFormed_clean rules prohibited output)).counted.edges.mem_iff.1 he
  rw [List.length_append, ← List.countP_eq_length_filter, ← List.countP_eq_length_filter]
    at hcontributed
  omega

/-- What output tables lead to is an output table, or it is there for an output table. -/
theorem exists_output {o : String} (ho : o ∈ output)
    (hpath : Relation.ReflTransGen (useful rules required prohibited output).graph.graph.Links o t) :
    t ∈ output ∨ ∃ o ∈ output, DependsOn rules o t ∧
      (DropsOnce rules required prohibited output → BuildsOn rules required o) := by
  have hthins := (thins_clean rules prohibited output).trans
    (thins_useful rules required prohibited output)
  induction hpath with
  | refl => exact .inl ho
  | @tail x y _ hlink ih =>
      have hstep : DependsOn rules x y := dependsOn_of_links hthins (.single hlink)
      rcases ih with hx | ⟨o, ho, hdepends, hbuilds⟩
      · refine .inr ⟨x, hx, hstep, fun h => ?_⟩
        obtain ⟨e, he, rfl, rfl⟩ := hlink
        obtain ⟨r, hr, hedge, hkept⟩ := exists_not_isDropped h hx he
        have hhead := (mem_of_mem_edges hedge).1
        rw [IsDropped, not_and, not_not] at hkept
        exact buildsOn_of_isNeeded hr (hkept ⟨_, hhead, hx⟩).2 hhead
      · exact .inr ⟨o, ho, hdepends.trans hstep, hbuilds⟩

/-- All heads of a rule of the extracted part build on required tables, or the rule defines a table
that is no output table and on which an output table depends. If no dropped rule is repeated, this
output table builds on a required one. -/
theorem find_buildsOn (rules : List Rule) (required prohibited output : List String) :
    ∀ r ∈ find rules required prohibited output,
      (∀ t ∈ headTables r, BuildsOn rules required t) ∨
      ∃ t ∈ headTables r, t ∉ output ∧ ∃ o ∈ output, DependsOn rules o t ∧
        (DropsOnce rules required prohibited output → BuildsOn rules required o) := by
  intro r hr
  obtain ⟨t, ht, hr⟩ := List.mem_flatMap.1 (mem_found_of_mem_find hr)
  obtain ⟨o, ho, hpath⟩ := CountedGraph.mem_reachable.1 ht
  obtain ⟨hr, hkept⟩ := mem_rulesOf_useful.1 hr
  obtain ⟨hrule, hhead⟩ := mem_rulesOf_ofRules hr
  by_cases houtput : t ∈ output
  · exact .inl fun u hu => buildsOn_of_isNeeded hrule (hkept houtput).2 hu
  · exact .inr ⟨t, hhead, houtput,
      (exists_output (OrderedList.mem_ofTexts.1 ho) hpath).resolve_left houtput⟩

end Policies

/-- An output table with a definition by a required table and with another one. -/
def relevantRules : List Rule :=
  [columnRule "out" ["a"], columnRule "a" ["b"], columnRule "out" ["c"], columnRule "c" ["d"]]

/-- The definition that is found of the output table builds on the required one. -/
theorem find_relevantRules :
    DropsOnce relevantRules ["b"] [] ["out"] ∧
    (find relevantRules ["b"] [] ["out"]).map headTables = [["a"], ["out"]] ∧
    ∃ r ∈ find relevantRules ["b"] [] ["out"], headTables r = ["out"] ∧
      ∀ t ∈ headTables r, BuildsOn relevantRules ["b"] t := by
  have hunequal : relevantRules.Pairwise fun a b => (a == b) = false := by decide +kernel
  have hdrops : DropsOnce relevantRules ["b"] [] ["out"] :=
    hunequal.imp fun {a b} hab (_ : IsDropped relevantRules ["b"] [] ["out"] a) => hab
  have hfound : (find relevantRules ["b"] [] ["out"]).map headTables = [["a"], ["out"]] := by
    decide +kernel
  have hmem : ["out"] ∈ (find relevantRules ["b"] [] ["out"]).map headTables := by
    rw [hfound]
    decide
  obtain ⟨r, hr, hheads⟩ := List.mem_map.1 hmem
  refine ⟨hdrops, hfound, r, hr, hheads, ?_⟩
  rcases find_buildsOn relevantRules ["b"] [] ["out"] r hr with hbuilds | ⟨t, ht, hother, -⟩
  · exact hbuilds
  · exact absurd (hheads ▸ ht) hother

/-- The definition of an output table builds on a required table and uses another one. -/
def supportedRules : List Rule := [columnRule "out" ["a", "b"], columnRule "b" ["c"]]

/-- A rule is found that only supports the definition and builds on no required table. -/
theorem find_supportedRules :
    ∃ r ∈ find supportedRules ["a"] [] ["out"], ∃ t ∈ headTables r,
      ¬ BuildsOn supportedRules ["a"] t := by
  have hfound : ∃ r ∈ found supportedRules ["a"] [] ["out"], "b" ∈ headTables r := by
    decide +kernel
  have hbuilds : ¬ BuildsOn supportedRules ["a"] "b" := by decide +kernel
  obtain ⟨r, hr, hhead⟩ := hfound
  obtain ⟨r', hr', hequal⟩ := exists_mem_find hr
  exact ⟨r', hr', "b", (Rule.headTables_congr hequal).1 hhead, hbuilds⟩

end DatalogPolicy.Subpolicy

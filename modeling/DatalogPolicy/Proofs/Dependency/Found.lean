import DatalogPolicy.Proofs.Dependency.Subpolicy

/-!
# What is left of a policy

The extraction of a part first drops banned definitions of output tables and then those
that are not needed. The result are the definitions of all tables to which output tables
still lead.
-/

namespace DatalogPolicy

namespace Rule

variable {a b : Rule}

theorem headTables_congr (h : (a == b) = true) {t : String} :
    t ∈ Subpolicy.headTables a ↔ t ∈ Subpolicy.headTables b := by
  have hperm := (heads_sayAlike h).map fun c => c.table.name none
  rw [List.map_map, List.map_map] at hperm
  exact hperm.mem_iff

theorem bodyTables_congr (h : (a == b) = true) {t : String} :
    t ∈ Subpolicy.bodyTables a ↔ t ∈ Subpolicy.bodyTables b := by
  have hperm := (body_sayAlike h).map fun c => c.table.name none
  rw [List.map_map, List.map_map] at hperm
  exact hperm.mem_iff

end Rule

namespace Subpolicy

section Dependencies

variable {rules : List Rule} {d : DependencyGraph} {a b : String}

/-- The head of a rule depends on its body. -/
theorem dependsOn_of_rule {r : Rule} (hr : r ∈ rules) (ha : a ∈ headTables r)
    (hb : b ∈ bodyTables r) : DependsOn rules a b := by
  obtain ⟨head, hhead, rfl⟩ := List.mem_map.1 ha
  obtain ⟨l, hl, rfl⟩ := List.mem_map.1 hb
  exact .single ⟨l.negated, r, List.mem_map_of_mem hr, head, hhead, l, hl, rfl, rfl, rfl⟩

/-- Where something can still be reached, there is a dependency. -/
theorem dependsOn_of_links (hd : (ofRules rules).graph.Thins d)
    (h : Relation.ReflTransGen d.graph.Links a b) : DependsOn rules a b := by
  rw [DependsOn, ← links_ofRules]
  refine Relation.ReflTransGen.mono ?_ a b h
  rintro a b ⟨e, he, hsrc, hdst⟩
  exact ⟨e, hd.mem_edges (wellFormed_ofRules rules) he, hsrc, hdst⟩

end Dependencies

section Stages

variable {rules : List Rule} {required prohibited output : List String} {r : Rule} {t : String}

/-- The tables that depend on a required one when the banned definitions have been dropped. -/
def neededTables (rules : List Rule) (required prohibited output : List String) : List String :=
  (clean rules prohibited output).graph.dependencies required

/-- Whether some table of the body of a rule is needed. -/
def isNeeded (rules : List Rule) (required prohibited output : List String) (r : Rule) : Bool :=
  (bodyTables r).any (· ∈ neededTables rules required prohibited output)

/-- What is left of a policy when output tables have only those definitions that are needed. -/
def useful (rules : List Rule) (required prohibited output : List String) : Subpolicy :=
  (clean rules prohibited output).restrictAll (isNeeded rules required prohibited output)
    (OrderedList.ofTexts output)

theorem thins_useful (rules : List Rule) (required prohibited output : List String) :
    (clean rules prohibited output).graph.Thins (useful rules required prohibited output).graph :=
  thins_restrictAll _ _ _

/-- A rule is left as a definition unless the table is an output table that it may not define or
for which it is not needed. -/
theorem mem_rulesOf_useful : r ∈ (useful rules required prohibited output).rulesOf t ↔
    r ∈ (ofRules rules).rulesOf t ∧ (t ∈ output → mayDefine rules prohibited output r = true ∧
      isNeeded rules required prohibited output r = true) := by
  rw [useful, mem_rulesOf_restrictAll, clean, mem_rulesOf_restrictAll, OrderedList.mem_ofTexts,
    and_assoc, imp_and]

/-- The definitions that are left of all tables to which output tables lead. -/
def found (rules : List Rule) (required prohibited output : List String) : List Rule :=
  ((useful rules required prohibited output).graph.definitions (OrderedList.ofTexts output)).flatMap
    (useful rules required prohibited output).rulesOf

theorem mem_found_of_mem_find (h : r ∈ find rules required prohibited output) :
    r ∈ found rules required prohibited output :=
  OrderedList.mem_of_mem_ofList h

/-- The extracted part has what is found, up to equality. -/
theorem exists_mem_find (h : r ∈ found rules required prohibited output) :
    ∃ r' ∈ find rules required prohibited output, (r == r') = true := by
  obtain ⟨r', hr', hcompare⟩ : ∃ r' ∈ find rules required prohibited output, compare r r' = .eq :=
    OrderedList.exists_mem_ofList h
  exact ⟨r', hr', Rule.beq_of_compare hcompare⟩

/-- A rule is dropped from the definitions of an output table, because it uses a banned table or
because it uses no needed one. -/
def IsDropped (rules : List Rule) (required prohibited output : List String) (r : Rule) : Prop :=
  (∃ t ∈ headTables r, t ∈ output) ∧
    ¬ (mayDefine rules prohibited output r = true ∧
      isNeeded rules required prohibited output r = true)

instance : Decidable (IsDropped rules required prohibited output r) :=
  inferInstanceAs (Decidable ((∃ t ∈ headTables r, t ∈ output) ∧ ¬ _))

end Stages

end Subpolicy

end DatalogPolicy

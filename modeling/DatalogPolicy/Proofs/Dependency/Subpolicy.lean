import DatalogPolicy.Dependency.Subpolicy
import DatalogPolicy.Proofs.Dependency.Changes
import DatalogPolicy.Proofs.Formula.Order
import DatalogPolicy.Proofs.Graph.Reach

/-!
# Parts of policies without prohibited data

A rule of the extracted part uses no table that depends on a prohibited one, other than
output tables, as long as the rules that would let such a table in are not repeated. Each
of them is then counted once in the graph and dropped once, so no edge is left that leads
from an output table to a banned one.
-/

namespace DatalogPolicy

open DependencyGraph

/-- The edges that a rule contributes to the graph of a policy. -/
def Rule.edges (r : Rule) : List Edge := (contribution true {} none (.rule r)).edges

/-- One graph has come from another one by changes that count no edge more often. -/
structure DependencyGraph.Thins (d d' : DependencyGraph) : Prop where
  headToBody_eq : d'.headToBody = d.headToBody
  wellFormed : d.WellFormed → d'.WellFormed
  edgeCount_le : ∀ e, d'.graph.edgeCount e ≤ d.graph.edgeCount e

namespace DependencyGraph.Thins

variable {d d' d'' : DependencyGraph}

theorem refl (d : DependencyGraph) : d.Thins d := ⟨rfl, id, fun _ => Nat.le_refl _⟩

theorem trans (h : d.Thins d') (h' : d'.Thins d'') : d.Thins d'' where
  headToBody_eq := h'.headToBody_eq.trans h.headToBody_eq
  wellFormed := h'.wellFormed ∘ h.wellFormed
  edgeCount_le e := (h'.edgeCount_le e).trans (h.edgeCount_le e)

theorem delete (d : DependencyGraph) (r : Rule) : d.Thins (d.delete {} none (.rule r)).1 := by
  refine ⟨headToBody_applyAll d _, fun h => h.applyAll (counted_changesOf d {} _), fun e => ?_⟩
  show (d.applyAll (d.changesOf {} _)).graph.edgeCount e ≤ _
  rw [changesOf, List.flatMap_singleton]
  exact (edgeCount_deleteContribution _).trans (Nat.sub_le _ _)

/-- An edge of the graph that is left was there before. -/
theorem mem_edges (h : d.Thins d') (hd : d.WellFormed) {e : Edge} (he : e ∈ d'.graph.edges) :
    e ∈ d.graph.edges := by
  have hpos := (h.wellFormed hd).counted.edges.mem_iff.1 he
  exact hd.counted.edges.mem_iff.2 (Nat.lt_of_lt_of_le hpos (h.edgeCount_le e))

end DependencyGraph.Thins

/-- Deleting a rule counts its edges less often. -/
theorem DependencyGraph.edgeCount_delete {d : DependencyGraph} (hd : d.headToBody = true)
    {e : Edge} {r : Rule} :
    (d.delete {} none (.rule r)).1.graph.edgeCount e ≤
      d.graph.edgeCount e - if e ∈ r.edges then 1 else 0 := by
  have hdelete : (d.delete {} none (.rule r)).1 =
      d.applyAll (changes false (contribution true {} none (.rule r))) := by
    rw [DependencyGraph.delete, update, changesOf, List.flatMap_singleton, hd]
  rw [hdelete]
  have hcount := edgeCount_deleteContribution (d := d) (e := e)
    (contribution true {} none (.rule r))
  rwa [List.Nodup.count (nodup_edges true (.rule r))] at hcount

namespace Subpolicy

section Definitions

variable {s : Subpolicy} {permitted : Rule → Bool} {tables : List String} {t u : String} {r : Rule}
  {rules : List Rule}

/-- The rules by which a table is defined. -/
def rulesOf (s : Subpolicy) (t : String) : List Rule := s.definitions.getD t []

theorem rulesOf_restrict : (restrict permitted s u).rulesOf t =
    if u = t then (s.rulesOf t).filter permitted else s.rulesOf t := by
  rw [restrict]
  split
  · next hnone =>
      split
      · next hut =>
          have hempty : s.rulesOf t = [] := by
            rw [rulesOf, Std.ExtTreeMap.getD_eq_getD_getElem?, ← hut, hnone]
            rfl
          rw [hempty]
          rfl
      · rfl
  · next known hsome =>
      simp only [rulesOf, Std.ExtTreeMap.getD_insert, Std.LawfulEqOrd.compare_eq_iff_eq]
      split
      · next hut =>
          rw [Std.ExtTreeMap.getD_eq_getD_getElem?, ← hut, hsome]
          rfl
      · rfl

/-- The rules of a table after a restriction to permitted rules. -/
theorem mem_rulesOf_restrictAll : r ∈ (s.restrictAll permitted tables).rulesOf t ↔
    r ∈ s.rulesOf t ∧ (t ∈ tables → permitted r = true) := by
  induction tables generalizing s with
  | nil => simp [restrictAll]
  | cons u rest ih =>
      rw [restrictAll, List.foldl_cons]
      have hrest := ih (s := restrict permitted s u)
      rw [restrictAll] at hrest
      rw [hrest, rulesOf_restrict]
      split
      · next hut =>
          subst hut
          rw [List.mem_filter]
          simp only [List.mem_cons_self, true_imp_iff]
          exact ⟨fun h => h.1, fun h => ⟨h, fun _ => h.2⟩⟩
      · next hut => simp only [List.mem_cons, Ne.symm hut, false_or]

theorem getD_define {known : Std.ExtTreeMap String (List Rule)} :
    (define known u r).getD t [] =
      if u = t then OrderedList.insert compare r (known.getD t []) else known.getD t [] := by
  simp only [define, Std.ExtTreeMap.getD_insert, Std.LawfulEqOrd.compare_eq_iff_eq]
  split
  · next hut => rw [hut]
  · rfl

/-- The definitions with a rule added to those of some tables. -/
def defineAll (known : Std.ExtTreeMap String (List Rule)) (tables : List String) (r : Rule) :
    Std.ExtTreeMap String (List Rule) :=
  tables.foldl (fun known t => define known t r) known

section DefineAll

variable {known : Std.ExtTreeMap String (List Rule)} {r' : Rule}

theorem mem_defineAll (h : r' ∈ (defineAll known tables r).getD t []) :
    r' ∈ known.getD t [] ∨ r' = r ∧ t ∈ tables := by
  induction tables generalizing known with
  | nil => exact .inl h
  | cons u rest ih =>
      rcases ih h with hknown | ⟨hr, ht⟩
      · rw [getD_define] at hknown
        split at hknown
        · next hut =>
            rcases OrderedList.mem_of_mem_insert hknown with heq | hold
            · exact .inr ⟨heq, hut ▸ List.mem_cons_self⟩
            · exact .inl hold
        · exact .inl hknown
      · exact .inr ⟨hr, List.mem_cons_of_mem u ht⟩

theorem mem_defineAll_of_mem (h : r' ∈ known.getD t []) :
    r' ∈ (defineAll known tables r).getD t [] := by
  induction tables generalizing known with
  | nil => exact h
  | cons u rest ih =>
      apply ih
      rw [getD_define]
      split
      · exact OrderedList.mem_insert_of_mem h
      · exact h

theorem exists_mem_defineAll (h : t ∈ tables) :
    ∃ r' ∈ (defineAll known tables r).getD t [], (r == r') = true := by
  induction tables generalizing known with
  | nil => exact absurd h List.not_mem_nil
  | cons u rest ih =>
      rcases List.mem_cons.1 h with rfl | hrest
      · obtain ⟨r', hr', heq⟩ : ∃ r' ∈ OrderedList.insert compare r (known.getD t []),
            compare r r' = .eq := OrderedList.exists_mem_insert r _
        have hdefined : r' ∈ (define known t r).getD t [] := by rwa [getD_define, if_pos rfl]
        have hkept : r' ∈ (defineAll (define known t r) rest r).getD t [] :=
          mem_defineAll_of_mem hdefined
        exact ⟨r', hkept, Rule.beq_of_compare heq⟩
      · exact ih hrest

end DefineAll

/-- The definitions of the rules of a policy, after some that are known. -/
def definitionsFrom (known : Std.ExtTreeMap String (List Rule)) (rules : List Rule) :
    Std.ExtTreeMap String (List Rule) :=
  rules.foldl (fun known r => defineAll known (headTables r) r) known

theorem mem_rulesOf_ofRules (h : r ∈ (ofRules rules).rulesOf t) :
    r ∈ rules ∧ t ∈ headTables r := by
  have hfold (known : Std.ExtTreeMap String (List Rule))
      (h : r ∈ (definitionsFrom known rules).getD t []) :
      r ∈ known.getD t [] ∨ r ∈ rules ∧ t ∈ headTables r := by
    clear * - h
    induction rules generalizing known with
    | nil => exact .inl h
    | cons first rest ih =>
        rcases ih _ h with hknown | ⟨hr, ht⟩
        · rcases mem_defineAll hknown with hold | ⟨rfl, ht⟩
          · exact .inl hold
          · exact .inr ⟨List.mem_cons_self, ht⟩
        · exact .inr ⟨List.mem_cons_of_mem first hr, ht⟩
  have hempty : r ∉ Std.ExtTreeMap.getD (∅ : Std.ExtTreeMap String (List Rule)) t [] := by
    rw [Std.ExtTreeMap.getD_empty]
    exact List.not_mem_nil
  exact (hfold {} h).resolve_left hempty

theorem exists_mem_rulesOf_ofRules (hr : r ∈ rules) (ht : t ∈ headTables r) :
    ∃ r' ∈ (ofRules rules).rulesOf t, (r == r') = true := by
  have hkeep {r' : Rule} (known : Std.ExtTreeMap String (List Rule)) (rules : List Rule)
      (h : r' ∈ known.getD t []) : r' ∈ (definitionsFrom known rules).getD t [] := by
    induction rules generalizing known with
    | nil => exact h
    | cons first rest ih => exact ih _ (mem_defineAll_of_mem h)
  have hfold (known : Std.ExtTreeMap String (List Rule)) :
      ∃ r' ∈ (definitionsFrom known rules).getD t [], (r == r') = true := by
    induction rules generalizing known with
    | nil => exact absurd hr List.not_mem_nil
    | cons first rest ih =>
        rcases List.mem_cons.1 hr with rfl | hrest
        · obtain ⟨r', hr', heq⟩ : ∃ r' ∈ (defineAll known (headTables r) r).getD t [],
              (r == r') = true := exists_mem_defineAll ht
          exact ⟨r', hkeep _ rest hr', heq⟩
        · exact ih hrest _
  exact hfold {}

end Definitions

section Graphs

variable {s : Subpolicy} {permitted : Rule → Bool} {t : String} {e : Edge}

theorem thins_foldl_delete (d : DependencyGraph) (dropped : List Rule) :
    d.Thins (dropped.foldl (fun d r => (d.delete {} none (.rule r)).1) d) := by
  induction dropped generalizing d with
  | nil => exact .refl d
  | cons r rest ih => exact (Thins.delete d r).trans (ih _)

theorem edgeCount_foldl_delete {d : DependencyGraph} (hd : d.headToBody = true)
    (dropped : List Rule) :
    (dropped.foldl (fun d r => (d.delete {} none (.rule r)).1) d).graph.edgeCount e ≤
      d.graph.edgeCount e - dropped.countP fun r => e ∈ r.edges := by
  induction dropped generalizing d with
  | nil => exact Nat.le_refl _
  | cons r rest ih =>
      have hrest := ih ((Thins.delete d r).headToBody_eq.trans hd)
      have hstep := edgeCount_delete hd (e := e) (r := r)
      rw [List.countP_cons]
      simp only [decide_eq_true_eq]
      exact hrest.trans (by omega)

/-- A restriction deletes the definitions that are not permitted, one after the other. -/
theorem graph_restrict (permitted : Rule → Bool) (s : Subpolicy) (t : String) :
    (restrict permitted s t).graph =
      ((s.rulesOf t).filter (!permitted ·)).foldl (fun d r => (d.delete {} none (.rule r)).1)
        s.graph := by
  rw [restrict, rulesOf, Std.ExtTreeMap.getD_eq_getD_getElem?]
  split
  · next hnone =>
      rw [hnone]
      rfl
  · next known hsome =>
      rw [hsome]
      rfl

theorem thins_restrict (permitted : Rule → Bool) (s : Subpolicy) (t : String) :
    s.graph.Thins (restrict permitted s t).graph := by
  rw [graph_restrict]
  exact thins_foldl_delete _ _

theorem thins_restrictAll (permitted : Rule → Bool) (s : Subpolicy) (tables : List String) :
    s.graph.Thins (s.restrictAll permitted tables).graph := by
  induction tables generalizing s with
  | nil => exact .refl _
  | cons t rest ih => exact (thins_restrict permitted s t).trans (ih _)

theorem edgeCount_restrict (hs : s.graph.headToBody = true) :
    (restrict permitted s t).graph.graph.edgeCount e ≤
      s.graph.graph.edgeCount e -
        ((s.rulesOf t).filter (!permitted ·)).countP fun r => e ∈ r.edges := by
  rw [graph_restrict]
  exact edgeCount_foldl_delete hs _

/-- A restriction takes the edges of all rules out that it drops from a table. -/
theorem edgeCount_restrictAll (permitted : Rule → Bool) (hs : s.graph.headToBody = true)
    {tables : List String} (ht : t ∈ tables) :
    (s.restrictAll permitted tables).graph.graph.edgeCount e ≤
      s.graph.graph.edgeCount e -
        ((s.rulesOf t).filter (!permitted ·)).countP fun r => e ∈ r.edges := by
  induction tables generalizing s with
  | nil => exact absurd ht List.not_mem_nil
  | cons u rest ih =>
      by_cases hut : u = t
      · subst hut
        have hrest : (restrict permitted s u).graph.Thins
            ((restrict permitted s u).restrictAll permitted rest).graph := thins_restrictAll permitted _ rest
        exact (hrest.edgeCount_le e).trans (edgeCount_restrict hs)
      · have hstep := thins_restrict permitted s u
        have hrest := ih (hstep.headToBody_eq.trans hs)
          ((List.mem_cons.1 ht).resolve_left (Ne.symm hut))
        rw [rulesOf_restrict, if_neg hut] at hrest
        exact hrest.trans (Nat.sub_le_sub_right (hstep.edgeCount_le e) _)

end Graphs

section Policies

variable {rules : List Rule} {prohibited output : List String} {r : Rule} {t b : String} {e : Edge}

/-- A table of a policy is another one or depends on it. -/
def DependsOn (rules : List Rule) : String → String → Prop :=
  Relation.ReflTransGen (policyDependencies (rules.map .rule)).Step

/-- A table that output tables may be defined by: one of them, or one that depends on no
prohibited table. -/
def MayUse (rules : List Rule) (prohibited output : List String) (table : String) : Prop :=
  table ∈ output ∨ ∀ p ∈ prohibited, ¬ DependsOn rules table p

/-- A rule defines an output table by a table by which it may not be defined. -/
def IsBanned (rules : List Rule) (prohibited output : List String) (r : Rule) : Prop :=
  (∃ t ∈ headTables r, t ∈ output) ∧ ∃ t ∈ bodyTables r, ¬ MayUse rules prohibited output t

/-- The tables by which no output table may be defined. -/
def bannedTables (rules : List Rule) (prohibited output : List String) : List String :=
  ((ofRules rules).graph.dependencies prohibited).filter (· ∉ OrderedList.ofTexts output)

/-- Whether an output table may be defined by a rule. -/
def mayDefine (rules : List Rule) (prohibited output : List String) (r : Rule) : Bool :=
  (bodyTables r).all (· ∉ bannedTables rules prohibited output)

/-- What is left of a policy without the rules by which output tables may not be defined. -/
def clean (rules : List Rule) (prohibited output : List String) : Subpolicy :=
  (ofRules rules).restrictAll (mayDefine rules prohibited output) (OrderedList.ofTexts output)

theorem mem_edges : e ∈ r.edges ↔ ∃ t ∈ headTables r, ∃ l ∈ r.body,
    e = ⟨t, l.tableName none, l.negated⟩ := by
  rw [Rule.edges, mem_contribution_edges]
  simp only [Formula.rule.injEq, exists_eq_left', headTables, List.mem_map, exists_exists_and_eq_and]

theorem maintains_ofRules (rules : List Rule) :
    Maintains true {} (ofRules rules).graph ((rules.map .rule).map (·, none)) :=
  maintains_ofFormulas true {} none (rules.map .rule)

theorem wellFormed_ofRules (rules : List Rule) : (ofRules rules).graph.WellFormed where
  closed := (maintains_ofRules rules).closed
  counted := ⟨(maintains_ofRules rules).accounts.graph.nodes.positive,
    (maintains_ofRules rules).accounts.graph.edges.positive⟩
  modals := (maintains_ofRules rules).accounts.modals.positive

theorem edgeCount_ofRules :
    (ofRules rules).graph.graph.edgeCount e = rules.countP fun r => e ∈ r.edges := by
  rw [(maintains_ofRules rules).edgeCount_eq, List.map_map, List.countP_map]
  rfl

/-- The edges of the graph of a policy are its dependencies. -/
theorem links_ofRules :
    (ofRules rules).graph.graph.Links = (policyDependencies (rules.map .rule)).Step := by
  rw [← dependenciesUnder_ofFormulas]
  funext a b
  apply propext
  constructor
  · rintro ⟨e, he, hsrc, hdst⟩
    exact ⟨_, e, he, hsrc, hdst, rfl⟩
  · rintro ⟨strict, e, he, hsrc, hdst, -⟩
    exact ⟨e, he, hsrc, hdst⟩

theorem mem_bannedTables :
    b ∈ bannedTables rules prohibited output ↔ ¬ MayUse rules prohibited output b := by
  rw [bannedTables, List.mem_filter, DependencyGraph.dependencies, CountedGraph.mem_dependent,
    links_ofRules, decide_eq_true_eq, OrderedList.mem_ofTexts, MayUse, not_or, and_comm]
  simp only [not_forall, not_not, exists_prop]
  rfl

theorem thins_clean (rules : List Rule) (prohibited output : List String) :
    (ofRules rules).graph.Thins (clean rules prohibited output).graph :=
  thins_restrictAll _ _ _

theorem wellFormed_clean (rules : List Rule) (prohibited output : List String) :
    (clean rules prohibited output).graph.WellFormed :=
  (thins_clean rules prohibited output).wellFormed (wellFormed_ofRules rules)

theorem mayDefine_iff : mayDefine rules prohibited output r = true ↔
    ∀ t ∈ bodyTables r, MayUse rules prohibited output t := by
  simp only [mayDefine, List.all_eq_true, decide_eq_true_eq, mem_bannedTables, not_not]

/-- Rules no two of which are equal are no more than those that have an equal of each. -/
theorem length_le_of_unequal {xs ys : List Rule} (hxs : xs.Pairwise fun a b => (a == b) = false)
    (h : ∀ x ∈ xs, ∃ y ∈ ys, (x == y) = true) : xs.length ≤ ys.length := by
  have hnodup : (xs.map Rule.content).Nodup := by
    rw [List.Nodup, List.pairwise_map]
    apply hxs.imp
    intro a b hab heq
    rw [Rule.beq_iff.2 heq] at hab
    cases hab
  have hsubset : xs.map Rule.content ⊆ ys.map Rule.content := by
    intro c hc
    obtain ⟨x, hx, rfl⟩ := List.mem_map.1 hc
    obtain ⟨y, hy, hxy⟩ := h x hx
    exact List.mem_map.2 ⟨y, hy, (Rule.beq_iff.1 hxy).symm⟩
  have hlength := (hnodup.subperm hsubset).length_le
  rwa [List.length_map, List.length_map] at hlength

theorem edges_congr {a b : Rule} (h : (a == b) = true) : a.edges = b.edges :=
  congrArg Contribution.edges
    (contribution_congr true (Selection.respects_default true) (f := .rule a) (g := .rule b) h)

/-- If rules that are not repeated contribute an edge, it is counted no more often than there are
rules that have an equal of each of them. -/
theorem edgeCount_ofRules_le {P : Rule → Prop} {dropped : List Rule}
    (h : rules.Pairwise fun a b => P a → (a == b) = false)
    (hP : ∀ r ∈ rules, e ∈ r.edges → P r)
    (hdropped : ∀ r ∈ rules, e ∈ r.edges → ∃ r' ∈ dropped, (r == r') = true) :
    (ofRules rules).graph.graph.edgeCount e ≤ dropped.length := by
  have hmem {r : Rule} (hr : r ∈ rules.filter (e ∈ ·.edges)) : r ∈ rules ∧ e ∈ r.edges :=
    (List.mem_filter.1 hr).imp_right of_decide_eq_true
  have hunequal : (rules.filter (e ∈ ·.edges)).Pairwise fun a b => (a == b) = false :=
    (h.filter (e ∈ ·.edges)).imp_of_mem fun ha _ hab => hab (hP _ (hmem ha).1 (hmem ha).2)
  rw [edgeCount_ofRules, List.countP_eq_length_filter]
  exact length_le_of_unequal hunequal fun r hr => hdropped r (hmem hr).1 (hmem hr).2

theorem mem_of_mem_edges (he : e ∈ r.edges) : e.src ∈ headTables r ∧ e.dst ∈ bodyTables r := by
  obtain ⟨t, ht, l, hl, rfl⟩ := mem_edges.1 he
  exact ⟨ht, List.mem_map_of_mem hl⟩

/-- No edge is left from an output table to a banned one. -/
theorem not_mem_edges_clean
    (h : rules.Pairwise fun a b => IsBanned rules prohibited output a → (a == b) = false)
    (hsrc : e.src ∈ output) (hdst : ¬ MayUse rules prohibited output e.dst) :
    e ∉ (clean rules prohibited output).graph.graph.edges := by
  have hbanned (r : Rule) (_ : r ∈ rules) (he : e ∈ r.edges) :
      IsBanned rules prohibited output r := by
    obtain ⟨hhead, hbody⟩ := mem_of_mem_edges he
    exact ⟨⟨_, hhead, hsrc⟩, _, hbody, hdst⟩
  -- each rule that contributes the edge is dropped from the definitions of its source
  have hdropped (r : Rule) (hmem : r ∈ rules) (he : e ∈ r.edges) :
      ∃ r' ∈ (((ofRules rules).rulesOf e.src).filter
          (!mayDefine rules prohibited output ·)).filter (e ∈ ·.edges), (r == r') = true := by
    obtain ⟨r', hr', heq⟩ := exists_mem_rulesOf_ofRules hmem (mem_of_mem_edges he).1
    have he' : e ∈ r'.edges := edges_congr heq ▸ he
    refine ⟨r', List.mem_filter.2 ⟨List.mem_filter.2 ⟨hr', ?_⟩, decide_eq_true he'⟩, heq⟩
    rw [Bool.not_eq_true', ← Bool.not_eq_true, mayDefine_iff]
    exact fun hall => hdst (hall e.dst (mem_of_mem_edges he').2)
  have hcount := edgeCount_restrictAll (mayDefine rules prohibited output) (e := e)
    (maintains_ofRules rules).headToBody_eq (OrderedList.mem_ofTexts.2 hsrc)
  rw [List.countP_eq_length_filter,
    Nat.sub_eq_zero_of_le (edgeCount_ofRules_le h hbanned hdropped)] at hcount
  rw [(wellFormed_clean rules prohibited output).counted.edges.mem_iff]
  exact Nat.not_lt_of_le hcount

/-- A table to which output tables lead in what is left may be used by them. -/
theorem mayUse_of_links
    (h : rules.Pairwise fun a b => IsBanned rules prohibited output a → (a == b) = false)
    {d : DependencyGraph} (hd : (clean rules prohibited output).graph.Thins d) {o : String}
    (ho : o ∈ output) (ht : Relation.ReflTransGen d.graph.Links o t) :
    MayUse rules prohibited output t := by
  induction ht with
  | refl => exact .inl ho
  | tail _ hlink ih =>
      obtain ⟨e, he, rfl, rfl⟩ := hlink
      have hclean := hd.mem_edges (wellFormed_clean rules prohibited output) he
      -- an output table is left with no edge to a banned one; what leads to no prohibited table
      -- leads only to tables that do not either
      rcases ih with houtput | hfree
      · by_contra hnot
        exact not_mem_edges_clean h houtput hnot hclean
      · have hall := (thins_clean rules prohibited output).mem_edges (wellFormed_ofRules rules) hclean
        have hstep : (ofRules rules).graph.graph.Links e.src e.dst := ⟨e, hall, rfl, rfl⟩
        rw [links_ofRules] at hstep
        exact .inr fun p hp hdst => hfree p hp (.head hstep hdst)

/-- As long as no rule that defines an output table by a banned one is repeated, the extracted part
uses no prohibited table and none that depends on one, unless it is an output table. -/
theorem find_mayUse (required : List String)
    (h : rules.Pairwise fun a b => IsBanned rules prohibited output a → (a == b) = false) :
    ∀ r ∈ find rules required prohibited output, ∀ l ∈ r.body,
      MayUse rules prohibited output (l.tableName none) := by
  intro r hr l hl
  obtain ⟨t, ht, hr⟩ := List.mem_flatMap.1 (OrderedList.mem_of_mem_ofList hr)
  obtain ⟨hr, -⟩ := mem_rulesOf_restrictAll.1 hr
  obtain ⟨hr, hdefines⟩ := mem_rulesOf_restrictAll.1 hr
  obtain ⟨hrule, hhead⟩ := mem_rulesOf_ofRules hr
  rw [DependencyGraph.definitions, CountedGraph.mem_reachable] at ht
  obtain ⟨o, ho, hpath⟩ := ht
  have huse : MayUse rules prohibited output t :=
    mayUse_of_links h (thins_restrictAll _ _ _) (OrderedList.mem_ofTexts.1 ho) hpath
  rcases huse with houtput | hfree
  · have hpermitted : mayDefine rules prohibited output r = true :=
      hdefines (OrderedList.mem_ofTexts.2 houtput)
    exact mayDefine_iff.1 hpermitted _ (List.mem_map_of_mem hl)
  · obtain ⟨head, hmem, rfl⟩ := List.mem_map.1 hhead
    have hstep : (policyDependencies (rules.map .rule)).Step (head.tableName none)
        (l.tableName none) :=
      ⟨l.negated, r, List.mem_map_of_mem hrule, head, hmem, l, hl, rfl, rfl, rfl⟩
    exact .inr fun p hp hdepends => hfree p hp (.head hstep hdepends)

end Policies

/-- A rule over tables with one column. -/
def columnRule (head : String) (body : List String) : Rule :=
  let literal := fun table => ({ table := { table }, arguments := [⟨.var "x", none⟩] } : Literal)
  { heads := [literal head], body := body.map literal, heads_ne := List.cons_ne_nil _ _ }

/-- An output table with a definition by a secret one and with another definition. -/
def guardedRules : List Rule :=
  [columnRule "out" ["a"], columnRule "a" ["secret"], columnRule "out" ["b"]]

theorem find_guardedRules :
    (guardedRules.Pairwise fun a b =>
      IsBanned guardedRules ["secret"] ["out"] a → (a == b) = false) ∧
    (find guardedRules ["b"] ["secret"] ["out"]).map bodyTables = [["b"]] ∧
    ∀ r ∈ find guardedRules ["b"] ["secret"] ["out"], ∀ l ∈ r.body,
      MayUse guardedRules ["secret"] ["out"] (l.tableName none) := by
  have hunequal : guardedRules.Pairwise fun a b => (a == b) = false := by decide +kernel
  have h := hunequal.imp fun {a b} hab (_ : IsBanned guardedRules ["secret"] ["out"] a) => hab
  exact ⟨h, by decide +kernel, find_mayUse ["b"] h⟩

/-- The rule that defines an output table by a banned one stands twice. -/
def repeatedRules : List Rule :=
  [columnRule "out" ["a"], columnRule "out" ["a"], columnRule "a" ["input", "secret"]]

/-- Of a repeated rule only one reference is dropped, and its edge lets prohibited data in. -/
theorem find_repeatedRules :
    ∃ r ∈ find repeatedRules ["input"] ["secret"] ["out"], ∃ l ∈ r.body,
      ¬ MayUse repeatedRules ["secret"] ["out"] (l.tableName none) := by
  have hfound : (find repeatedRules ["input"] ["secret"] ["out"]).map bodyTables =
      [["input", "secret"]] := by decide +kernel
  have hmem : ["input", "secret"] ∈
      (find repeatedRules ["input"] ["secret"] ["out"]).map bodyTables :=
    hfound ▸ List.mem_singleton_self _
  obtain ⟨r, hr, hbody⟩ := List.mem_map.1 hmem
  have hsecret : "secret" ∈ bodyTables r :=
    hbody ▸ List.mem_cons_of_mem _ (List.mem_singleton_self _)
  obtain ⟨l, hl, htable⟩ := List.mem_map.1 hsecret
  refine ⟨r, hr, l, hl, ?_⟩
  rw [htable]
  rintro (houtput | hfree)
  · exact absurd houtput (by decide)
  · exact hfree "secret" (List.mem_singleton_self _) .refl

end Subpolicy

end DatalogPolicy

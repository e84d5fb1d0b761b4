import DatalogPolicy.Proofs.Dependency.Found
import Mathlib.Data.List.Pairwise

/-!
# Parts of policies that define what they use

With a rule, the extracted part has all definitions of the tables in its body, other than
output tables, as long as no rule that is dropped has heads over different tables. Such a
rule is dropped for its output tables only, and stays a definition of its other tables,
while all of its edges leave the graph, once for each output table.

The proof keeps the rules whose edges are still counted. All remaining definitions are
among them, as a dropped rule is a definition of one table and is dropped from it once.
-/

namespace DatalogPolicy

open DependencyGraph

namespace Rule

variable {a b : Rule}

instance : Std.Symm fun a b : Rule => (a == b) = false where
  symm a b h := by rwa [BEq.comm]

theorem beq_eq_false_of_compare (h : compare a b = .lt) : (a == b) = false := by
  rw [← Bool.not_eq_true, beq_iff_compare, h]
  exact Ordering.noConfusion

end Rule

namespace Subpolicy

section Entries

variable {kept : List Entry} {d : DependencyGraph}

/-- A rule in the graph of a policy. -/
def entry (r : Rule) : Entry := (.rule r, none)

theorem entry_beq_entry {a b : Rule} : (entry a == entry b) = (a == b) := Bool.and_true _

theorem contains_entry {r : Rule} {rules : List Rule} (h : r ∈ rules) :
    (rules.map entry).contains (entry r) = true := by
  refine List.contains_iff_exists_mem_beq.2 ⟨entry r, List.mem_map_of_mem h, ?_⟩
  rw [entry_beq_entry]
  exact BEq.rfl

/-- Taking out a rule leaves those that are not equal to it. -/
theorem contains_erase_entry {a b : Rule} (hb : kept.contains (entry b) = true)
    (hab : (a == b) = false) : (kept.erase (entry a)).contains (entry b) = true := by
  induction kept with
  | nil => exact hb
  | cons p rest ih =>
      rw [List.contains_cons, Bool.or_eq_true] at hb
      rw [List.erase_cons]
      split
      · next hp =>
          refine hb.resolve_left fun hfound => ?_
          have hformula : (Formula.rule b == Formula.rule a) = true :=
            BEq.trans (entry_beq_iff.1 hfound).1 (entry_beq_iff.1 hp).1
          have hba : (b == a) = true := hformula
          rw [BEq.symm hba] at hab
          cases hab
      · rw [List.contains_cons, Bool.or_eq_true]
        exact hb.imp_right ih

/-- Deleting different rules that are counted leaves the other ones counted. -/
theorem exists_maintains_foldl_delete (h : Maintains true {} d kept) {dropped : List Rule}
    (hunequal : dropped.Pairwise fun a b => (a == b) = false)
    (hkept : ∀ r ∈ dropped, kept.contains (entry r) = true) :
    ∃ kept', Maintains true {} (dropped.foldl (fun d r => (d.delete {} none (.rule r)).1) d) kept' ∧
      ∀ r, kept.contains (entry r) = true → (∀ a ∈ dropped, (a == r) = false) →
        kept'.contains (entry r) = true := by
  induction dropped generalizing d kept with
  | nil => exact ⟨kept, h, fun r hr _ => hr⟩
  | cons a rest ih =>
      obtain ⟨ha, hrest⟩ := List.pairwise_cons.1 hunequal
      obtain ⟨hfirst, hothers⟩ := List.forall_mem_cons.1 hkept
      have hdelete : Maintains true {} (d.delete {} none (.rule a)).1 (kept.erase (entry a)) :=
        h.update (Selection.respects_default true) ⟨fun _ => hfirst, trivial⟩
      obtain ⟨kept', hmaintains, hleft⟩ :=
        ih hdelete hrest fun r hr => contains_erase_entry (hothers r hr) (ha r hr)
      refine ⟨kept', hmaintains, fun r hr hdiffers => ?_⟩
      obtain ⟨har, hdiffers⟩ := List.forall_mem_cons.1 hdiffers
      exact hleft r (contains_erase_entry hr har) hdiffers

end Entries

/-- The edges that the graph counts are those of some rules, and all definitions are among these.
No table has two equal definitions. -/
structure Accounted (s : Subpolicy) (kept : List Entry) : Prop where
  maintains : Maintains true {} s.graph kept
  contains : ∀ t, ∀ r ∈ s.rulesOf t, kept.contains (entry r) = true
  defines : ∀ t, ∀ r ∈ s.rulesOf t, t ∈ headTables r
  unequal : ∀ t, (s.rulesOf t).Pairwise fun a b => (a == b) = false

section Definitions

variable {rules : List Rule} {known : Std.ExtTreeMap String (List Rule)}

theorem increasing_defineAll (tables : List String) (r : Rule)
    (h : ∀ t, OrderedList.Increasing compare (known.getD t [])) (t : String) :
    OrderedList.Increasing compare ((defineAll known tables r).getD t []) := by
  induction tables generalizing known with
  | nil => exact h t
  | cons u rest ih =>
      apply ih
      intro t
      rw [getD_define]
      split
      · exact OrderedList.increasing_insert (h t)
      · exact h t

theorem increasing_definitionsFrom (h : ∀ t, OrderedList.Increasing compare (known.getD t []))
    (t : String) : OrderedList.Increasing compare ((definitionsFrom known rules).getD t []) := by
  induction rules generalizing known with
  | nil => exact h t
  | cons r rest ih => exact ih (increasing_defineAll (headTables r) r h)

theorem increasing_rulesOf_ofRules (rules : List Rule) (t : String) :
    OrderedList.Increasing compare ((ofRules rules).rulesOf t) := by
  apply increasing_definitionsFrom
  intro t
  rw [Std.ExtTreeMap.getD_empty]
  exact List.Pairwise.nil

/-- The graph of a policy counts its rules, which are all of the definitions. -/
theorem accounted_ofRules (rules : List Rule) : (ofRules rules).Accounted (rules.map entry) where
  maintains := by
    have h := maintains_ofRules rules
    rwa [List.map_map] at h
  contains _ _ hr := contains_entry (mem_rulesOf_ofRules hr).1
  defines _ _ hr := (mem_rulesOf_ofRules hr).2
  unequal t := (increasing_rulesOf_ofRules rules t).imp Rule.beq_eq_false_of_compare

end Definitions

namespace Accounted

variable {s : Subpolicy} {kept : List Entry} {permitted : Rule → Bool} {u : String}

theorem restrict (h : s.Accounted kept)
    (hdropped : ∀ r ∈ s.rulesOf u, permitted r = false → ∀ t ∈ headTables r, t = u) :
    ∃ kept', (restrict permitted s u).Accounted kept' := by
  have hmem {r : Rule} {t : String} (hr : r ∈ (Subpolicy.restrict permitted s u).rulesOf t) :
      r ∈ s.rulesOf t ∧ (u = t → permitted r = true) := by
    rw [rulesOf_restrict] at hr
    split at hr
    · exact ⟨List.mem_of_mem_filter hr, fun _ => (List.mem_filter.1 hr).2⟩
    · next hne => exact ⟨hr, fun heq => absurd heq hne⟩
  obtain ⟨kept', hmaintains, hleft⟩ := exists_maintains_foldl_delete h.maintains
    ((h.unequal u).filter (!permitted ·)) fun r hr => h.contains u r (List.mem_of_mem_filter hr)
  refine ⟨kept', ?_, fun t r hr => ?_, fun t r hr => h.defines t r (hmem hr).1, fun t => ?_⟩
  · rw [graph_restrict]
    exact hmaintains
  · obtain ⟨hold, hpermitted⟩ := hmem hr
    refine hleft r (h.contains t r hold) fun a ha => ?_
    obtain ⟨ha, hnot⟩ := List.mem_filter.1 ha
    rw [Bool.not_eq_true'] at hnot
    rw [← Bool.not_eq_true]
    intro heq
    -- a dropped rule is a definition of one table only, in which it has no equal
    obtain rfl : t = u := hdropped a ha hnot t ((Rule.headTables_congr heq).2 (h.defines t r hold))
    have hne : a ≠ r := by
      rintro rfl
      rw [hpermitted rfl] at hnot
      cases hnot
    have hdiffers : (a == r) = false := (h.unequal t).forall ha hold hne
    rw [heq] at hdiffers
    cases hdiffers
  · rw [rulesOf_restrict]
    split
    · exact (h.unequal t).filter _
    · exact h.unequal t

/-- Dropping definitions from tables keeps the others counted, if each of them defines one table. -/
theorem restrictAll (h : s.Accounted kept) {tables : List String}
    (hdropped : ∀ u ∈ tables, ∀ r ∈ s.rulesOf u, permitted r = false →
      ∀ t ∈ headTables r, t = u) :
    ∃ kept', (s.restrictAll permitted tables).Accounted kept' := by
  induction tables generalizing s kept with
  | nil => exact ⟨kept, h⟩
  | cons u rest ih =>
      obtain ⟨hfirst, hrest⟩ := List.forall_mem_cons.1 hdropped
      obtain ⟨kept', hkept⟩ := h.restrict hfirst
      apply ih hkept
      intro v hv r hr
      rw [rulesOf_restrict] at hr
      split at hr
      · exact hrest v hv r (List.mem_of_mem_filter hr)
      · exact hrest v hv r hr

/-- The edges of all definitions are in the graph. -/
theorem mem_edges (h : s.Accounted kept) {t : String} {r : Rule} (hr : r ∈ s.rulesOf t) {e : Edge}
    (he : e ∈ r.edges) : e ∈ s.graph.graph.edges := by
  obtain ⟨p, hp, heq⟩ := List.contains_iff_exists_mem_beq.1 (h.contains t r hr)
  have hcongr : entryContribution true {} (entry r) = entryContribution true {} p :=
    entryContribution_congr (Selection.respects_default true) heq
  exact h.maintains.mem_edges.2 ⟨p, hp, congrArg Contribution.edges hcongr ▸ he⟩

end Accounted

section Policies

variable {rules : List Rule} {required prohibited output : List String} {r : Rule}

/-- All definitions that are left are counted, if no dropped rule has heads over different tables. -/
theorem exists_accounted_useful
    (h : ∀ r ∈ rules, IsDropped rules required prohibited output r →
      ∀ t ∈ headTables r, ∀ u ∈ headTables r, t = u) :
    ∃ kept, (useful rules required prohibited output).Accounted kept := by
  have honly {u : String} {r : Rule} (hu : u ∈ OrderedList.ofTexts output)
      (hr : r ∈ (ofRules rules).rulesOf u)
      (hnot : ¬ (mayDefine rules prohibited output r = true ∧
        isNeeded rules required prohibited output r = true)) : ∀ t ∈ headTables r, t = u := by
    obtain ⟨hrule, hhead⟩ := mem_rulesOf_ofRules hr
    have hdropped : IsDropped rules required prohibited output r :=
      ⟨⟨u, hhead, OrderedList.mem_ofTexts.1 hu⟩, hnot⟩
    exact fun t ht => h r hrule hdropped t ht u hhead
  obtain ⟨kept, hclean⟩ : ∃ kept, (clean rules prohibited output).Accounted kept :=
    (accounted_ofRules rules).restrictAll fun u hu r hr hbanned =>
      honly hu hr fun hboth => Bool.false_ne_true (hbanned.symm.trans hboth.1)
  exact hclean.restrictAll fun u hu r hr huseless =>
    honly hu (mem_rulesOf_restrictAll.1 hr).1 fun hboth =>
      Bool.false_ne_true (huseless.symm.trans hboth.2)

/-- As long as no dropped rule has heads over different tables, the extracted part has with each
rule all definitions of the tables in its body that are no output tables. -/
theorem find_selfContained
    (h : ∀ r ∈ rules, IsDropped rules required prohibited output r →
      ∀ t ∈ headTables r, ∀ u ∈ headTables r, t = u) :
    ∀ r ∈ find rules required prohibited output, ∀ l ∈ r.body, l.tableName none ∉ output →
      ∀ d ∈ rules, l.tableName none ∈ headTables d →
        ∃ d' ∈ find rules required prohibited output, (d == d') = true := by
  intro r hr l hl houtput d hd hdefines
  obtain ⟨kept, hkept⟩ := exists_accounted_useful h
  obtain ⟨t, ht, hr⟩ := List.mem_flatMap.1 (mem_found_of_mem_find hr)
  -- the edges of the rule are still there, so that its body is reached where its head is
  have hfound : l.tableName none ∈
      (useful rules required prohibited output).graph.definitions (OrderedList.ofTexts output) := by
    have hedge : (⟨t, l.tableName none, l.negated⟩ : Edge) ∈
        (useful rules required prohibited output).graph.graph.edges :=
      hkept.mem_edges hr (mem_edges.2 ⟨t, hkept.defines t r hr, l, hl, rfl⟩)
    obtain ⟨o, ho, hpath⟩ := CountedGraph.mem_reachable.1 ht
    exact CountedGraph.mem_reachable.2 ⟨o, ho, hpath.tail ⟨_, hedge, rfl, rfl⟩⟩
  -- no definition of a table that is no output table is dropped
  obtain ⟨d₀, hd₀, hequal⟩ := exists_mem_rulesOf_ofRules hd hdefines
  have hleft : d₀ ∈ (useful rules required prohibited output).rulesOf (l.tableName none) :=
    mem_rulesOf_useful.2 ⟨hd₀, fun hmem => absurd hmem houtput⟩
  obtain ⟨d', hd', hequal'⟩ := exists_mem_find (List.mem_flatMap.2 ⟨_, hfound, hleft⟩)
  exact ⟨d', hd', BEq.trans hequal hequal'⟩

end Policies

/-- A rule over tables with one column that has two heads. -/
def sharedRule (head other : String) (body : List String) : Rule :=
  { columnRule head body with
    heads := (columnRule head body).heads ++ (columnRule other body).heads
    heads_ne := List.append_ne_nil_of_left_ne_nil (columnRule head body).heads_ne _ }

/-- A rule with two heads that is kept, and a rule that is dropped. -/
def separateRules : List Rule :=
  [sharedRule "o1" "h" ["r"], columnRule "o2" ["c"], columnRule "o2" ["h"], columnRule "c" ["d"]]

/-- The kept rule is found with the rule that uses its second head. -/
theorem find_separateRules :
    (∀ r ∈ separateRules, IsDropped separateRules ["r"] [] ["o1", "o2"] r →
      ∀ t ∈ headTables r, ∀ u ∈ headTables r, t = u) ∧
    (∃ r ∈ separateRules, IsDropped separateRules ["r"] [] ["o1", "o2"] r) ∧
    (∃ r ∈ find separateRules ["r"] [] ["o1", "o2"], "h" ∈ bodyTables r) ∧
    ∃ d ∈ find separateRules ["r"] [] ["o1", "o2"], (sharedRule "o1" "h" ["r"] == d) = true := by
  have h : ∀ r ∈ separateRules, IsDropped separateRules ["r"] [] ["o1", "o2"] r →
      ∀ t ∈ headTables r, ∀ u ∈ headTables r, t = u := by decide +kernel
  have hdropped : ∃ r ∈ separateRules, IsDropped separateRules ["r"] [] ["o1", "o2"] r := by
    decide +kernel
  have hfound : ∃ r ∈ found separateRules ["r"] [] ["o1", "o2"], "h" ∈ bodyTables r := by
    decide +kernel
  obtain ⟨r, hr, hbody⟩ := hfound
  obtain ⟨r', hr', hequal⟩ := exists_mem_find hr
  have hbody' : "h" ∈ bodyTables r' := (Rule.bodyTables_congr hequal).1 hbody
  obtain ⟨l, hl, htable⟩ := List.mem_map.1 hbody'
  refine ⟨h, hdropped, ⟨r', hr', hbody'⟩, find_selfContained h r' hr' l hl ?_ _ ?_ ?_⟩
  · rw [htable]
    decide
  · exact List.mem_cons_self
  · rw [htable]
    decide

/-- A rule with two heads that is dropped from the output table among them. -/
def sharedRules : List Rule :=
  [sharedRule "o1" "h" ["c"], columnRule "c" ["d"], columnRule "o2" ["h", "r", "o1"]]

/-- The rule is found as a definition of its other table, without the definition of its body. -/
theorem find_sharedRules :
    ∃ r ∈ find sharedRules ["r"] [] ["o1", "o2"], ∃ l ∈ r.body,
      l.tableName none ∉ ["o1", "o2"] ∧ ∃ d ∈ sharedRules, l.tableName none ∈ headTables d ∧
        ∀ d' ∈ find sharedRules ["r"] [] ["o1", "o2"], (d == d') = false := by
  have hused : ∃ r ∈ found sharedRules ["r"] [] ["o1", "o2"], "c" ∈ bodyTables r := by
    decide +kernel
  have hundefined : ∀ r ∈ found sharedRules ["r"] [] ["o1", "o2"], "c" ∉ headTables r := by
    decide +kernel
  have hdefined : ∃ d ∈ sharedRules, "c" ∈ headTables d := by decide
  obtain ⟨r, hr, hbody⟩ := hused
  obtain ⟨r', hr', hequal⟩ := exists_mem_find hr
  obtain ⟨l, hl, htable⟩ := List.mem_map.1 ((Rule.bodyTables_congr hequal).1 hbody)
  obtain ⟨d, hd, hhead⟩ := hdefined
  refine ⟨r', hr', l, hl, ?_, d, hd, ?_, fun d' hd' => ?_⟩
  · rw [htable]
    decide
  · rwa [htable]
  · rw [← Bool.not_eq_true]
    intro hsame
    exact hundefined d' (mem_found_of_mem_find hd') ((Rule.headTables_congr hsame).1 hhead)

end Subpolicy

end DatalogPolicy

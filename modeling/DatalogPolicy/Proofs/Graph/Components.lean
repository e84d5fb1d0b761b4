import DatalogPolicy.Graph.Components
import DatalogPolicy.Proofs.Graph.Reach
import Mathlib.Data.List.Perm.Subperm

/-!
# Strongly connected components

A visit meets what its first nodes lead to. The nodes that lead to a node and back form its
component. Components that are sorted by how many nodes they lead to come after those to which
their edges lead: a component leads to all that its successors lead to, and to itself.
-/

namespace DatalogPolicy.CountedGraph

/-- Two nodes lead to each other. -/
def Connected (g : CountedGraph) (a b : String) : Prop :=
  Relation.ReflTransGen g.Links a b ∧ Relation.ReflTransGen g.Links b a

/-- The nodes of a graph by strongly connected components, each of them after those to which its
edges lead. -/
structure ListsComponents (g : CountedGraph) (components : List (List String)) : Prop where
  mem_flatten_iff : ∀ n, n ∈ components.flatten ↔ n ∈ g.nodes
  mem_iff : ∀ c ∈ components, ∀ a ∈ c, ∀ b, b ∈ c ↔ g.Connected a b
  disjoint : components.Pairwise fun c d => ∀ a ∈ c, a ∉ d
  successors_first : components.Pairwise fun c d => ∀ a ∈ c, ∀ b ∈ d, ¬ g.Links a b

section Connections

variable {g : CountedGraph} {a b n : String}

theorem Connected.symm (h : g.Connected a b) : g.Connected b a := ⟨h.2, h.1⟩

theorem Connected.trans (hab : g.Connected a b) (hbn : g.Connected b n) : g.Connected a n :=
  ⟨hab.1.trans hbn.1, hbn.2.trans hab.2⟩

/-- What a node leads to is a node. -/
theorem Closed.mem_of_path (hg : g.Closed) (ha : a ∈ g.nodes)
    (h : Relation.ReflTransGen g.Links a b) : b ∈ g.nodes := by
  cases h with
  | refl => exact ha
  | tail _ hlink =>
      obtain ⟨e, he, -, rfl⟩ := hlink
      exact (hg e he).2

theorem connected_iff :
    g.Connected a b ↔ b ∈ g.reachable [a] ∧ a ∈ g.reachable [b] := by
  simp only [mem_reachable, List.mem_singleton, exists_eq_left]
  rfl

instance (g : CountedGraph) (a b : String) : Decidable (g.Connected a b) :=
  decidable_of_iff _ connected_iff.symm

instance (g : CountedGraph) (a b : String) : Decidable (g.Links a b) :=
  decidable_of_iff (∃ e ∈ g.edgeList, e.src = a ∧ e.dst = b)
    ⟨fun ⟨e, he, h⟩ => ⟨e, Std.ExtTreeMap.mem_keys.1 he, h⟩,
      fun ⟨e, he, h⟩ => ⟨e, Std.ExtTreeMap.mem_keys.2 he, h⟩⟩

end Connections

instance (g : CountedGraph) (components : List (List String)) :
    Decidable (g.ListsComponents components) :=
  decidable_of_iff
    ((∀ n ∈ components.flatten, n ∈ g.nodes) ∧ (∀ n ∈ g.nodeList, n ∈ components.flatten) ∧
      (∀ c ∈ components, ∀ a ∈ c, (∀ b ∈ c, g.Connected a b) ∧
        ∀ b ∈ g.reachable [a], g.Connected a b → b ∈ c) ∧
      (components.Pairwise fun c d => ∀ a ∈ c, a ∉ d) ∧
      components.Pairwise fun c d => ∀ a ∈ c, ∀ b ∈ d, ¬ g.Links a b)
    ⟨fun ⟨hnodes, hall, hconnected, hdisjoint, hfirst⟩ =>
      { mem_flatten_iff n := ⟨hnodes n, fun hn => hall n (Std.ExtTreeMap.mem_keys.2 hn)⟩
        mem_iff c hc a ha b := ⟨(hconnected c hc a ha).1 b,
          fun h => (hconnected c hc a ha).2 b (connected_iff.1 h).1 h⟩
        disjoint := hdisjoint
        successors_first := hfirst },
    fun h => ⟨fun n => (h.mem_flatten_iff n).1,
      fun n hn => (h.mem_flatten_iff n).2 (Std.ExtTreeMap.mem_keys.1 hn),
      fun c hc a ha => ⟨fun b => (h.mem_iff c hc a ha b).1,
        fun b _ => (h.mem_iff c hc a ha b).2⟩,
      h.disjoint, h.successors_first⟩⟩

section Visits

variable {next : Std.ExtTreeMap String (List String)} {left : NodeSet} {pending : List String}
  {a b n : String}

/-- What is met is on a path from a node that was pending. -/
theorem exists_path_of_mem_visit (h : n ∈ visit next left pending) :
    ∃ root ∈ pending, Relation.ReflTransGen (fun a b => b ∈ next.getD a []) root n := by
  induction left, pending using visit.induct next with
  | case1 left =>
      rw [visit] at h
      exact absurd h List.not_mem_nil
  | case2 left node pending hnode ih =>
      rw [visit, dif_pos hnode] at h
      rcases List.mem_cons.1 h with rfl | h
      · exact ⟨n, List.mem_cons_self, .refl⟩
      · obtain ⟨root, hroot, hpath⟩ := ih h
        rcases List.mem_append.1 hroot with hnext | hpending
        · exact ⟨node, List.mem_cons_self, .head hnext hpath⟩
        · exact ⟨root, List.mem_cons_of_mem node hpending, hpath⟩
  | case3 left node pending hnode ih =>
      rw [visit, dif_neg hnode] at h
      obtain ⟨root, hroot, hpath⟩ := ih h
      exact ⟨root, List.mem_cons_of_mem node hroot, hpath⟩

theorem mem_erase_iff {node : String} : n ∈ left.erase node ↔ node ≠ n ∧ n ∈ left := by
  rw [Std.ExtTreeSet.mem_erase, ne_eq, Std.LawfulEqOrd.compare_eq_iff_eq]

/-- A pending node that is left is met. -/
theorem mem_visit_of_mem (hn : n ∈ pending) (hleft : n ∈ left) : n ∈ visit next left pending := by
  induction left, pending using visit.induct next with
  | case1 left => exact absurd hn List.not_mem_nil
  | case2 left node pending hnode ih =>
      rw [visit, dif_pos hnode]
      by_cases heq : node = n
      · exact heq ▸ List.mem_cons_self
      · have hpending := List.mem_of_ne_of_mem (Ne.symm heq) hn
        exact List.mem_cons_of_mem node
          (ih (List.mem_append_right _ hpending) (mem_erase_iff.2 ⟨heq, hleft⟩))
  | case3 left node pending hnode ih =>
      rw [visit, dif_neg hnode]
      have hne : n ≠ node := by
        rintro rfl
        exact hnode hleft
      exact ih (List.mem_of_ne_of_mem hne hn) hleft

/-- With a node, the nodes are met to which its edges lead. -/
theorem mem_visit_of_next (ha : a ∈ visit next left pending) (hb : b ∈ next.getD a [])
    (hleft : b ∈ left) : b ∈ visit next left pending := by
  induction left, pending using visit.induct next with
  | case1 left =>
      rw [visit] at ha
      exact absurd ha List.not_mem_nil
  | case2 left node pending hnode ih =>
      rw [visit, dif_pos hnode] at ha ⊢
      by_cases heq : node = b
      · exact heq ▸ List.mem_cons_self
      · have hrest := mem_erase_iff.2 ⟨heq, hleft⟩
        apply List.mem_cons_of_mem
        rcases List.mem_cons.1 ha with rfl | ha
        · exact mem_visit_of_mem (List.mem_append_left _ hb) hrest
        · exact ih ha hrest
  | case3 left node pending hnode ih =>
      rw [visit, dif_neg hnode] at ha ⊢
      exact ih ha hleft

end Visits

section Descendants

variable {g : CountedGraph} {a b n : String}

theorem mem_successors : b ∈ g.successors.getD a [] ↔ g.Links a b := by
  have hfold (edges : List Edge) (next : Std.ExtTreeMap String (List String)) :
      b ∈ (edges.foldl (fun next e => next.insert e.src (e.dst :: next.getD e.src [])) next).getD
          a [] ↔
        b ∈ next.getD a [] ∨ ∃ e ∈ edges, e.src = a ∧ e.dst = b := by
    induction edges generalizing next with
    | nil => simp
    | cons e rest ih =>
        rw [List.foldl_cons, ih, List.exists_mem_cons_iff, Std.ExtTreeMap.getD_insert]
        simp only [Std.LawfulEqOrd.compare_eq_iff_eq]
        by_cases hsrc : e.src = a
        · rw [if_pos hsrc, List.mem_cons, hsrc, and_iff_right rfl, eq_comm, or_assoc, or_left_comm]
        · rw [if_neg hsrc]
          simp only [hsrc, false_and, false_or]
  rw [successors, hfold]
  simp only [edgeList, Std.ExtTreeMap.mem_keys, Links]
  exact or_iff_right (by simp)

/-- The descendants of a node are what it leads to. -/
theorem Closed.mem_descendants (hg : g.Closed) :
    n ∈ g.descendants.getD a {} ↔ a ∈ g.nodes ∧ Relation.ReflTransGen g.Links a n := by
  let nodes : NodeSet := Std.ExtTreeSet.ofList g.nodeList
  have hnodes (n : String) : n ∈ nodes ↔ n ∈ g.nodes := by
    rw [Std.ExtTreeSet.mem_ofList, List.contains_iff_mem]
    exact Std.ExtTreeMap.mem_keys
  by_cases ha : a ∈ g.nodes
  · have hget : g.descendants.getD a {} =
        Std.ExtTreeSet.ofList (visit g.successors nodes [a]) := by
      apply Std.ExtTreeMap.getD_ofList_of_mem Std.ReflOrd.compare_self
      · have hkeys : g.nodeList.Pairwise fun a b => ¬ compare a b = .eq :=
          Std.ExtTreeMap.distinct_keys
        exact List.pairwise_map.2 hkeys
      · exact List.mem_map_of_mem (Std.ExtTreeMap.mem_keys.2 ha)
    rw [hget, Std.ExtTreeSet.mem_ofList, List.contains_iff_mem, and_iff_right ha]
    constructor
    · intro h
      obtain ⟨root, hroot, hpath⟩ := exists_path_of_mem_visit h
      rw [List.mem_singleton.1 hroot] at hpath
      exact Relation.ReflTransGen.mono (fun _ _ => mem_successors.1) _ _ hpath
    · intro h
      induction h with
      | refl => exact mem_visit_of_mem List.mem_cons_self ((hnodes a).2 ha)
      | tail hpath hlink ih =>
          have hmem := hg.mem_of_path ha (hpath.tail hlink)
          exact mem_visit_of_next ih (mem_successors.2 hlink) ((hnodes _).2 hmem)
  · have hget : g.descendants.getD a {} = {} := by
      apply Std.ExtTreeMap.getD_ofList_of_contains_eq_false
      rw [List.map_map, ← Bool.not_eq_true, List.contains_iff_mem]
      intro h
      obtain ⟨node, hnode, rfl⟩ := List.mem_map.1 h
      exact ha (Std.ExtTreeMap.mem_keys.1 hnode)
    rw [hget]
    exact iff_of_false Std.ExtTreeSet.not_mem_empty fun h => ha h.1

end Descendants

section Components

variable {g : CountedGraph} {a b : String} {c : List String}

/-- The component of a node of the graph. -/
abbrev component (g : CountedGraph) (node : String) : List String :=
  componentOf g.nodeList g.descendants node

theorem Closed.mem_component (hg : g.Closed) (ha : a ∈ g.nodes) :
    b ∈ g.component a ↔ g.Connected a b := by
  rw [component, componentOf, List.mem_filter, Bool.and_eq_true, ← Std.ExtTreeSet.mem_iff_contains,
    ← Std.ExtTreeSet.mem_iff_contains, hg.mem_descendants, hg.mem_descendants, nodeList,
    Std.ExtTreeMap.mem_keys]
  exact ⟨fun h => ⟨h.2.1.2, h.2.2.2⟩, fun h =>
    have hb := hg.mem_of_path ha h.1
    ⟨hb, ⟨ha, h.1⟩, hb, h.2⟩⟩

/-- Connected nodes have the same component. -/
theorem Closed.component_eq (hg : g.Closed) (ha : a ∈ g.nodes) (h : g.Connected a b) :
    g.component a = g.component b := by
  have hincreasing (node : String) : OrderedList.Increasing compare (g.component node) :=
    Std.ExtTreeMap.ordered_keys.filter _
  apply (hincreasing a).ext (hincreasing b)
  intro n
  exact ((hg.mem_component ha).trans ⟨h.symm.trans, h.trans⟩).trans
    (hg.mem_component (hg.mem_of_path ha h.1)).symm

/-- The nodes that are the first ones of their components. -/
def IsFirst (g : CountedGraph) (node : String) : Prop :=
  node ∈ g.nodes ∧ (g.component node).head? = some node

theorem mem_firsts {node : String} :
    node ∈ g.nodeList.filter (fun n => (g.component n).head? = some n) ↔ g.IsFirst node := by
  rw [List.mem_filter, decide_eq_true_eq, nodeList, Std.ExtTreeMap.mem_keys, IsFirst]

/-- Each component is that of its first node. -/
theorem mem_components : c ∈ g.components ↔ ∃ n, g.IsFirst n ∧ g.component n = c := by
  rw [components, List.mem_map]
  simp only [(OrderedList.sort_perm _ _).mem_iff, mem_firsts]

theorem Closed.mem_iff_of_mem_components (hg : g.Closed) (hc : c ∈ g.components) (ha : a ∈ c) :
    b ∈ c ↔ g.Connected a b := by
  obtain ⟨n, hn, rfl⟩ := mem_components.1 hc
  have hna := (hg.mem_component hn.1).1 ha
  rw [hg.mem_component hn.1]
  exact ⟨hna.symm.trans, hna.trans⟩

/-- A node is in some component. -/
theorem Closed.mem_flatten_components (hg : g.Closed) (n : String) :
    n ∈ g.components.flatten ↔ n ∈ g.nodes := by
  rw [List.mem_flatten]
  constructor
  · rintro ⟨c, hc, hn⟩
    obtain ⟨m, hm, rfl⟩ := mem_components.1 hc
    exact hg.mem_of_path hm.1 ((hg.mem_component hm.1).1 hn).1
  · intro hn
    have hself : n ∈ g.component n := (hg.mem_component hn).2 ⟨.refl, .refl⟩
    have hne := List.ne_nil_of_mem hself
    have hfirst : g.Connected n ((g.component n).head hne) :=
      (hg.mem_component hn).1 (List.head_mem hne)
    have heq := hg.component_eq hn hfirst
    refine ⟨g.component n, mem_components.2 ⟨_, ⟨hg.mem_of_path hn hfirst.1, ?_⟩, heq.symm⟩, hself⟩
    rw [← heq, List.head?_eq_some_head hne]

/-- First nodes of components are connected only if they are the same. -/
theorem Closed.eq_of_connected (hg : g.Closed) (ha : g.IsFirst a) (hb : g.IsFirst b)
    (h : g.Connected a b) : a = b :=
  Option.some.inj (ha.2.symm.trans ((congrArg _ (hg.component_eq ha.1 h)).trans hb.2))

/-- An edge to a node that does not lead back leads to one with fewer descendants. -/
theorem Closed.size_descendants_lt (hg : g.Closed) (ha : a ∈ g.nodes)
    (hab : Relation.ReflTransGen g.Links a b) (hnot : ¬ g.Connected a b) :
    (g.descendants.getD b {}).size < (g.descendants.getD a {}).size := by
  have hb := hg.mem_of_path ha hab
  have hsub : (g.descendants.getD b {}).toList ⊆ (g.descendants.getD a {}).toList := by
    intro n hn
    rw [Std.ExtTreeSet.mem_toList, hg.mem_descendants] at hn ⊢
    exact ⟨ha, hab.trans hn.2⟩
  rw [← Std.ExtTreeSet.length_toList, ← Std.ExtTreeSet.length_toList]
  by_contra hle
  have hincreasing : OrderedList.Increasing compare (g.descendants.getD b {}).toList :=
    Std.ExtTreeSet.ordered_toList
  have hperm := (List.subperm_of_subset hincreasing.nodup hsub).perm_of_length_le
    (Nat.le_of_not_lt hle)
  -- otherwise the node leads back
  have hback := hperm.mem_iff.2 (Std.ExtTreeSet.mem_toList.2 (hg.mem_descendants.2 ⟨ha, .refl⟩))
  rw [Std.ExtTreeSet.mem_toList, hg.mem_descendants] at hback
  exact hnot ⟨hab, hback.2⟩

/-- The components of a graph are listed with successors first. -/
theorem Closed.listsComponents (hg : g.Closed) : g.ListsComponents g.components := by
  let size := fun node => (g.descendants.getD node {}).size
  let firsts := g.nodeList.filter fun n => (g.component n).head? = some n
  have hfirst {n : String} (hn : n ∈ OrderedList.sort (compareOn size) firsts) : g.IsFirst n :=
    mem_firsts.1 ((OrderedList.sort_perm _ _).mem_iff.1 hn)
  have hnodup : (OrderedList.sort (compareOn size) firsts).Nodup :=
    (OrderedList.sort_perm _ _).nodup_iff.2 (List.Nodup.filter _ Std.ExtTreeMap.nodup_keys)
  constructor
  · exact hg.mem_flatten_components
  · exact fun c hc a ha b => hg.mem_iff_of_mem_components hc ha
  · refine List.pairwise_map.2 (hnodup.imp_of_mem fun hm hn hne a ham han => hne ?_)
    have hma := (hg.mem_component (hfirst hm).1).1 ham
    have hna := (hg.mem_component (hfirst hn).1).1 han
    exact hg.eq_of_connected (hfirst hm) (hfirst hn) (hma.trans hna.symm)
  · have hsorted := OrderedList.pairwise_sort (compareOn size) firsts
    refine List.pairwise_map.2
      ((hnodup.and hsorted).imp_of_mem fun {m n} hm hn h a ha b hb hlink => ?_)
    have hma := (hg.mem_component (hfirst hm).1).1 ha
    have hnb := (hg.mem_component (hfirst hn).1).1 hb
    have hpath := (hma.1.tail hlink).trans hnb.2
    have hle : size m ≤ size n := Nat.isLE_compare.1 h.2
    exact Nat.not_lt_of_le hle (hg.size_descendants_lt (hfirst hm).1 hpath
      fun hconnected => h.1 (hg.eq_of_connected (hfirst hm) (hfirst hn) hconnected))

end Components

end DatalogPolicy.CountedGraph

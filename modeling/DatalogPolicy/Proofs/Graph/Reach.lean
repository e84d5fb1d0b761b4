import DatalogPolicy.Graph.Reach
import DatalogPolicy.Proofs.Graph.Operations
import DatalogPolicy.Proofs.OrderedList
import Mathlib.Logic.Relation

/-!
# Searches find what can be reached

A search returns its roots and what edges lead to from them. As long as some edge leads
out of what has been found, a round finds its end, and every end is new only once; hence
as many rounds as there are edges are enough. So a search for several roots finds what the
searches for each of them find.
-/

namespace DatalogPolicy.CountedGraph

section Rounds

variable {d : Direction} {edges : List Edge} {seen : NodeSet} {n : String}

theorem mem_followEdges : n ∈ followEdges d edges seen ↔
    n ∈ seen ∨ ∃ e ∈ edges, d.source e ∈ seen ∧ d.target e = n := by
  have hfold (found : NodeSet) :
      n ∈ edges.foldl (fun found e =>
          if seen.contains (d.source e) then found.insert (d.target e) else found) found ↔
        n ∈ found ∨ ∃ e ∈ edges, d.source e ∈ seen ∧ d.target e = n := by
    induction edges generalizing found with
    | nil => simp
    | cons e rest ih =>
        rw [List.foldl_cons, ih, List.exists_mem_cons_iff]
        by_cases he : d.source e ∈ seen
        · rw [if_pos (Std.ExtTreeSet.mem_iff_contains.1 he), Std.ExtTreeSet.mem_insert,
            Std.LawfulEqOrd.compare_eq_iff_eq, and_iff_right he, or_assoc, or_left_comm]
        · rw [if_neg (mt Std.ExtTreeSet.mem_iff_contains.2 he)]
          simp only [he, false_and, false_or]
  exact hfold seen

/-- No edge leads out of a set. -/
def Saturated (d : Direction) (edges : List Edge) (seen : NodeSet) : Prop :=
  ∀ e ∈ edges, d.source e ∈ seen → d.target e ∈ seen

theorem Saturated.followEdges (h : Saturated d edges seen) :
    Saturated d edges (followEdges d edges seen) := by
  intro e he hsource
  rcases mem_followEdges.1 hsource with hold | ⟨e', he', hsource', htarget⟩
  · exact mem_followEdges.2 (.inr ⟨e, he, hold, rfl⟩)
  · exact mem_followEdges.2 (.inr ⟨e, he, htarget ▸ h e' he' hsource', rfl⟩)

/-- The number of edges whose ends have not been found. -/
def unfound (d : Direction) (edges : List Edge) (seen : NodeSet) : Nat :=
  edges.countP (d.target · ∉ seen)

/-- A round finds the end of some edge, unless no edge leads out of what has been found. -/
theorem unfound_followEdges_lt (h : ¬ Saturated d edges seen) :
    unfound d edges (followEdges d edges seen) < unfound d edges seen := by
  obtain ⟨e, he, hsource, htarget⟩ : ∃ e ∈ edges, d.source e ∈ seen ∧ d.target e ∉ seen := by
    simpa only [Saturated, not_forall, exists_prop] using h
  have hfound : d.target e ∈ followEdges d edges seen :=
    mem_followEdges.2 (.inr ⟨e, he, hsource, rfl⟩)
  have hmono (part : List Edge) :
      part.countP (d.target · ∉ followEdges d edges seen) ≤ part.countP (d.target · ∉ seen) := by
    apply List.countP_mono_left
    intro e' _ hnew
    rw [decide_eq_true_eq] at hnew ⊢
    exact fun hold => hnew (mem_followEdges.2 (.inl hold))
  obtain ⟨before, after, hsplit⟩ := List.append_of_mem he
  have hbefore := hmono before
  have hafter := hmono after
  rw [unfound, unfound]
  generalize followEdges d edges seen = found at hfound hbefore hafter ⊢
  subst hsplit
  rw [List.countP_append, List.countP_append, List.countP_cons_of_neg (by simpa using hfound),
    List.countP_cons_of_pos (by simpa using htarget)]
  omega

/-- As many rounds as there are ends to be found leave nothing to be found. -/
theorem saturated_repeat (k : Nat) (h : unfound d edges seen ≤ k ∨ Saturated d edges seen) :
    Saturated d edges (Nat.repeat (followEdges d edges) k seen) := by
  induction k generalizing seen with
  | zero =>
      by_contra hnot
      have hlt := unfound_followEdges_lt hnot
      have hzero := h.resolve_right hnot
      exact absurd (Nat.lt_of_lt_of_le hlt hzero) (Nat.not_lt_zero _)
  | succ k ih =>
      rw [repeat_succ_front]
      apply ih
      -- the first round finds an end, or nothing is left to be found in this and all later rounds
      by_cases hsat : Saturated d edges seen
      · exact .inr hsat.followEdges
      · have hlt := unfound_followEdges_lt hsat
        have hle := h.resolve_right hsat
        exact .inl (by omega)

theorem subset_repeat (k : Nat) (h : n ∈ seen) :
    n ∈ Nat.repeat (followEdges d edges) k seen := by
  induction k with
  | zero => exact h
  | succ k ih => exact mem_followEdges.2 (.inl ih)

theorem saturated_closure : Saturated d edges (closure d edges seen) := by
  rw [closure, rounds_eq_repeat]
  exact saturated_repeat _ (.inl List.countP_le_length)

/-- An edge of a list leads from one node to another, in a direction. -/
def Along (d : Direction) (edges : List Edge) (a b : String) : Prop :=
  ∃ e ∈ edges, d.source e = a ∧ d.target e = b

/-- The closure of a set has what can be reached from it along edges. -/
theorem mem_closure : n ∈ closure d edges seen ↔
    ∃ root ∈ seen, Relation.ReflTransGen (Along d edges) root n := by
  constructor
  · intro h
    rw [closure, rounds_eq_repeat] at h
    generalize edges.length = k at h
    induction k generalizing n with
    | zero => exact ⟨n, h, .refl⟩
    | succ k ih =>
        rcases mem_followEdges.1 h with hold | ⟨e, he, hsource, rfl⟩
        · exact ih hold
        · obtain ⟨root, hroot, hpath⟩ := ih hsource
          exact ⟨root, hroot, hpath.tail ⟨e, he, rfl, rfl⟩⟩
  · rintro ⟨root, hroot, hpath⟩
    induction hpath with
    | refl =>
        rw [closure, rounds_eq_repeat]
        exact subset_repeat _ hroot
    | tail _ hstep ih =>
        obtain ⟨e, he, rfl, rfl⟩ := hstep
        exact saturated_closure e he ih

end Rounds

section Searches

variable {g : CountedGraph} {roots : List String} {n : String}

/-- An edge of the graph leads from one node to another. -/
def Links (g : CountedGraph) (a b : String) : Prop := ∃ e ∈ g.edges, e.src = a ∧ e.dst = b

theorem mem_search {d : Direction} : n ∈ g.search d roots ↔
    ∃ root ∈ roots, Relation.ReflTransGen (Along d g.edgeList) root n := by
  rw [search, Std.ExtTreeSet.mem_toList, mem_closure]
  simp only [Std.ExtTreeSet.mem_ofList, List.contains_iff_mem]

theorem increasing_search {d : Direction} : OrderedList.Increasing compare (g.search d roots) :=
  Std.ExtTreeSet.ordered_toList

theorem along_forward : Along .forward g.edgeList = g.Links := by
  funext a b
  simp only [Along, Links, edgeList, Std.ExtTreeMap.mem_keys]
  rfl

theorem along_backward : Along .backward g.edgeList = Function.swap g.Links := by
  funext a b
  simp only [Along, Links, edgeList, Std.ExtTreeMap.mem_keys, Function.swap, Direction.source,
    Direction.target, and_comm]

/-- What some nodes lead to. -/
theorem mem_reachable :
    n ∈ g.reachable roots ↔ ∃ root ∈ roots, Relation.ReflTransGen g.Links root n := by
  rw [reachable, mem_search, along_forward]

/-- What leads to some nodes. -/
theorem mem_dependent :
    n ∈ g.dependent roots ↔ ∃ root ∈ roots, Relation.ReflTransGen g.Links n root := by
  rw [dependent, mem_search, along_backward]
  simp only [Relation.reflTransGen_swap]

/-- No edge leads away from what is no node. -/
theorem Closed.eq_of_path (hg : g.Closed) {d : Direction} {root : String} (hroot : root ∉ g.nodes)
    (h : Relation.ReflTransGen (Along d g.edgeList) root n) : n = root := by
  rcases h.cases_head with heq | ⟨m, ⟨e, he, rfl, -⟩, -⟩
  · exact heq.symm
  · obtain ⟨hsrc, hdst⟩ := hg e (Std.ExtTreeMap.mem_keys.1 he)
    cases d with
    | forward => exact absurd hsrc hroot
    | backward => exact absurd hdst hroot

/-- A search finds the roots, and what is found from each root that is a node. -/
theorem Closed.mem_search_iff (hg : g.Closed) {d : Direction} : n ∈ g.search d roots ↔
    n ∈ roots ∨ ∃ root ∈ roots, root ∈ g.nodes ∧ n ∈ g.search d [root] := by
  simp only [mem_search, List.mem_singleton, exists_eq_left]
  constructor
  · rintro ⟨root, hroot, hpath⟩
    by_cases hnode : root ∈ g.nodes
    · exact .inr ⟨root, hroot, hnode, hpath⟩
    · exact .inl (hg.eq_of_path hnode hpath ▸ hroot)
  · rintro (hroot | ⟨root, hroot, -, hpath⟩)
    · exact ⟨n, hroot, .refl⟩
    · exact ⟨root, hroot, hpath⟩

/-- A search may take the roots one after the other, and add what is found from each of them that
is a node to the roots. -/
theorem Closed.search_eq_foldl (hg : g.Closed) (d : Direction) (roots : List String) :
    g.search d roots =
      (roots.foldl
        (fun (found : NodeSet) root =>
          if g.containsNode root then found.insertMany (g.search d [root]) else found)
        (Std.ExtTreeSet.ofList roots)).toList := by
  have hfold (rest : List String) (found : NodeSet) (n : String) :
      n ∈ rest.foldl (fun (found : NodeSet) root =>
          if g.containsNode root then found.insertMany (g.search d [root]) else found) found ↔
        n ∈ found ∨ ∃ root ∈ rest, root ∈ g.nodes ∧ n ∈ g.search d [root] := by
    induction rest generalizing found with
    | nil => simp
    | cons root rest ih =>
        rw [List.foldl_cons, ih, List.exists_mem_cons_iff]
        by_cases hnode : root ∈ g.nodes
        · rw [if_pos (containsNode_iff.2 hnode), Std.ExtTreeSet.mem_insertMany_list,
            List.contains_iff_mem, and_iff_right hnode, or_assoc]
        · rw [if_neg (mt containsNode_iff.1 hnode)]
          simp only [hnode, false_and, false_or]
  apply increasing_search.ext Std.ExtTreeSet.ordered_toList
  intro n
  rw [Std.ExtTreeSet.mem_toList, hfold, Std.ExtTreeSet.mem_ofList, List.contains_iff_mem,
    hg.mem_search_iff]

end Searches

end DatalogPolicy.CountedGraph

import DatalogPolicy.Graph.Strata
import DatalogPolicy.Proofs.Graph.Components
import Mathlib.Order.Bounds.Basic

/-!
# Least strata

Strata exist unless a cycle passes through a strict dependency. A component is placed just above
what its edges to earlier components demand, so that the strata which are given so far respect
the dependencies and lie below all that do. No stratum is found for a component only if a strict
edge stays inside, and such an edge is on a cycle.
-/

namespace DatalogPolicy

/-- Nodes of which some depend on others, strictly or not. -/
structure Dependencies where
  nodes : Set String
  /-- That the first node depends on the second one, with whether it does so strictly. -/
  DependsOn : String → String → Bool → Prop

namespace Dependencies

variable (D : Dependencies)

/-- The first node depends on the second one, strictly or not. -/
def Step (n m : String) : Prop := ∃ strict, D.DependsOn n m strict

/-- A cycle passes through a strict dependency. -/
def HasStrictCycle : Prop := ∃ n m, D.DependsOn n m true ∧ Relation.ReflTransGen D.Step m n

/-- No node lies below a node on which it depends, or beside it if it depends on it strictly. -/
def Respects (t : String → Nat) : Prop :=
  ∀ n m strict, D.DependsOn n m strict → t m ≤ t n ∧ (strict = true → t m < t n)

/-- There is a result unless a cycle passes through a strict dependency, and it is the least
assignment to the nodes that respects the dependencies. -/
structure StratifiedBy (result : Option Strata) : Prop where
  isSome_iff : result.isSome = true ↔ ¬ D.HasStrictCycle
  mem_iff : ∀ s ∈ result, ∀ n, n ∈ s ↔ n ∈ D.nodes
  isLeast : ∀ s ∈ result, IsLeast {t | D.Respects t} fun n => s.getD n 0

variable {D} {n m : String}

theorem Respects.le_of_reaches {t : String → Nat} (ht : D.Respects t)
    (h : Relation.ReflTransGen D.Step n m) : t m ≤ t n := by
  induction h with
  | refl => exact Nat.le_refl _
  | tail _ hstep ih =>
      obtain ⟨strict, hdep⟩ := hstep
      exact Nat.le_trans (ht _ _ _ hdep).1 ih

/-- Nothing respects a strict cycle. -/
theorem Respects.not_hasStrictCycle {t : String → Nat} (ht : D.Respects t) :
    ¬ D.HasStrictCycle := by
  rintro ⟨n, m, hdep, hback⟩
  have hlt : t m < t n := (ht n m true hdep).2 rfl
  exact absurd (ht.le_of_reaches hback) (Nat.not_le_of_lt hlt)

/-- Nodes that lead to each other lie equally high. -/
theorem Respects.eq_of_reaches {t : String → Nat} (ht : D.Respects t)
    (hnm : Relation.ReflTransGen D.Step n m) (hmn : Relation.ReflTransGen D.Step m n) :
    t n = t m :=
  Nat.le_antisymm (ht.le_of_reaches hmn) (ht.le_of_reaches hnm)

/-- There is only one such result. -/
theorem StratifiedBy.unique {result result' : Option Strata} (h : D.StratifiedBy result)
    (h' : D.StratifiedBy result') : result = result' := by
  have hsome : result.isSome = result'.isSome :=
    Bool.eq_iff_iff.2 (h.isSome_iff.trans h'.isSome_iff.symm)
  rcases result with _ | s <;> rcases result' with _ | s'
  · rfl
  · cases hsome
  · cases hsome
  · have hstrata := (h.isLeast s rfl).unique (h'.isLeast s' rfl)
    refine congrArg some (Std.ExtTreeMap.ext_getElem? fun n => ?_)
    have hmem : n ∈ s ↔ n ∈ s' := (h.mem_iff s rfl n).trans (h'.mem_iff s' rfl n).symm
    by_cases hn : n ∈ s
    · have hs : s[n]? = some (s.getD n 0) := Std.ExtTreeMap.getElem?_eq_some_getD hn
      have hs' : s'[n]? = some (s'.getD n 0) := Std.ExtTreeMap.getElem?_eq_some_getD (hmem.1 hn)
      rw [hs, hs']
      exact congrArg some (congrFun hstrata n)
    · rw [Std.ExtTreeMap.getElem?_eq_none hn, Std.ExtTreeMap.getElem?_eq_none (mt hmem.2 hn)]

end Dependencies

namespace CountedGraph

/-- The dependencies along the edges of a graph, strict where the label is one of some labels. -/
def dependenciesUnder (g : CountedGraph) (labels : List Bool) : Dependencies where
  nodes := {n | n ∈ g.nodes}
  DependsOn n m strict :=
    ∃ e ∈ g.edges, e.src = n ∧ e.dst = m ∧ decide (e.label ∈ labels) = strict

variable {g : CountedGraph} {labels : List Bool}

theorem step_dependenciesUnder (g : CountedGraph) (labels : List Bool) :
    (g.dependenciesUnder labels).Step = g.Links := by
  funext n m
  refine propext ⟨fun ⟨_, e, he, hsrc, hdst, _⟩ => ⟨e, he, hsrc, hdst⟩,
    fun ⟨e, he, hsrc, hdst⟩ => ⟨_, e, he, hsrc, hdst, rfl⟩⟩

/-- Strata respect the dependencies if they meet what the edges demand. -/
theorem respects_iff {t : String → Nat} : (g.dependenciesUnder labels).Respects t ↔
    ∀ e ∈ g.edges, demand labels (t e.dst) e ≤ t e.src := by
  have hdemand (e : Edge) : demand labels (t e.dst) e ≤ t e.src ↔
      t e.dst ≤ t e.src ∧ (decide (e.label ∈ labels) = true → t e.dst < t e.src) := by
    rw [demand, decide_eq_true_eq]
    split
    · next hl =>
        simp only [hl, forall_const]
        omega
    · next hl => simp only [hl, Nat.add_zero, IsEmpty.forall_iff, and_true]
  constructor
  · intro h e he
    exact (hdemand e).2 (h e.src e.dst _ ⟨e, he, rfl, rfl, rfl⟩)
  · rintro h n m strict ⟨e, he, rfl, rfl, rfl⟩
    exact (hdemand e).1 (h e he)

theorem demand_mono {a b : Nat} (h : a ≤ b) (e : Edge) : demand labels a e ≤ demand labels b e :=
  Nat.add_le_add_right h _

section Numbers

variable {n : String} {k : Nat}

theorem getD_assign (m : Std.ExtTreeMap String Nat) (nodes : List String) :
    (assign m nodes k).getD n 0 = if n ∈ nodes then k else m.getD n 0 := by
  induction nodes generalizing m with
  | nil => exact (if_neg List.not_mem_nil).symm
  | cons x rest ih =>
      have hstep : assign m (x :: rest) k = assign (m.insert x k) rest k := rfl
      rw [hstep, ih, Std.ExtTreeMap.getD_insert]
      simp only [Std.LawfulEqOrd.compare_eq_iff_eq, List.mem_cons, eq_comm (a := n)]
      by_cases hrest : n ∈ rest
      · rw [if_pos hrest, if_pos (.inr hrest)]
      · simp only [hrest, or_false, if_false]

theorem mem_assign (m : Std.ExtTreeMap String Nat) (nodes : List String) :
    n ∈ assign m nodes k ↔ n ∈ m ∨ n ∈ nodes := by
  induction nodes generalizing m with
  | nil => exact (or_iff_left List.not_mem_nil).symm
  | cons x rest ih =>
      have hstep : assign m (x :: rest) k = assign (m.insert x k) rest k := rfl
      rw [hstep, ih, Std.ExtTreeMap.mem_insert, Std.LawfulEqOrd.compare_eq_iff_eq,
        List.mem_cons, eq_comm, or_assoc, or_left_comm]

/-- A node has the number of its component. -/
theorem getD_numbering {components : List (List String)} {members : List String}
    (h : components.Pairwise fun c d => ∀ a ∈ c, a ∉ d) (hk : components[k]? = some members)
    (hn : n ∈ members) : (numbering components).getD n 0 = k := by
  have hfold (components : List (List String)) (first : Nat) (m : Std.ExtTreeMap String Nat)
      (h : components.Pairwise fun c d => ∀ a ∈ c, a ∉ d) :
      let numbers := (components.zipIdx first).foldl (fun numbers c => assign numbers c.1 c.2) m
      (∀ i c, components[i]? = some c → n ∈ c → numbers.getD n 0 = first + i) ∧
        (n ∉ components.flatten → numbers.getD n 0 = m.getD n 0) := by
    induction components generalizing first m with
    | nil => exact ⟨nofun, fun _ => rfl⟩
    | cons c rest ih =>
        rw [List.pairwise_cons] at h
        obtain ⟨hlisted, hother⟩ := ih (first + 1) (assign m c first) h.2
        simp only [List.zipIdx_cons, List.foldl_cons]
        constructor
        · intro i d hd hn
          cases i with
          | zero =>
              -- no later component takes the number away
              obtain rfl : c = d := Option.some.inj hd
              have hrest : n ∉ rest.flatten := fun hmem => by
                obtain ⟨d, hd, hnd⟩ := List.mem_flatten.1 hmem
                exact h.1 d hd n hn hnd
              rw [hother hrest, getD_assign, if_pos hn, Nat.add_zero]
          | succ i =>
              rw [hlisted i d hd hn]
              omega
        · intro hn
          rw [List.flatten_cons, List.mem_append, not_or] at hn
          rw [hother hn.2, getD_assign, if_neg hn.1]
  exact ((hfold components 0 {} h).1 k members hk hn).trans (Nat.zero_add k)

end Numbers

section Raises

variable {l : Layers} {numbers : Std.ExtTreeMap String Nat} {edges : List Edge}
  {stratum result : Nat}

/-- An edge ends in the component that is placed next. -/
def Layers.Inside (l : Layers) (numbers : Std.ExtTreeMap String Nat) (e : Edge) : Prop :=
  numbers.getD e.dst 0 = l.heights.length

/-- What an edge demands of its source, by the stratum of the component in which it ends. -/
def Layers.demanded (l : Layers) (labels : List Bool) (numbers : Std.ExtTreeMap String Nat)
    (e : Edge) : Nat :=
  demand labels (l.heights.getD (numbers.getD e.dst 0) 0) e

instance (l : Layers) (numbers : Std.ExtTreeMap String Nat) (e : Edge) :
    Decidable (l.Inside numbers e) :=
  inferInstanceAs (Decidable (_ = _))

theorem Layers.raise?_eq (l : Layers) (e : Edge) : l.raise? labels numbers stratum e =
    if l.Inside numbers e then if e.label ∈ labels then none else some stratum
    else some (max stratum (l.demanded labels numbers e)) := rfl

theorem Layers.raise?_eq_none_iff {e : Edge} :
    l.raise? labels numbers stratum e = none ↔ l.Inside numbers e ∧ e.label ∈ labels := by
  rw [raise?_eq]
  by_cases hinside : l.Inside numbers e
  · by_cases hl : e.label ∈ labels
    · simp only [hinside, hl, if_true, and_self]
    · simp only [hinside, hl, if_true, if_false, reduceCtorEq, and_false]
  · simp only [hinside, if_false, reduceCtorEq, false_and]

/-- A raised stratum is the least upper bound of the old one and of what the edge demands, unless
the edge stays inside. -/
theorem Layers.le_iff_of_raise? {e : Edge} (h : l.raise? labels numbers stratum e = some result)
    (b : Nat) : result ≤ b ↔
      stratum ≤ b ∧ (¬ l.Inside numbers e → l.demanded labels numbers e ≤ b) := by
  rw [raise?_eq] at h
  by_cases hinside : l.Inside numbers e
  · rw [if_pos hinside, Option.ite_none_left_eq_some] at h
    cases h.2
    exact ⟨fun hle => ⟨hle, absurd hinside⟩, And.left⟩
  · rw [if_neg hinside] at h
    cases h
    rw [Nat.max_le, forall_prop_of_true hinside]

/-- There is no stratum just if some edge stays inside and has one of the labels. -/
theorem Layers.raiseAll_eq_none_iff : edges.foldlM (l.raise? labels numbers) stratum = none ↔
    ∃ e ∈ edges, l.Inside numbers e ∧ e.label ∈ labels := by
  induction edges generalizing stratum with
  | nil => simp
  | cons e rest ih =>
      rw [List.foldlM_cons, List.exists_mem_cons_iff]
      cases hraised : l.raise? labels numbers stratum e with
      | none => exact iff_of_true rfl (.inl (raise?_eq_none_iff.1 hraised))
      | some raised =>
          have hother : ¬ (l.Inside numbers e ∧ e.label ∈ labels) := fun h => by
            rw [raise?_eq_none_iff.2 h] at hraised
            cases hraised
          exact ih.trans (or_iff_right hother).symm

/-- A stratum that is found is the least upper bound of the first one and of what the edges demand
that lead outside. -/
theorem Layers.le_iff_of_raiseAll
    (h : edges.foldlM (l.raise? labels numbers) stratum = some result) (b : Nat) :
    result ≤ b ↔ stratum ≤ b ∧
      ∀ e ∈ edges, ¬ l.Inside numbers e → l.demanded labels numbers e ≤ b := by
  induction edges generalizing stratum with
  | nil =>
      cases h
      simp
  | cons e rest ih =>
      rw [List.foldlM_cons] at h
      obtain ⟨raised, hraised, hrest⟩ := Option.bind_eq_some_iff.1 h
      rw [ih hrest, le_iff_of_raise? hraised, List.forall_mem_cons, and_assoc]

end Raises

section Placement

variable {l : Layers} {done rest : List (List String)} {members : List String} {n : String}

/-- The layers hold the least strata of the components that are done. -/
structure Layers.Fits (l : Layers) (g : CountedGraph) (labels : List Bool)
    (done : List (List String)) : Prop where
  length_heights : l.heights.length = done.length
  mem_strata : ∀ n, n ∈ l.strata ↔ n ∈ done.flatten
  getD_strata : ∀ i c, done[i]? = some c → ∀ n ∈ c, l.strata.getD n 0 = l.heights.getD i 0
  respects : ∀ e ∈ g.edges, e.src ∈ done.flatten →
    demand labels (l.strata.getD e.dst 0) e ≤ l.strata.getD e.src 0
  le : ∀ t, (g.dependenciesUnder labels).Respects t → ∀ n ∈ done.flatten, l.strata.getD n 0 ≤ t n

theorem Layers.fits_empty : Layers.Fits {} g labels [] where
  length_heights := rfl
  mem_strata n := by simp
  getD_strata := nofun
  respects := nofun
  le := nofun

/-- No edge leads to a component that is not done. -/
theorem ListsComponents.dst_mem_flatten (h : g.ListsComponents (done ++ rest)) (hg : g.Closed)
    {e : Edge} (he : e ∈ g.edges) (hsrc : e.src ∈ done.flatten) : e.dst ∈ done.flatten := by
  have hdst := (h.mem_flatten_iff e.dst).2 (hg e he).2
  rw [List.flatten_append, List.mem_append] at hdst
  refine hdst.resolve_right fun hdst => ?_
  obtain ⟨c, hc, hsrc⟩ := List.mem_flatten.1 hsrc
  obtain ⟨d, hd, hdst⟩ := List.mem_flatten.1 hdst
  exact (List.pairwise_append.1 h.successors_first).2.2 c hc d hd e.src hsrc e.dst hdst
    ⟨e, he, rfl, rfl⟩

theorem Closed.mem_edges_of_members (hg : g.Closed) {e : Edge} :
    e ∈ members.flatMap g.edgesFrom ↔ e ∈ g.edges ∧ e.src ∈ members := by
  simp only [List.mem_flatMap, edgesFrom, List.mem_filter, Bool.and_eq_true, decide_eq_true_eq,
    containsNode_iff, edgeList, Std.ExtTreeMap.mem_keys]
  constructor
  · rintro ⟨n, hn, he, ⟨rfl, -⟩, -⟩
    exact ⟨he, hn⟩
  · rintro ⟨he, hsrc⟩
    exact ⟨e.src, hsrc, he, ⟨rfl, (hg e he).1⟩, (hg e he).2⟩

/-- An edge of the next component ends in it, or in one that is done. -/
theorem ListsComponents.dst_mem (h : g.ListsComponents (done ++ members :: rest)) (hg : g.Closed)
    {e : Edge} (he : e ∈ g.edges) (hsrc : e.src ∈ members) :
    e.dst ∈ done.flatten ∨ e.dst ∈ members := by
  have hnext : g.ListsComponents ((done ++ [members]) ++ rest) := by
    rwa [List.append_assoc, List.singleton_append]
  have hdst := hnext.dst_mem_flatten hg he (by simp [hsrc])
  simpa using hdst

theorem ListsComponents.disjoint_members (h : g.ListsComponents (done ++ members :: rest))
    (hn : n ∈ members) : n ∉ done.flatten := fun hdone => by
  obtain ⟨c, hc, hnc⟩ := List.mem_flatten.1 hdone
  exact (List.pairwise_append.1 h.disjoint).2.2 c hc members List.mem_cons_self n hnc hn

/-- The members of a component lie equally high wherever the dependencies are respected. -/
theorem ListsComponents.eq_of_mem (h : g.ListsComponents (done ++ members :: rest))
    {t : String → Nat} (ht : (g.dependenciesUnder labels).Respects t) {m : String}
    (hn : n ∈ members) (hm : m ∈ members) : t n = t m := by
  have hconnected := (h.mem_iff members (by simp) n hn m).1 hm
  have hstep := step_dependenciesUnder g labels
  exact ht.eq_of_reaches (hstep ▸ hconnected.1) (hstep ▸ hconnected.2)

section Next

variable (hl : l.Fits g labels done) (h : g.ListsComponents (done ++ members :: rest))

include hl h

theorem Layers.Fits.inside_iff {e : Edge} (hdst : e.dst ∈ done.flatten ∨ e.dst ∈ members) :
    l.Inside (numbering (done ++ members :: rest)) e ↔ e.dst ∈ members := by
  rw [Inside, hl.length_heights]
  have hmembers : (done ++ members :: rest)[done.length]? = some members := by simp
  constructor
  · intro heq
    refine hdst.resolve_left fun hdone => ?_
    obtain ⟨c, hc, hdc⟩ := List.mem_flatten.1 hdone
    obtain ⟨i, hi⟩ := List.mem_iff_getElem?.1 hc
    have hlt := (List.getElem?_eq_some_iff.1 hi).1
    have hnumber := getD_numbering h.disjoint ((List.getElem?_append_left hlt).trans hi) hdc
    omega
  · exact getD_numbering h.disjoint hmembers

/-- What an edge to a component that is done demands is read off the stratum of its end. -/
theorem Layers.Fits.demanded_eq {e : Edge} (hdst : e.dst ∈ done.flatten) :
    l.demanded labels (numbering (done ++ members :: rest)) e =
      demand labels (l.strata.getD e.dst 0) e := by
  obtain ⟨c, hc, hdc⟩ := List.mem_flatten.1 hdst
  obtain ⟨i, hi⟩ := List.mem_iff_getElem?.1 hc
  have hlt := (List.getElem?_eq_some_iff.1 hi).1
  rw [demanded, getD_numbering h.disjoint ((List.getElem?_append_left hlt).trans hi) hdc,
    hl.getD_strata i c hi e.dst hdc]

/-- A component without a stratum has a strict cycle. -/
theorem Layers.Fits.hasStrictCycle (hg : g.Closed)
    (hnone : g.place? labels (numbering (done ++ members :: rest)) l members = none) :
    (g.dependenciesUnder labels).HasStrictCycle := by
  rw [place?, Option.map_eq_none_iff, raiseAll_eq_none_iff] at hnone
  obtain ⟨e, he, hinside, hlabel⟩ := hnone
  obtain ⟨he, hsrc⟩ := hg.mem_edges_of_members.1 he
  have hdst := (hl.inside_iff h (h.dst_mem hg he hsrc)).1 hinside
  have hback := (h.mem_iff members (by simp) e.dst hdst e.src).1 hsrc
  refine ⟨e.src, e.dst, ⟨e, he, rfl, rfl, decide_eq_true hlabel⟩, ?_⟩
  rw [step_dependenciesUnder]
  exact hback.1

/-- A component is placed just above what its edges to the components that are done demand, and no
strict edge stays inside. -/
theorem Layers.Fits.exists_place (hg : g.Closed) {next : Layers}
    (hsome : g.place? labels (numbering (done ++ members :: rest)) l members = some next) :
    ∃ stratum, next = l.add members stratum ∧
      (∀ b, stratum ≤ b ↔ ∀ e ∈ g.edges, e.src ∈ members → e.dst ∉ members →
        demand labels (l.strata.getD e.dst 0) e ≤ b) ∧
      ∀ e ∈ g.edges, e.src ∈ members → e.dst ∈ members → e.label ∉ labels := by
  obtain ⟨stratum, hstratum, rfl⟩ := Option.map_eq_some_iff.1 hsome
  refine ⟨stratum, rfl, fun b => ?_, fun e he hsrc hdst hlabel => ?_⟩
  · rw [le_iff_of_raiseAll hstratum, and_iff_right (Nat.zero_le b)]
    simp only [hg.mem_edges_of_members, and_imp]
    refine forall_congr' fun e => forall_congr' fun he => forall_congr' fun hsrc => ?_
    have hend := h.dst_mem hg he hsrc
    rw [hl.inside_iff h hend]
    exact forall_congr' fun hdst => by rw [hl.demanded_eq h (hend.resolve_right hdst)]
  · have hinside := (hl.inside_iff h (.inr hdst)).2 hdst
    have hnone : (members.flatMap g.edgesFrom).foldlM
        (l.raise? labels (numbering (done ++ members :: rest))) 0 = none :=
      raiseAll_eq_none_iff.2 ⟨e, hg.mem_edges_of_members.2 ⟨he, hsrc⟩, hinside, hlabel⟩
    cases hnone.symm.trans hstratum

/-- Where a component is, its stratum is read off, too. -/
theorem Layers.Fits.getD_strata_add {stratum i : Nat} {c : List String}
    (hi : (done ++ [members])[i]? = some c) (hn : n ∈ c) :
    (l.add members stratum).strata.getD n 0 = (l.add members stratum).heights.getD i 0 := by
  rw [add, List.getD_eq_getElem?_getD]
  rcases Nat.lt_or_ge i done.length with hlt | hge
  · rw [List.getElem?_append_left hlt] at hi
    have hdone := List.mem_flatten.2 ⟨c, List.mem_of_getElem? hi, hn⟩
    rw [getD_assign, if_neg fun hmem => h.disjoint_members hmem hdone, hl.getD_strata i c hi n hn,
      List.getD_eq_getElem?_getD, List.getElem?_append_left (hl.length_heights ▸ hlt)]
  · rw [List.getElem?_append_right hge, List.getElem?_singleton,
      Option.ite_none_right_eq_some] at hi
    obtain ⟨hi, hc⟩ := hi
    cases hc
    have hlast : i = l.heights.length := by
      rw [hl.length_heights]
      omega
    rw [getD_assign, if_pos hn, hlast, List.getElem?_concat_length]
    rfl

/-- With one more component, the layers hold the least strata of one more component. -/
theorem Layers.Fits.place (hg : g.Closed) {next : Layers}
    (hsome : g.place? labels (numbering (done ++ members :: rest)) l members = some next) :
    next.Fits g labels (done ++ [members]) := by
  obtain ⟨stratum, rfl, hle, hlabels⟩ := hl.exists_place h hg hsome
  have hmember {n : String} (hn : n ∈ members) :
      (l.add members stratum).strata.getD n 0 = stratum := by
    rw [add, getD_assign, if_pos hn]
  have hold {n : String} (hn : n ∈ done.flatten) :
      (l.add members stratum).strata.getD n 0 = l.strata.getD n 0 := by
    rw [add, getD_assign, if_neg fun hmem => h.disjoint_members hmem hn]
  have hflatten (n : String) : n ∈ (done ++ [members]).flatten ↔
      n ∈ done.flatten ∨ n ∈ members := by simp
  constructor
  · rw [add, List.length_append, List.length_append, hl.length_heights]
    rfl
  · intro n
    rw [hflatten, add, mem_assign, hl.mem_strata]
  · exact fun i c hi n hn => hl.getD_strata_add h hi hn
  · intro e he hsrc
    rcases (hflatten e.src).1 hsrc with hsrc | hsrc
    · rw [hold hsrc, hold (h.dst_mem_flatten hg he hsrc)]
      exact hl.respects e he hsrc
    · rw [hmember hsrc]
      by_cases hdst : e.dst ∈ members
      · rw [hmember hdst, demand, if_neg (hlabels e he hsrc hdst)]
        exact Nat.le_refl stratum
      · rw [hold ((h.dst_mem hg he hsrc).resolve_right hdst)]
        exact (hle stratum).1 (Nat.le_refl stratum) e he hsrc hdst
  · intro t ht n hn
    rcases (hflatten n).1 hn with hn | hn
    · rw [hold hn]
      exact hl.le t ht n hn
    · rw [hmember hn, hle]
      intro e he hsrc hdst
      have hdone := (h.dst_mem hg he hsrc).resolve_right hdst
      calc
        demand labels (l.strata.getD e.dst 0) e ≤ demand labels (t e.dst) e :=
          demand_mono (hl.le t ht e.dst hdone) e
        _ ≤ t e.src := respects_iff.1 ht e he
        _ = t n := h.eq_of_mem ht hsrc hn

end Next

/-- Either all components are placed, or a cycle passes through a strict dependency. -/
theorem Layers.Fits.run (hl : l.Fits g labels done) (hg : g.Closed)
    (h : g.ListsComponents (done ++ rest)) :
    match rest.foldlM (g.place? labels (numbering (done ++ rest))) l with
    | none => (g.dependenciesUnder labels).HasStrictCycle
    | some last => last.Fits g labels (done ++ rest) := by
  induction rest generalizing done l with
  | nil => simpa using hl
  | cons members rest ih =>
      rw [List.foldlM_cons]
      cases hplace : g.place? labels (numbering (done ++ members :: rest)) l members with
      | none => exact hl.hasStrictCycle h hg hplace
      | some next =>
          have hsplit : done ++ members :: rest = (done ++ [members]) ++ rest := by simp
          rw [hsplit] at h ⊢
          exact ih (hl.place (hsplit ▸ h) hg hplace) h

end Placement

section Result

variable {components : List (List String)}

/-- The strata of a graph in which both ends of every edge are nodes are the least ones, whichever
way its components are listed. -/
theorem ListsComponents.stratifiedBy (h : g.ListsComponents components) (hg : g.Closed)
    (labels : List Bool) :
    (g.dependenciesUnder labels).StratifiedBy (g.stratifyBy labels components) := by
  have hempty : Layers.Fits {} g labels [] := Layers.fits_empty
  have hrun := hempty.run hg h
  rw [List.nil_append] at hrun
  rw [stratifyBy]
  cases hlast : components.foldlM (g.place? labels (numbering components)) {} with
  | none =>
      rw [hlast] at hrun
      exact ⟨iff_of_false Bool.false_ne_true (not_not.2 hrun), nofun, nofun⟩
  | some last =>
      rw [hlast] at hrun
      have hrespects : (g.dependenciesUnder labels).Respects fun n => last.strata.getD n 0 :=
        respects_iff.2 fun e he => hrun.respects e he ((h.mem_flatten_iff e.src).2 (hg e he).1)
      constructor
      · exact iff_of_true rfl hrespects.not_hasStrictCycle
      · rintro s ⟨⟩ n
        exact (hrun.mem_strata n).trans (h.mem_flatten_iff n)
      · rintro s ⟨⟩
        refine ⟨hrespects, fun t ht n => ?_⟩
        by_cases hn : n ∈ components.flatten
        · exact hrun.le t ht n hn
        · have hzero : last.strata.getD n 0 = 0 :=
            Std.ExtTreeMap.getD_eq_fallback (mt (hrun.mem_strata n).1 hn)
          exact (Nat.le_of_eq hzero).trans (Nat.zero_le (t n))

/-- The strata of a graph in which both ends of every edge are nodes are the least ones. -/
theorem Closed.stratifiedBy (hg : g.Closed) (labels : List Bool) :
    (g.dependenciesUnder labels).StratifiedBy (g.stratify? labels) :=
  hg.listsComponents.stratifiedBy hg labels

/-- All lists of the components lead to the same strata. -/
theorem ListsComponents.stratifyBy_eq (h : g.ListsComponents components) (hg : g.Closed)
    (labels : List Bool) : g.stratifyBy labels components = g.stratify? labels :=
  (h.stratifiedBy hg labels).unique (hg.stratifiedBy labels)

end Result

end CountedGraph

end DatalogPolicy

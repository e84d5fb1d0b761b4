import DatalogPolicy.Proofs.OrderedList
import DatalogPolicy.Proofs.Safety.SafeOrder
import DatalogPolicy.Safety.Reorder

/-!
# Reordering for safety

While a body is scheduled, no waiting literal can be read, so a literal that is placed
is always the first one that can be. The schedule is therefore the lexicographically
least safe order, and literals that still wait in the end have no safe order.
-/

namespace DatalogPolicy

namespace Literal

variable {l : Literal} {x : String}

theorem mem_varNames {arguments : List (Located Term)} :
    x ∈ OrderedList.ofTexts (arguments.filterMap (·.item.varName?)) ↔
      ∃ a ∈ arguments, a.item = .var x := by
  rw [OrderedList.mem_ofTexts, List.mem_filterMap]
  refine exists_congr fun a => and_congr_right fun _ => ?_
  cases a.item <;> simp [Term.varName?]

theorem mem_variableNames : x ∈ l.variableNames ↔ l.Mentions x := mem_varNames

/-- The required variables are those that have to be bound. -/
theorem mem_required : x ∈ l.required?.getD [] ↔ l.Requires x := by
  rw [required?, Requires]
  split
  · exact mem_variableNames
  · rw [Builtins.findWidth?, Builtins.find?]
    by_cases hplain : l.table.service = none ∧ l.table.modal = none
    · obtain ⟨hservice, hmodal⟩ := hplain
      simp only [hservice, hmodal, Option.isNone_none, Bool.and_self, if_true, true_and]
      cases Builtins.standard[l.table.table]? with
      | none => simp
      | some b =>
          by_cases harity : b.arity = l.arguments.length
          · simp [Option.filter, harity, mem_varNames]
          · simp [Option.filter, harity]
    · rw [← and_assoc]
      simp only [hplain, false_and, iff_false]
      rw [if_neg (by simpa [Option.isNone_iff_eq_none] using hplain)]
      simp

end Literal

namespace Schedule

/-- A waiting literal with the variables that it misses: it requires these, and all others that it
requires are bound. -/
def Misses (bound : List String) (entry : Literal × List String) : Prop :=
  (∀ x ∈ entry.2, entry.1.Requires x) ∧ ∀ x, entry.1.Requires x → x ∈ entry.2 ∨ x ∈ bound

/-- The schedule has placed the literals at some positions of a body, each when it was the first
one that could be read, and lets those at other positions wait in their order. -/
structure Tracks (body : List Literal) (s : Schedule) (taken : List Nat)
    (left : List (Nat × (Literal × List String))) : Prop where
  placed_eq : s.placed = arrange body taken
  waiting_eq : s.waiting = left.map Prod.snd
  left_get : ∀ e ∈ left, body[e.1]? = some e.2.1
  misses : ∀ e ∈ left, Misses s.bound e.2
  /-- The variables that are noted for a literal were not bound when it was met. -/
  met : ∀ e ∈ left, e.2.2 =
    (e.2.1.required?.getD []).filter (· ∉ (ofBody (body.take e.1)).bound)
  mem_bound : ∀ x, x ∈ s.bound ↔ ∃ m ∈ arrange body taken, m.Mentions x
  greedy : IsGreedy body taken
  sorted : (left.map Prod.fst).Pairwise (· < ·)

variable {body : List Literal} {s : Schedule} {taken : List Nat} {k : Nat} {l : Literal}
  {left left' : List (Nat × (Literal × List String))}

/-- What a waiting literal misses is bound when the literal can be read. -/
theorem Tracks.binds_iff (h : Tracks body s taken left) {entry : Literal × List String}
    (hget : body[k]? = some entry.1) (hmisses : Misses s.bound entry) :
    binds s.bound entry.2 = true ↔ Readable body taken k := by
  rw [binds, List.all_eq_true]
  constructor
  · intro hbound l hl x hx
    cases hget.symm.trans hl
    rw [← h.mem_bound]
    rcases hmisses.2 x hx with hmissing | hold
    · exact of_decide_eq_true (hbound x hmissing)
    · exact hold
  · intro hread x hx
    exact decide_eq_true ((h.mem_bound x).2 (hread _ hget x (hmisses.1 x hx)))

/-- The first literal that can be read is placed. -/
theorem Tracks.place (h : Tracks body s taken left) (hget : body[k]? = some l)
    (hread : Readable body taken k) (hfirst : ∀ j < k, j ∉ taken → ¬ Readable body taken j)
    (hsub : left'.Sublist left) :
    Tracks body (place l { s with waiting := left'.map Prod.snd }) (taken ++ [k]) left' where
  placed_eq := by
    rw [arrange_append, arrange_singleton hget, ← h.placed_eq]
    rfl
  waiting_eq := rfl
  left_get e he := h.left_get e (hsub.mem he)
  misses e he := by
    obtain ⟨hrequired, hbound⟩ := h.misses e (hsub.mem he)
    exact ⟨hrequired, fun x hx => (hbound x hx).imp_right (List.mem_append_left _)⟩
  met e he := h.met e (hsub.mem he)
  mem_bound x := by
    rw [arrange_append, arrange_singleton hget, Schedule.place, List.mem_append, Literal.mem_variableNames,
      h.mem_bound]
    simp only [List.mem_append, List.mem_singleton, or_and_right, exists_or, exists_eq_left]
  greedy := h.greedy.concat hread hfirst
  sorted := h.sorted.sublist (hsub.map Prod.fst)

theorem takeReady?_eq_none {bound : List String} {waiting : List (Literal × List String)}
    (h : takeReady? bound waiting = none) : ∀ entry ∈ waiting, binds bound entry.2 = false := by
  induction waiting with
  | nil => exact fun _ hentry => absurd hentry List.not_mem_nil
  | cons entry rest ih =>
      rw [takeReady?] at h
      split at h
      · cases h
      · next hnot =>
          rw [Option.map_eq_none_iff] at h
          exact List.forall_mem_cons.2 ⟨Bool.eq_false_of_not_eq_true hnot, ih h⟩

theorem takeReady?_eq_some {bound : List String} {waiting others : List (Literal × List String)}
    (h : takeReady? bound waiting = some (l, others)) :
    ∃ before missing after, waiting = before ++ (l, missing) :: after ∧
      others = before ++ after ∧ binds bound missing = true ∧
      ∀ entry ∈ before, binds bound entry.2 = false := by
  induction waiting generalizing others with
  | nil => cases h
  | cons entry rest ih =>
      rw [takeReady?] at h
      split at h
      · next hready =>
          cases h
          exact ⟨[], entry.2, rest, rfl, rfl, hready, fun _ hnil => absurd hnil List.not_mem_nil⟩
      · next hnot =>
          obtain ⟨⟨m, more⟩, hm, heq⟩ := Option.map_eq_some_iff.1 h
          cases heq
          obtain ⟨before, missing, after, rfl, rfl, hready, hbefore⟩ := ih hm
          refine ⟨entry :: before, missing, after, rfl, rfl, hready, ?_⟩
          exact List.forall_mem_cons.2 ⟨Bool.eq_false_of_not_eq_true hnot, hbefore⟩

/-- The positions that are taken or left are the first ones of the body. -/
def Covers (taken : List Nat) (left : List (Nat × (Literal × List String))) (n : Nat) : Prop :=
  (taken ++ left.map Prod.fst).Perm (List.range n)

theorem Covers.mem_or {n : Nat} (h : Covers taken left n) (hk : k < n) (hnew : k ∉ taken) :
    ∃ e ∈ left, e.1 = k := by
  have hmem : k ∈ taken ++ left.map Prod.fst := h.mem_iff.2 (List.mem_range.2 hk)
  exact List.mem_map.1 ((List.mem_append.1 hmem).resolve_left hnew)

theorem Covers.lt_of_mem {n : Nat} (h : Covers taken left n) {e : Nat × (Literal × List String)}
    (he : e ∈ left) : e.1 < n :=
  List.mem_range.1 (h.mem_iff.1 (List.mem_append_right _ (List.mem_map_of_mem he)))

/-- What is smaller than an item of an increasing list stands before it. -/
theorem mem_front_of_lt {first last : List (Nat × (Literal × List String))}
    {e here : Nat × (Literal × List String)}
    (hsorted : ((first ++ here :: last).map Prod.fst).Pairwise (· < ·))
    (he : e ∈ first ++ here :: last) (hlt : e.1 < here.1) : e ∈ first := by
  rw [List.map_append, List.map_cons, List.pairwise_append] at hsorted
  rcases List.mem_append.1 he with hfront | hback
  · exact hfront
  · rcases List.mem_cons.1 hback with rfl | hlast
    · exact absurd hlt (Nat.lt_irrefl _)
    · have hgt : here.1 < e.1 :=
        List.rel_of_pairwise_cons hsorted.2.1 (List.mem_map_of_mem hlast)
      omega

/-- No position that is left can be read. -/
def Settled (body : List Literal) (taken : List Nat)
    (left : List (Nat × (Literal × List String))) : Prop :=
  ∀ e ∈ left, ¬ Readable body taken e.1

/-- Placing waiting literals as long as possible leaves none that can be read. -/
theorem Tracks.settle {n : Nat} (h : Tracks body s taken left) (hcovers : Covers taken left n) :
    ∃ taken' left', Tracks body s.settle taken' left' ∧ Covers taken' left' n ∧
      Settled body taken' left' := by
  fun_induction Schedule.settle s generalizing taken left with
  | case1 s hnone =>
      refine ⟨taken, left, h, hcovers, fun e he hread => ?_⟩
      have hwaits : e.2 ∈ s.waiting := h.waiting_eq ▸ List.mem_map_of_mem he
      have hbinds := (h.binds_iff (h.left_get e he) (h.misses e he)).2 hread
      rw [takeReady?_eq_none hnone e.2 hwaits] at hbinds
      exact Bool.false_ne_true hbinds
  | case2 s l others hsome ih =>
      obtain ⟨before, missing, after, hwaiting, rfl, hready, hbefore⟩ := takeReady?_eq_some hsome
      rw [h.waiting_eq] at hwaiting
      obtain ⟨first, tail, rfl, rfl, htail⟩ := List.map_eq_append_iff.1 hwaiting
      obtain ⟨⟨k, entry⟩, last, rfl, rfl, rfl⟩ := List.map_eq_cons_iff.1 htail
      have hmem : (k, l, missing) ∈ first ++ (k, l, missing) :: last := by simp
      have hget := h.left_get _ hmem
      have hread := (h.binds_iff hget (h.misses _ hmem)).1 hready
      -- a smaller position that is left waits in front, where none can be read
      have hfirst : ∀ j < k, j ∉ taken → ¬ Readable body taken j := by
        intro j hj hnew hreadj
        have hk : k < n := hcovers.lt_of_mem hmem
        obtain ⟨e, he, rfl⟩ := hcovers.mem_or (hj.trans hk) hnew
        have hfront : e ∈ first := mem_front_of_lt h.sorted he hj
        have hbinds := (h.binds_iff (h.left_get e he) (h.misses e he)).2 hreadj
        rw [hbefore e.2 (List.mem_map_of_mem hfront)] at hbinds
        exact Bool.false_ne_true hbinds
      rw [← List.map_append] at ih ⊢
      refine ih (h.place hget hread hfirst ?_) ?_
      · exact (List.sublist_cons_self _ _).append_left first
      · refine List.Perm.trans ?_ hcovers
        rw [List.append_assoc, List.singleton_append, List.map_append, List.map_append,
          List.map_cons]
        exact List.Perm.append_left taken List.perm_middle.symm

/-- The next literal of the body is placed, with all that it sets free, or waits. -/
theorem Tracks.add {n : Nat} (h : Tracks body s taken left) (hcovers : Covers taken left n)
    (hsettled : Settled body taken left) (hget : body[n]? = some l)
    (hs : s = ofBody (body.take n)) :
    ∃ taken' left', Tracks body (s.add l) taken' left' ∧ Covers taken' left' (n + 1) ∧
      Settled body taken' left' := by
  have hmisses : Misses s.bound (l, (l.required?.getD []).filter (· ∉ s.bound)) := by
    constructor
    · intro x hx
      exact Literal.mem_required.1 (List.mem_filter.1 hx).1
    · intro x hx
      by_cases hbound : x ∈ s.bound
      · exact .inr hbound
      · exact .inl (List.mem_filter.2 ⟨Literal.mem_required.2 hx, decide_eq_true hbound⟩)
  have hbinds := h.binds_iff hget hmisses
  rw [Schedule.add]
  split
  · next hempty =>
      rw [List.isEmpty_iff.1 hempty] at hbinds
      have hread : Readable body taken n := hbinds.1 rfl
      have hfirst : ∀ j < n, j ∉ taken → ¬ Readable body taken j := by
        intro j hj hnew
        obtain ⟨e, he, rfl⟩ := hcovers.mem_or hj hnew
        exact hsettled e he
      have hplaced := h.place hget hread hfirst (List.Sublist.refl left)
      rw [← h.waiting_eq] at hplaced
      apply hplaced.settle
      rw [Covers, List.append_assoc, List.range_succ]
      refine List.perm_middle.trans (.trans ?_ List.perm_append_comm)
      exact List.Perm.cons n hcovers
  · next hmissing =>
      have hunread : ¬ Readable body taken n := by
        intro hread
        apply hmissing
        rw [List.isEmpty_iff, List.filter_eq_nil_iff]
        intro x hx
        have hbound := (h.mem_bound x).2 (hread l hget x (Literal.mem_required.1 hx))
        simpa using hbound
      refine ⟨taken, left ++ [(n, l, (l.required?.getD []).filter (· ∉ s.bound))], ?_, ?_, ?_⟩
      · constructor
        · exact h.placed_eq
        · rw [List.map_append, ← h.waiting_eq]
          rfl
        · exact List.forall_mem_append.2 ⟨h.left_get, List.forall_mem_singleton.2 hget⟩
        · exact List.forall_mem_append.2 ⟨h.misses, List.forall_mem_singleton.2 hmisses⟩
        · exact List.forall_mem_append.2 ⟨h.met, List.forall_mem_singleton.2 (hs ▸ rfl)⟩
        · exact h.mem_bound
        · exact h.greedy
        · rw [List.map_append, List.pairwise_append]
          refine ⟨h.sorted, List.pairwise_singleton _ _, fun a ha b hb => ?_⟩
          obtain ⟨e, he, rfl⟩ := List.mem_map.1 ha
          rw [List.mem_singleton.1 hb]
          exact hcovers.lt_of_mem he
      · rw [Covers, List.map_append, ← List.append_assoc, List.range_succ]
        exact List.Perm.append_right [n] hcovers
      · exact List.forall_mem_append.2 ⟨hsettled, List.forall_mem_singleton.2 hunread⟩

/-- A whole body is scheduled greedily, and no literal that still waits can be read. -/
theorem tracks_ofBody (body : List Literal) :
    ∃ taken left, Tracks body (ofBody body) taken left ∧ Covers taken left body.length ∧
      Settled body taken left := by
  have hprefix (n : Nat) (hn : n ≤ body.length) :
      ∃ taken left, Tracks body ((body.take n).foldl Schedule.add {}) taken left ∧
        Covers taken left n ∧ Settled body taken left := by
    induction n with
    | zero =>
        refine ⟨[], [], ?_, List.Perm.refl _, fun _ he => absurd he List.not_mem_nil⟩
        constructor
        · rfl
        · rfl
        · intro _ he
          exact absurd he List.not_mem_nil
        · intro _ he
          exact absurd he List.not_mem_nil
        · intro _ he
          exact absurd he List.not_mem_nil
        · intro x
          simp [arrange]
        · exact isGreedy_nil
        · exact List.Pairwise.nil
    | succ n ih =>
        obtain ⟨taken, left, htracks, hcovers, hsettled⟩ := ih (Nat.le_of_succ_le hn)
        have hget : body[n]? = some body[n] := List.getElem?_eq_getElem hn
        rw [List.take_add_one, hget, List.foldl_append]
        exact htracks.add hcovers hsettled hget rfl
  have h := hprefix body.length (Nat.le_refl _)
  rwa [List.take_length] at h

end Schedule

namespace Rule

/-- A body is put into its least safe order, or it has none. -/
theorem reorder_cases (r : Rule) :
    (∃ p, IsLeast {q | IsSafePermutation r.body q} p ∧
      r.reorder = .ok { r with body := arrange r.body p }) ∨
    (¬ ∃ q, IsSafePermutation r.body q) ∧ ∃ e, r.reorder = .error e := by
  obtain ⟨taken, left, htracks, hcovers, hsettled⟩ := Schedule.tracks_ofBody r.body
  cases left with
  | nil =>
      left
      rw [Schedule.Covers, List.map_nil, List.append_nil] at hcovers
      refine ⟨taken, htracks.greedy.isLeast hcovers, ?_⟩
      simp only [reorder, htracks.waiting_eq, htracks.placed_eq, List.map_nil, List.isEmpty_nil,
        if_true]
  | cons e rest =>
      right
      constructor
      · rintro ⟨q, hq⟩
        have hnew : e.1 ∉ taken := fun htaken =>
          (List.nodup_append.1 (hcovers.nodup_iff.2 List.nodup_range)).2.2 _ htaken e.1
            (List.mem_map_of_mem List.mem_cons_self) rfl
        obtain ⟨j, hj, hjnew, hread⟩ :=
          hq.exists_readable (hcovers.lt_of_mem List.mem_cons_self) hnew
        obtain ⟨e', he', rfl⟩ := hcovers.mem_or hj hjnew
        exact hsettled e' he' hread
      · simp only [reorder, htracks.waiting_eq, List.map_cons, List.isEmpty_cons,
          Bool.false_eq_true, if_false]
        exact ⟨_, rfl⟩

/-- Reordering succeeds exactly if the body has a safe order. It then puts the body into the
lexicographically least one and changes nothing else: no literal is lost or doubled, a safe body
stays as it is, and reordering once more makes no difference. -/
theorem reorder_isLeast (r : Rule) :
    ((∃ r', r.reorder = .ok r') ↔ ∃ p, IsSafePermutation r.body p) ∧
    (∀ r', r.reorder = .ok r' →
      (∃ p, IsLeast {q | IsSafePermutation r.body q} p ∧
        r' = { r with body := arrange r.body p }) ∧
      r'.body.Perm r.body ∧ r'.reorder = .ok r') ∧
    (IsSafeOrder r.body → r.reorder = .ok r) := by
  have hsafe (r : Rule) (h : IsSafeOrder r.body) : r.reorder = .ok r := by
    have hidentity := h.isLeast
    rcases r.reorder_cases with ⟨p, hp, hok⟩ | ⟨hnone, -⟩
    · rw [hok, hp.unique hidentity, arrange_range]
    · exact absurd ⟨_, hidentity.1⟩ hnone
  refine ⟨?_, ?_, hsafe r⟩
  · rcases r.reorder_cases with ⟨p, hp, hok⟩ | ⟨hnone, e, herror⟩
    · exact iff_of_true ⟨_, hok⟩ ⟨p, hp.1⟩
    · refine iff_of_false ?_ hnone
      rintro ⟨r', hok⟩
      exact nomatch herror.symm.trans hok
  · intro r' hr'
    rcases r.reorder_cases with ⟨p, hp, hok⟩ | ⟨-, e, herror⟩
    · cases hok.symm.trans hr'
      exact ⟨⟨p, hp, rfl⟩, arrange_perm hp.1.1, hsafe _ hp.1.2⟩
    · exact nomatch herror.symm.trans hr'

end Rule

end DatalogPolicy

import DatalogPolicy.Proofs.Safety.Agreement

/-!
# What an error says of a body without a safe order

The literals that can be read form the largest part of a body that has a safe order. The error of
a rule that cannot be reordered lists the literals outside this part, each with variables that it
requires. These were noted when the literal was met, so they are those that the literals before it
do not bind. Variables that only later literals bind are still among them.
-/

namespace DatalogPolicy

/-- Some positions of a body, each at most once and in a safe order. -/
structure IsSafeSelection (body : List Literal) (positions : List Nat) : Prop where
  nodup : positions.Nodup
  lt_length : ∀ k ∈ positions, k < body.length
  safe : IsSafeOrder (arrange body positions)

/-- The largest part of a body that has a safe order: no safe selection has another position. -/
structure IsLargestSafe (body : List Literal) (part : List Nat) : Prop
    extends IsSafeSelection body part where
  largest : ∀ q, IsSafeSelection body q → q ⊆ part

/-- A literal of a body is blocked when it requires a variable that the body does not limit. -/
def IsBlocked (body : List Literal) (l : Literal) : Prop := ∃ x, l.Requires x ∧ ¬ Limited body x

/-- The positions of a body outside a part, in increasing order. -/
def outside (body : List Literal) (part : List Nat) : List Nat :=
  (List.range body.length).filter (· ∉ part)

/-- What is reported of a position outside the largest part of a body: the literal there with those
variables that it requires and that the largest part of the literals before it does not bind, in
increasing order. All that the whole body does not bind are among them. -/
structure IsReport (body : List Literal) (part : List Nat) (k : Nat)
    (entry : Literal × List String) : Prop where
  literal_eq : body[k]? = some entry.1
  increasing : OrderedList.Increasing compare entry.2
  mem_iff : ∃ earlier, IsLargestSafe (body.take k) earlier ∧ ∀ x, x ∈ entry.2 ↔
    entry.1.Requires x ∧ ¬ ∃ m ∈ arrange (body.take k) earlier, m.Mentions x
  mem_of_unbound : ∀ x, entry.1.Requires x → (¬ ∃ m ∈ arrange body part, m.Mentions x) →
    x ∈ entry.2

section Selections

variable {body : List Literal} {part p taken : List Nat} {k n : Nat} {l : Literal} {x : String}

/-- A position that can be read may be appended. -/
theorem IsSafeSelection.concat (h : IsSafeSelection body p) (hk : k < body.length) (hnew : k ∉ p)
    (hread : Readable body p k) : IsSafeSelection body (p ++ [k]) where
  nodup := List.nodup_append.2 ⟨h.nodup, List.nodup_singleton k, fun a ha b hb => by
    rw [List.mem_singleton.1 hb]
    exact fun heq => hnew (heq ▸ ha)⟩
  lt_length := List.forall_mem_append.2 ⟨h.lt_length, List.forall_mem_singleton.2 hk⟩
  safe := by
    apply isSafeOrder_of_readable
    intro taken k' rest heq
    rcases List.eq_nil_or_concat rest with rfl | ⟨rest', z, rfl⟩
    · obtain ⟨rfl, hkk⟩ := List.append_inj' heq rfl
      cases hkk
      exact hread
    · rw [List.concat_eq_append, ← List.cons_append, ← List.append_assoc] at heq
      exact ((List.append_inj' heq rfl).1 ▸ h.safe).readable

theorem IsLargestSafe.mem_of_readable (h : IsLargestSafe body part) (hk : k < body.length)
    (hread : Readable body part k) : k ∈ part := by
  by_contra hnew
  exact hnew (h.largest _ (h.toIsSafeSelection.concat hk hnew hread) (by simp))

/-- The largest part binds the variables that the body limits. -/
theorem IsLargestSafe.binds_iff (h : IsLargestSafe body part) :
    (∃ m ∈ arrange body part, m.Mentions x) ↔ Limited body x := by
  constructor
  · rintro ⟨m, hm, hx⟩
    refine h.safe.limited (fun l hl => ?_) m hm x hx
    obtain ⟨j, -, hj⟩ := mem_arrange.1 hl
    exact List.mem_of_getElem? hj
  · intro hx
    exact hx.mem_arrange fun k hk hread => h.mem_of_readable hk hread

/-- What the first literals bind is bound by the whole body. -/
theorem IsLargestSafe.binds_of_take (h : IsLargestSafe body part)
    (hp : IsLargestSafe (body.take n) p) (hx : ∃ m ∈ arrange (body.take n) p, m.Mentions x) :
    ∃ m ∈ arrange body part, m.Mentions x :=
  h.binds_iff.2 ((hp.binds_iff.1 hx).mono (List.take_subset n body))

/-- The literals outside the largest part are the blocked ones. -/
theorem IsLargestSafe.not_mem_iff (h : IsLargestSafe body part) (hget : body[k]? = some l) :
    k ∉ part ↔ IsBlocked body l := by
  have hread : k ∈ part ↔ ∀ x, l.Requires x → Limited body x := by
    constructor
    · intro hk x hx
      exact h.binds_iff.1 ⟨l, mem_arrange.2 ⟨k, hk, hget⟩, Literal.mentions_of_requires hx⟩
    · intro hlimited
      refine h.mem_of_readable (List.getElem?_eq_some_iff.1 hget).1 fun m hm x hx => ?_
      cases hget.symm.trans hm
      exact h.binds_iff.2 (hlimited x hx)
  rw [hread, IsBlocked]
  push Not
  rfl

open Classical in
theorem arrange_outside (h : IsLargestSafe body part) :
    arrange body (outside body part) = body.filter (IsBlocked body ·) := by
  have hitem (k : Nat) : (if k ∉ part then body[k]? else none) =
      (body[k]?).filter (IsBlocked body ·) := by
    cases hget : body[k]? with
    | none => simp
    | some l => simp only [h.not_mem_iff hget, Option.filter_some, decide_eq_true_eq]
  calc arrange body (outside body part)
      = (List.range body.length).filterMap fun k => (body[k]?).filter (IsBlocked body ·) := by
        simp only [arrange, outside, List.filterMap_filter, decide_eq_true_eq, hitem]
    _ = (arrange body (List.range body.length)).filter (IsBlocked body ·) :=
        List.filter_filterMap.symm
    _ = body.filter (IsBlocked body ·) := by rw [arrange_range]

end Selections

namespace Literal

/-- The required variables are in increasing order. -/
theorem increasing_required (l : Literal) :
    OrderedList.Increasing compare (l.required?.getD []) := by
  rw [required?]
  split
  · exact OrderedList.increasing_ofList _
  · cases Builtins.standard.findWidth? l.table l.arguments.length with
    | none => exact List.Pairwise.nil
    | some b => exact OrderedList.increasing_ofList _

end Literal

namespace Schedule

variable {body : List Literal} {s : Schedule} {taken : List Nat}
  {left : List (Nat × (Literal × List String))}

/-- The schedule of a whole body takes the largest part. -/
theorem Tracks.isLargestSafe (h : Tracks body s taken left)
    (hcovers : Covers taken left body.length) (hsettled : Settled body taken left) :
    IsLargestSafe body taken where
  nodup := (List.nodup_append.1 (hcovers.nodup_iff.2 List.nodup_range)).1
  lt_length k hk := List.mem_range.1 (hcovers.mem_iff.1 (List.mem_append_left _ hk))
  safe := h.greedy.isSafeOrder
  largest q hq k hk := by
    by_contra hnew
    obtain ⟨j, hj, hjnew, hread⟩ := hq.safe.exists_readable hk hnew
    obtain ⟨e, he, rfl⟩ := hcovers.mem_or (hq.lt_length j hj) hjnew
    exact hsettled e he hread

theorem Tracks.map_fst_left (h : Tracks body s taken left)
    (hcovers : Covers taken left body.length) : left.map Prod.fst = outside body taken := by
  have hnodup : (taken ++ left.map Prod.fst).Nodup := hcovers.nodup_iff.2 List.nodup_range
  have hmem (k : Nat) : k ∈ left.map Prod.fst ↔ k ∈ outside body taken := by
    rw [outside, List.mem_filter, decide_eq_true_eq, ← hcovers.mem_iff, List.mem_append]
    constructor
    · intro hk
      exact ⟨.inr hk, fun htaken => (List.nodup_append.1 hnodup).2.2 k htaken k hk rfl⟩
    · rintro ⟨hk, hnew⟩
      exact hk.resolve_left hnew
  have hsorted : (outside body taken).Pairwise (· < ·) := List.pairwise_lt_range.filter _
  apply List.Perm.eq_of_pairwise _ h.sorted hsorted
  · exact (List.perm_ext_iff_of_nodup (List.nodup_append.1 hnodup).2.1
      (List.nodup_range.filter _)).2 hmem
  · intro a b _ _ hab hba
    exact absurd hba (Nat.lt_asymm hab)

theorem exists_bound_iff (body : List Literal) : ∃ part, IsLargestSafe body part ∧
    ∀ x, x ∈ (ofBody body).bound ↔ ∃ m ∈ arrange body part, m.Mentions x := by
  obtain ⟨taken, left, htracks, hcovers, hsettled⟩ := tracks_ofBody body
  exact ⟨taken, htracks.isLargestSafe hcovers hsettled, htracks.mem_bound⟩

/-- The schedule of a body places the largest part and reports the literals outside it, in the
order of the body. -/
theorem exists_isReport (body : List Literal) : ∃ part, IsLargestSafe body part ∧
    (ofBody body).placed = arrange body part ∧
    List.Forall₂ (IsReport body part) (outside body part) (ofBody body).waiting := by
  obtain ⟨part, left, htracks, hcovers, hsettled⟩ := tracks_ofBody body
  have hpart := htracks.isLargestSafe hcovers hsettled
  refine ⟨part, hpart, htracks.placed_eq, ?_⟩
  rw [← htracks.map_fst_left hcovers, htracks.waiting_eq, List.forall₂_map_left_iff,
    List.forall₂_map_right_iff, List.forall₂_same]
  intro e he
  obtain ⟨earlier, hearlier, hbound⟩ := exists_bound_iff (body.take e.1)
  have hmem (x : String) : x ∈ e.2.2 ↔
      e.2.1.Requires x ∧ ¬ ∃ m ∈ arrange (body.take e.1) earlier, m.Mentions x := by
    rw [htracks.met e he, List.mem_filter, Literal.mem_required, decide_eq_true_eq, hbound]
  constructor
  · exact htracks.left_get e he
  · rw [htracks.met e he]
    exact (Literal.increasing_required e.2.1).filter _
  · exact ⟨earlier, hearlier, hmem⟩
  · intro x hx hunbound
    exact (hmem x).2 ⟨hx, fun h => hunbound (hpart.binds_of_take hearlier h)⟩

open Classical in
/-- The literals that are reported are the blocked ones. -/
theorem map_fst_waiting (body : List Literal) :
    (ofBody body).waiting.map Prod.fst = body.filter (IsBlocked body ·) := by
  obtain ⟨part, hpart, -, hreports⟩ := exists_isReport body
  rw [← arrange_outside hpart, arrange]
  generalize outside body part = positions, (ofBody body).waiting = waiting at hreports ⊢
  induction hreports with
  | nil => rfl
  | cons hreport _ ih => rw [List.map_cons, List.filterMap_cons_some hreport.literal_eq, ih]

/-- Bodies that say alike are blocked at literals that say alike. -/
theorem waiting_sayAlike {other : List Literal} (h : Literal.SayAlike body other) :
    Literal.SayAlike ((ofBody body).waiting.map Prod.fst)
      ((ofBody other).waiting.map Prod.fst) := by
  classical
  have htest : Literal.OfContent fun l => decide (IsBlocked body l) := by
    intro a b hab
    refine decide_eq_decide.2 ?_
    simp only [IsBlocked, Literal.requires_congr hab]
  have hother (l : Literal) : IsBlocked body l ↔ IsBlocked other l := by
    simp only [IsBlocked, limited_congr h]
  rw [map_fst_waiting, map_fst_waiting]
  simp only [← hother]
  exact h.map_filter_perm htest fun _ _ hab => hab

end Schedule

namespace Rule

/-- A rule with waiting literals cannot be reordered, and its error lists them. -/
theorem reorder_eq_error {r : Rule} (h : (Schedule.ofBody r.body).waiting ≠ []) : r.reorder =
    .error (.policy (.unorderable r (Schedule.ofBody r.body).waiting) r.location) := by
  rw [reorder, if_neg (by rwa [List.isEmpty_iff])]

/-- The error of a rule that cannot be reordered lists the literals outside the largest part of the
body that has a safe order, in the order of the body, each with those variables that it requires
and that the largest part of the literals before it does not bind. The errors of equal rules list
the same literals. -/
theorem reorder_reports {r : Rule} (h : ∀ r', r.reorder ≠ .ok r') :
    ∃ part stuck, IsLargestSafe r.body part ∧
      r.reorder = .error (.policy (.unorderable r stuck) r.location) ∧
      List.Forall₂ (IsReport r.body part) (outside r.body part) stuck ∧
      ∀ s : Rule, (r == s) = true → ∃ others,
        s.reorder = .error (.policy (.unorderable s others) s.location) ∧
          Literal.SayAlike (stuck.map Prod.fst) (others.map Prod.fst) := by
  have hwaiting : (Schedule.ofBody r.body).waiting ≠ [] := by
    intro hnil
    refine h { r with body := (Schedule.ofBody r.body).placed } ?_
    rw [reorder, if_pos (by rw [hnil]; rfl)]
  obtain ⟨part, hpart, -, hreports⟩ := Schedule.exists_isReport r.body
  refine ⟨part, _, hpart, reorder_eq_error hwaiting, hreports, fun s hs => ?_⟩
  have halike := Schedule.waiting_sayAlike (body_sayAlike hs)
  refine ⟨_, reorder_eq_error fun hnil => hwaiting ?_, halike⟩
  rw [hnil] at halike
  exact List.map_eq_nil_iff.1 (List.length_eq_zero_iff.1 halike.length_eq)

/-- The literal `not r(x, y)`. -/
def needsBoth : Literal where
  table := { table := "r" }
  arguments := [⟨.var "x", none⟩, ⟨.var "y", none⟩]
  negated := true

/-- The literal `q(x)`. -/
def givesFirst : Literal where
  table := { table := "q" }
  arguments := [⟨.var "x", none⟩]

/-- A rule that derives `p(x)` from some literals. -/
def derivingFirst (body : List Literal) : Rule where
  heads := [{ table := { table := "p" }, arguments := [⟨.var "x", none⟩] }]
  body := body
  heads_ne := List.cons_ne_nil _ _

theorem reorder_derivingFirst {body : List Literal} {entry : Literal × List String}
    (h : (Schedule.ofBody body).waiting = [entry]) : (derivingFirst body).reorder =
      .error (.policy (.unorderable (derivingFirst body) [entry]) none) := by
  rw [← h]
  exact reorder_eq_error (r := derivingFirst body) (h ▸ List.cons_ne_nil _ _)

theorem reorder_reports_needsBoth :
    (∀ r', (derivingFirst [needsBoth, givesFirst]).reorder ≠ .ok r') ∧
    ∃ part stuck, IsLargestSafe [needsBoth, givesFirst] part ∧
      (derivingFirst [needsBoth, givesFirst]).reorder =
        .error (.policy (.unorderable (derivingFirst [needsBoth, givesFirst]) stuck) none) ∧
      List.Forall₂ (IsReport [needsBoth, givesFirst] part) (outside [needsBoth, givesFirst] part)
        stuck := by
  have hwaiting : (Schedule.ofBody [needsBoth, givesFirst]).waiting = [(needsBoth, ["x", "y"])] := by
    decide +kernel
  have hfails (r' : Rule) : (derivingFirst [needsBoth, givesFirst]).reorder ≠ .ok r' := by
    rw [reorder_derivingFirst hwaiting]
    exact nofun
  obtain ⟨part, stuck, hpart, herror, hreports, -⟩ := reorder_reports hfails
  exact ⟨hfails, part, stuck, hpart, herror, hreports⟩

/-- Of the rule `p(x) :- not r(x, y), q(x)` the variable `x` is reported, although `q(x)` binds it,
and of the equal rule `p(x) :- q(x), not r(x, y)` it is not. -/
theorem reorder_needsBoth :
    (derivingFirst [needsBoth, givesFirst]).reorder =
      .error (.policy (.unorderable (derivingFirst [needsBoth, givesFirst])
        [(needsBoth, ["x", "y"])]) none) ∧
    (∃ part, IsLargestSafe [needsBoth, givesFirst] part ∧
      ∃ m ∈ arrange [needsBoth, givesFirst] part, m.Mentions "x") ∧
    (derivingFirst [needsBoth, givesFirst] == derivingFirst [givesFirst, needsBoth]) = true ∧
    (derivingFirst [givesFirst, needsBoth]).reorder =
      .error (.policy (.unorderable (derivingFirst [givesFirst, needsBoth])
        [(needsBoth, ["y"])]) none) := by
  refine ⟨reorder_derivingFirst (by decide +kernel), ?_,
    beq_iff_sayAlike.2 ⟨List.Perm.refl _, List.Perm.swap _ _ []⟩,
    reorder_derivingFirst (by decide +kernel)⟩
  obtain ⟨part, hpart, hplaced, -⟩ := Schedule.exists_isReport [needsBoth, givesFirst]
  have hq : (Schedule.ofBody [needsBoth, givesFirst]).placed = [givesFirst] := by decide +kernel
  refine ⟨part, hpart, givesFirst, ?_, ⟨.var "x", none⟩, List.mem_singleton_self _, rfl⟩
  rw [← hplaced, hq]
  exact List.mem_singleton_self _

end Rule

end DatalogPolicy

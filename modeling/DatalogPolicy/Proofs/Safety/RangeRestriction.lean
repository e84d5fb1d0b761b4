import DatalogPolicy.Proofs.Safety.Reorder
import DatalogPolicy.Safety.Check

/-!
# Range restriction

A variable of a rule is limited when the body gives it a value: stored tables give values
to all their variables, and builtins do so once their inputs have values. A body has a safe
order just when all its variables are limited, so the checks of heads and bodies together
find no fault just when every variable of the rule is limited.
-/

namespace DatalogPolicy

/-- The table of a literal is computed by a builtin of the same width. -/
def Literal.IsComputedBy (l : Literal) (b : Builtin) : Prop :=
  l.table.service = none ∧ l.table.modal = none ∧
    Builtins.standard[l.table.table]? = some b ∧ b.arity = l.arguments.length

/-- A variable is among the inputs that a builtin takes from a literal. -/
def Literal.IsInput (l : Literal) (b : Builtin) (x : String) : Prop :=
  ∃ a ∈ l.arguments.take b.inputs, a.item = .var x

/-- The variables to which a body gives values: those of stored tables, and those of builtins all
of whose inputs have values. -/
inductive Limited (body : List Literal) : String → Prop
  | stored {l x} (hl : l ∈ body) (hpositive : l.negated = false)
      (hstored : ∀ b, ¬ l.IsComputedBy b) (hx : l.Mentions x) : Limited body x
  | computed {l b x} (hl : l ∈ body) (hpositive : l.negated = false) (hb : l.IsComputedBy b)
      (hinputs : ∀ y, l.IsInput b y → Limited body y) (hx : l.Mentions x) : Limited body x

section Bodies

variable {body : List Literal} {l : Literal} {x : String}

theorem Literal.requires_of_positive (h : l.negated = false) :
    l.Requires x ↔ ∃ b, l.IsComputedBy b ∧ l.IsInput b x := by
  simp only [Requires, h, Bool.false_eq_true, if_false, IsComputedBy, IsInput, and_assoc,
    exists_and_left]

theorem Literal.mentions_of_requires (h : l.Requires x) : l.Mentions x := by
  cases hnegated : l.negated with
  | true => rwa [Requires, if_pos hnegated] at h
  | false =>
      obtain ⟨b, -, a, ha, hax⟩ := (requires_of_positive hnegated).1 h
      exact ⟨a, (List.take_sublist _ _).mem ha, hax⟩

/-- A positive literal gives values to its variables once those that it requires have values. -/
theorem Limited.of_requires (hl : l ∈ body) (hpositive : l.negated = false)
    (h : ∀ y, l.Requires y → Limited body y) (hx : l.Mentions x) : Limited body x := by
  by_cases hb : ∃ b, l.IsComputedBy b
  · obtain ⟨b, hb⟩ := hb
    refine .computed hl hpositive hb (fun y hy => h y ?_) hx
    exact (Literal.requires_of_positive hpositive).2 ⟨b, hb, hy⟩
  · exact .stored hl hpositive (not_exists.1 hb) hx

/-- In a safe order each literal finds its variables limited, or limits them. -/
theorem IsSafeOrder.limited {order : List Literal} (h : IsSafeOrder order)
    (hsub : order ⊆ body) : ∀ l ∈ order, ∀ x, l.Mentions x → Limited body x := by
  have hfirst (n : Nat) : ∀ l ∈ order.take n, ∀ x, l.Mentions x → Limited body x := by
    induction n with
    | zero => exact fun l hl => absurd hl List.not_mem_nil
    | succ n ih =>
        intro l hl x hx
        rw [List.take_add_one, List.mem_append] at hl
        rcases hl with hearlier | hnext
        · exact ih l hearlier x hx
        have hget : order[n]? = some l := Option.mem_toList.1 hnext
        obtain ⟨hn, rfl⟩ := List.getElem?_eq_some_iff.1 hget
        have hsplit : order = order.take n ++ order[n] :: order.drop (n + 1) := by
          rw [← List.drop_eq_getElem_cons hn, List.take_append_drop]
        have hrequired : ∀ y, order[n].Requires y → Limited body y := by
          intro y hy
          obtain ⟨m, hm, hmy⟩ := h _ _ _ hsplit y hy
          exact ih m hm y hmy
        cases hnegated : order[n].negated with
        | true =>
            apply hrequired x
            rwa [Literal.Requires, if_pos hnegated]
        | false =>
            exact .of_requires (hsub (List.getElem_mem hn)) hnegated hrequired hx
  have hall := hfirst order.length
  rwa [List.take_length] at hall

/-- Once no literal that is left can be read, all limited variables have been bound. -/
theorem Limited.mem_arrange {taken : List Nat} (hx : Limited body x)
    (hdone : ∀ k < body.length, Readable body taken k → k ∈ taken) :
    ∃ m ∈ arrange body taken, m.Mentions x := by
  -- a literal whose required variables have been bound has been taken
  have htaken {l : Literal} (hl : l ∈ body)
      (hrequired : ∀ y, l.Requires y → ∃ m ∈ arrange body taken, m.Mentions y) :
      l ∈ arrange body taken := by
    obtain ⟨k, hk, rfl⟩ := List.mem_iff_getElem.1 hl
    have hget : body[k]? = some body[k] := List.getElem?_eq_getElem hk
    refine DatalogPolicy.mem_arrange.2 ⟨k, hdone k hk ?_, hget⟩
    intro l hl
    cases hget.symm.trans hl
    exact hrequired
  induction hx with
  | stored hl hpositive hstored hx =>
      refine ⟨_, htaken hl fun y hy => ?_, hx⟩
      obtain ⟨b, hb, -⟩ := (Literal.requires_of_positive hpositive).1 hy
      exact absurd hb (hstored b)
  | computed hl hpositive hb _ hx ih =>
      refine ⟨_, htaken hl fun y hy => ?_, hx⟩
      obtain ⟨b', hb', hy⟩ := (Literal.requires_of_positive hpositive).1 hy
      have heq := hb.2.2.1.symm.trans hb'.2.2.1
      cases heq
      exact ih y hy

/-- A body has a safe order just when all its variables are limited. -/
theorem exists_isSafePermutation_iff : (∃ p, IsSafePermutation body p) ↔
    ∀ l ∈ body, ∀ x, l.Mentions x → Limited body x := by
  constructor
  · rintro ⟨p, hperm, hsafe⟩ l hl
    have hall := arrange_perm hperm
    exact hsafe.limited hall.subset l (hall.mem_iff.2 hl)
  · intro hlimited
    obtain ⟨taken, left, htracks, hcovers, hsettled⟩ := Schedule.tracks_ofBody body
    have hdone : ∀ k < body.length, Readable body taken k → k ∈ taken := by
      intro k hk hread
      by_contra hnew
      obtain ⟨e, he, rfl⟩ := hcovers.mem_or hk hnew
      exact hsettled e he hread
    cases left with
    | nil =>
        rw [Schedule.Covers, List.map_nil, List.append_nil] at hcovers
        exact ⟨taken, hcovers, htracks.greedy.isSafeOrder⟩
    | cons e rest =>
        have hget := htracks.left_get e List.mem_cons_self
        refine absurd ?_ (hsettled e List.mem_cons_self)
        intro l hl x hx
        cases hget.symm.trans hl
        have hl := List.mem_of_getElem? hget
        exact (hlimited _ hl x (Literal.mentions_of_requires hx)).mem_arrange hdone

end Bodies

section Variables

variable {x : String}

/-- Collecting variables keeps their names. -/
theorem exists_mem_ofList_item {vs : List (Located String)} :
    (∃ v ∈ OrderedList.ofList (compareOn (·.item)) vs, v.item = x) ↔ ∃ v ∈ vs, v.item = x := by
  constructor
  · rintro ⟨v, hv, hx⟩
    exact ⟨v, OrderedList.mem_of_mem_ofList hv, hx⟩
  · rintro ⟨v, hv, rfl⟩
    obtain ⟨w, hw, heq⟩ : ∃ w ∈ OrderedList.ofList (compareOn (·.item)) vs,
        compareOn (·.item) v w = .eq := OrderedList.exists_mem_ofList hv
    exact ⟨w, hw, (Std.LawfulEqOrd.eq_of_compare heq).symm⟩

theorem Term.varName?_eq_some_iff {t : Term} : t.varName? = some x ↔ t = .var x := by
  cases t with
  | var y => exact ⟨fun h => congrArg Term.var (Option.some.inj h), congrArg Term.varName?⟩
  | const v => exact iff_of_false nofun nofun

theorem Literal.exists_mem_vars {l : Literal} : (∃ v ∈ l.vars, v.item = x) ↔ l.Mentions x := by
  rw [vars, exists_mem_ofList_item, Mentions]
  constructor
  · rintro ⟨v, hv, rfl⟩
    obtain ⟨a, ha, hav⟩ := List.mem_filterMap.1 hv
    obtain ⟨y, hy, rfl⟩ := Option.map_eq_some_iff.1 hav
    exact ⟨a, ha, Term.varName?_eq_some_iff.1 hy⟩
  · rintro ⟨a, ha, hax⟩
    refine ⟨⟨x, a.location⟩, List.mem_filterMap.2 ⟨a, ha, ?_⟩, rfl⟩
    rw [Term.varName?_eq_some_iff.2 hax]
    rfl

end Variables

namespace Rule

theorem exists_mem_variablesOf {ls : List Literal} {x : String} :
    (∃ v ∈ variablesOf ls, v.item = x) ↔ ∃ l ∈ ls, l.Mentions x := by
  rw [variablesOf, exists_mem_ofList_item]
  constructor
  · rintro ⟨v, hv, hx⟩
    obtain ⟨l, hl, hv⟩ := List.mem_flatMap.1 hv
    exact ⟨l, hl, Literal.exists_mem_vars.1 ⟨v, hv, hx⟩⟩
  · rintro ⟨l, hl, hx⟩
    obtain ⟨v, hv, hx⟩ := Literal.exists_mem_vars.2 hx
    exact ⟨v, List.mem_flatMap.2 ⟨l, hl, hv⟩, hx⟩

/-- The heads have no fault when the body has all their variables. -/
theorem headErrors_eq_nil_iff {r : Rule} : r.headErrors = [] ↔
    ∀ l ∈ r.heads, ∀ x, l.Mentions x → ∃ m ∈ r.body, m.Mentions x := by
  have hbound (x : String) : x ∈ r.body.flatMap (·.variableNames) ↔ ∃ m ∈ r.body, m.Mentions x := by
    simp only [List.mem_flatMap, Literal.mem_variableNames]
  simp only [headErrors, List.map_eq_nil_iff, List.filter_eq_nil_iff, decide_eq_true_eq, not_not,
    hbound]
  constructor
  · intro h l hl x hx
    obtain ⟨v, hv, rfl⟩ := exists_mem_variablesOf.2 ⟨l, hl, hx⟩
    exact h v hv
  · intro h v hv
    obtain ⟨l, hl, hx⟩ := exists_mem_variablesOf.1 ⟨v, hv, rfl⟩
    exact h l hl v.item hx

/-- The body has no fault when it has a safe order. -/
theorem bodyErrors_eq_nil_iff {r : Rule} :
    r.bodyErrors = [] ↔ ∃ p, IsSafePermutation r.body p := by
  rcases r.reorder_cases with ⟨p, hp, hok⟩ | ⟨hnone, e, herror⟩
  · exact iff_of_true (by rw [bodyErrors, hok]) ⟨p, hp.1⟩
  · refine iff_of_false ?_ hnone
    rw [bodyErrors, herror]
    exact List.cons_ne_nil _ _

/-- The checks of the heads and of the body find no fault just when every variable of the rule is
limited. -/
theorem safetyErrors_eq_nil_iff (r : Rule) : r.headErrors = [] ∧ r.bodyErrors = [] ↔
    ∀ l ∈ r.heads ++ r.body, ∀ x, l.Mentions x → Limited r.body x := by
  rw [headErrors_eq_nil_iff, bodyErrors_eq_nil_iff, exists_isSafePermutation_iff,
    List.forall_mem_append]
  constructor
  · rintro ⟨hheads, hbody⟩
    refine ⟨fun l hl x hx => ?_, hbody⟩
    obtain ⟨m, hm, hmx⟩ := hheads l hl x hx
    exact hbody m hm x hmx
  · rintro ⟨hheads, hbody⟩
    refine ⟨fun l hl x hx => ?_, hbody⟩
    -- what is limited stands in a literal that limits it
    cases hheads l hl x hx with
    | stored hm _ _ hmx => exact ⟨_, hm, hmx⟩
    | computed hm _ _ _ hmx => exact ⟨_, hm, hmx⟩

end Rule

end DatalogPolicy

import DatalogPolicy.Proofs.Dependency.Contribution
import DatalogPolicy.Proofs.Formula.LawfulOrder
import DatalogPolicy.Proofs.Safety.RangeRestriction

/-!
# Checks of equal formulas

Equal rules say the same in their heads and in their bodies, in any order. Whether a body has a
safe order only depends on the variables that it limits, and these are the same for bodies that
say alike, although the schedules meet their literals in different orders. The other checks look
at single literals, and what they count is the same for literals that say the same. Equal
formulas therefore have equally many faults.
-/

namespace DatalogPolicy

namespace Literal

variable {l : Literal} {x : String}

theorem mentions_iff : l.Mentions x ↔ Term.var x ∈ l.content.arguments := List.mem_map.symm

theorem isInput_iff {b : Builtin} :
    l.IsInput b x ↔ Term.var x ∈ l.content.arguments.take b.inputs := by
  rw [content, ← List.map_take]
  exact List.mem_map.symm

theorem isGround_eq : l.isGround = l.content.arguments.all Term.isConst := by
  rw [isGround, content, List.all_map]
  rfl

theorem OfContent.width : OfContent (·.arguments.length) := by
  intro a b h
  have hlength := congrArg (fun c => c.arguments.length) h
  rwa [content, content, List.length_map, List.length_map] at hlength

section SameContent

variable {a b : Literal} (h : a.content = b.content)

include h

theorem mentions_congr : a.Mentions x ↔ b.Mentions x := by rw [mentions_iff, mentions_iff, h]

theorem isInput_congr {builtin : Builtin} : a.IsInput builtin x ↔ b.IsInput builtin x := by
  rw [isInput_iff, isInput_iff, h]

theorem isComputedBy_congr {builtin : Builtin} :
    a.IsComputedBy builtin ↔ b.IsComputedBy builtin := by
  have hwidth : a.arguments.length = b.arguments.length := OfContent.width a b h
  rw [IsComputedBy, IsComputedBy, OfContent.table a b h, hwidth]

theorem requires_congr {x : String} : a.Requires x ↔ b.Requires x := by
  have hnegated : a.negated = b.negated := OfContent.negated a b h
  cases hb : b.negated with
  | true =>
      rw [Requires, Requires, if_pos (hnegated.trans hb), if_pos hb]
      exact mentions_congr h
  | false =>
      rw [requires_of_positive (hnegated.trans hb), requires_of_positive hb]
      simp only [isComputedBy_congr h, isInput_congr h]

theorem schemaErrors_length (theories : Option Theories) (theory : Option String) :
    (a.schemaErrors theories theory).length = (b.schemaErrors theories theory).length := by
  have hwidth : a.arguments.length = b.arguments.length := OfContent.width a b h
  simp only [schemaErrors, OfContent.table a b h, hwidth]
  repeat' split
  all_goals rfl

theorem theoryErrors_length : a.theoryErrors.length = b.theoryErrors.length := by
  rw [theoryErrors, theoryErrors, OfContent.table a b h]
  cases b.table.service <;> rfl

theorem factErrors_length (theories : Option Theories) (theory : Option String) :
    (a.factErrors theories theory).length = (b.factErrors theories theory).length := by
  have hground : a.isGround = b.isGround := by rw [isGround_eq, isGround_eq, h]
  simp only [factErrors, List.length_append, schemaErrors_length h, theoryErrors_length h, hground,
    OfContent.negated a b h]
  congr 3 <;> split <;> rfl

end SameContent

end Literal

/-- What a body limits is limited by every body that says at least the same. -/
theorem Limited.of_content {body other : List Literal} {x : String} (hx : Limited body x)
    (h : ∀ l ∈ body, ∃ m ∈ other, m.content = l.content) : Limited other x := by
  induction hx with
  | stored hl hpositive hstored hx =>
      obtain ⟨m, hm, hsame⟩ := h _ hl
      refine .stored hm ?_ (fun b hb => hstored b ?_) ((Literal.mentions_congr hsame).2 hx)
      · rw [Literal.OfContent.negated m _ hsame, hpositive]
      · exact (Literal.isComputedBy_congr hsame).1 hb
  | computed hl hpositive hb _ hx ih =>
      obtain ⟨m, hm, hsame⟩ := h _ hl
      refine .computed hm ?_ ((Literal.isComputedBy_congr hsame).2 hb) (fun y hy => ih y ?_)
        ((Literal.mentions_congr hsame).2 hx)
      · rw [Literal.OfContent.negated m _ hsame, hpositive]
      · exact (Literal.isInput_congr hsame).1 hy

theorem Limited.mono {body other : List Literal} {x : String} (hx : Limited body x)
    (h : body ⊆ other) : Limited other x :=
  hx.of_content fun l hl => ⟨l, h hl, rfl⟩

/-- Bodies that say alike limit the same variables. -/
theorem limited_congr {body other : List Literal} {x : String} (h : Literal.SayAlike body other) :
    Limited body x ↔ Limited other x :=
  ⟨fun hx => hx.of_content fun _ => h.exists_mem, fun hx => hx.of_content fun _ => h.symm.exists_mem⟩

/-- Of two bodies that say alike, both have a safe order or neither has. -/
theorem exists_isSafePermutation_congr {body other : List Literal}
    (h : Literal.SayAlike body other) :
    (∃ p, IsSafePermutation body p) ↔ ∃ p, IsSafePermutation other p := by
  have hstep {body other : List Literal} (h : Literal.SayAlike body other)
      (hbody : ∀ l ∈ body, ∀ x, l.Mentions x → Limited body x) :
      ∀ l ∈ other, ∀ x, l.Mentions x → Limited other x := by
    intro l hl x hx
    obtain ⟨m, hm, hsame⟩ := h.symm.exists_mem hl
    exact (limited_congr h).1 (hbody m hm x ((Literal.mentions_congr hsame).2 hx))
  rw [exists_isSafePermutation_iff, exists_isSafePermutation_iff]
  exact ⟨hstep h, hstep h.symm⟩

namespace Rule

variable {r s : Rule}

/-- Reordering succeeds exactly if there is a safe order. -/
theorem exists_reorder_iff : (∃ r', r.reorder = .ok r') ↔ ∃ p, IsSafePermutation r.body p := by
  rcases r.reorder_cases with ⟨p, hp, hok⟩ | ⟨hnone, e, herror⟩
  · exact iff_of_true ⟨_, hok⟩ ⟨p, hp.1⟩
  · refine iff_of_false ?_ hnone
    rintro ⟨r', hok⟩
    exact nomatch herror.symm.trans hok

/-- The names of the variables of some literals stand in increasing order. -/
theorem map_item_variablesOf (ls : List Literal) :
    (variablesOf ls).map (·.item) = OrderedList.ofTexts (ls.flatMap (·.variableNames)) := by
  have hvars : OrderedList.Increasing (compareOn Located.item) (variablesOf ls) :=
    OrderedList.increasing_ofList _
  have hsorted : OrderedList.Increasing compare ((variablesOf ls).map (·.item)) :=
    List.pairwise_map.2 hvars
  apply hsorted.ext (OrderedList.increasing_ofList _)
  intro x
  have hmem : x ∈ ls.flatMap (·.variableNames) ↔ ∃ l ∈ ls, l.Mentions x := by
    simp only [List.mem_flatMap, Literal.mem_variableNames]
  rw [List.mem_map, exists_mem_variablesOf, ← hmem]
  exact OrderedList.mem_ofTexts.symm

theorem mem_names_congr {xs ys : List Literal} {x : String} (h : Literal.SayAlike xs ys) :
    x ∈ xs.flatMap (·.variableNames) ↔ x ∈ ys.flatMap (·.variableNames) := by
  have hstep {xs ys : List Literal} (h : Literal.SayAlike xs ys)
      (hx : ∃ l ∈ xs, l.Mentions x) : ∃ l ∈ ys, l.Mentions x := by
    obtain ⟨l, hl, hx⟩ := hx
    obtain ⟨m, hm, hsame⟩ := h.exists_mem hl
    exact ⟨m, hm, (Literal.mentions_congr hsame).2 hx⟩
  simp only [List.mem_flatMap, Literal.mem_variableNames]
  exact ⟨hstep h, hstep h.symm⟩

/-- There is a fault for each name among the heads that is not among the body. -/
theorem length_headErrors : r.headErrors.length =
    (OrderedList.ofTexts (r.heads.flatMap (·.variableNames))).countP
      (· ∉ r.body.flatMap (·.variableNames)) := by
  rw [headErrors, List.length_map, ← map_item_variablesOf, List.countP_map,
    List.countP_eq_length_filter]
  rfl

theorem isSome_modalErrors?_ofContent (permitted : List String) :
    Literal.OfContent fun l => (modalErrors? permitted l).isSome := by
  intro a b hab
  simp only [modalErrors?, Literal.OfContent.table a b hab]
  cases b.table.modal with
  | none => rfl
  | some modal =>
      simp only [Option.bind_some]
      split <;> rfl

section Equal

variable (h : (r == s) = true)

include h

theorem headErrors_length : r.headErrors.length = s.headErrors.length := by
  rw [length_headErrors, length_headErrors,
    OrderedList.ofTexts_congr fun _ => mem_names_congr (heads_sayAlike h)]
  simp only [mem_names_congr (body_sayAlike h)]

theorem bodyErrors_length : r.bodyErrors.length = s.bodyErrors.length := by
  have hok := exists_isSafePermutation_congr (body_sayAlike h)
  rw [← exists_reorder_iff, ← exists_reorder_iff] at hok
  rw [bodyErrors, bodyErrors]
  cases hr : r.reorder with
  | ok r' =>
      obtain ⟨s', hs⟩ := hok.1 ⟨r', hr⟩
      rw [hs]
  | error e =>
      cases hs : s.reorder with
      | ok s' =>
          obtain ⟨r', hr'⟩ := hok.2 ⟨s', hs⟩
          cases hr.symm.trans hr'
      | error e' => rfl

theorem schemaErrors_length (theories : Option Theories) (theory : Option String) :
    (r.schemaErrors theories theory).length = (s.schemaErrors theories theory).length := by
  rw [schemaErrors, schemaErrors, List.length_flatMap, List.length_flatMap]
  apply List.Perm.sum_nat
  apply (body_sayAlike h).map_perm
  intro a b hab
  exact Literal.schemaErrors_length hab theories theory

/-- There is a fault for each head over a table with a service that is not permitted. -/
theorem theoryErrors_length {permitted : Literal → Bool} (hp : Literal.OfContent permitted) :
    (r.theoryErrors permitted).length = (s.theoryErrors permitted).length := by
  rw [theoryErrors, theoryErrors, List.length_map, List.length_map,
    ← List.countP_eq_length_filter, ← List.countP_eq_length_filter]
  apply (heads_sayAlike h).countP_eq
  intro a b hab
  simp only [Literal.OfContent.table a b hab, hp a b hab]

theorem modalErrors_length (permitted : List String) :
    (r.modalErrors permitted).length = (s.modalErrors permitted).length := by
  have hheads := (heads_sayAlike h).countP_eq (isSome_modalErrors?_ofContent permitted)
  have hmodal : Literal.OfContent (·.table.modal.isSome) := fun a b hab =>
    congrArg (·.modal.isSome) (Literal.OfContent.table a b hab)
  have hany := (heads_sayAlike h).any_eq hmodal
  have hwidth : r.heads.length = s.heads.length := (heads_sayAlike h).length_eq
  have hbody := (body_sayAlike h).countP_eq hmodal
  simp only [modalErrors, List.length_append, List.length_filterMap_eq_countP, hheads, hany, hwidth,
    Option.isSome_map, hbody]
  congr 2
  split <;> rfl

end Equal

end Rule

namespace Formula

/-- Two formulas are analysed alike: they contribute the same to dependency graphs, the bodies of
both can be reordered or neither can, and each checker finds equally many faults in them. -/
structure AnalysedAlike (f g : Formula) : Prop where
  contribution_eq (headToBody : Bool) (theory : Option String) :
    DependencyGraph.contribution headToBody {} theory f =
      DependencyGraph.contribution headToBody {} theory g
  reorder_iff : ∀ r ∈ f.rule?, ∀ s ∈ g.rule?,
    (∃ r', r.reorder = .ok r') ↔ ∃ s', s.reorder = .ok s'
  length_errors (c : Checker) : (c.formulaErrors f).length = (c.formulaErrors g).length

theorem eq_rule_of_mem {f : Formula} {r : Rule} (h : r ∈ f.rule?) : f = .rule r := by
  cases f with
  | literal l => exact absurd h (Option.not_mem_none r)
  | rule r' => exact congrArg Formula.rule (Option.some.inj h)

/-- Equal formulas are analysed alike. -/
theorem analysedAlike_of_beq {f g : Formula} (h : (f == g) = true) : f.AnalysedAlike g where
  contribution_eq headToBody _ :=
    DependencyGraph.contribution_congr headToBody (Selection.respects_default true) h
  reorder_iff r hr s hs := by
    obtain rfl := eq_rule_of_mem hr
    obtain rfl := eq_rule_of_mem hs
    rw [Rule.exists_reorder_iff, Rule.exists_reorder_iff]
    exact exists_isSafePermutation_congr (Rule.body_sayAlike h)
  length_errors c := by
    cases f with
    | literal a =>
        cases g with
        | literal b => exact Literal.factErrors_length (Literal.beq_iff.1 h) c.theories c.theory
        | rule s => exact absurd h Bool.false_ne_true
    | rule r =>
        cases g with
        | literal b => exact absurd h Bool.false_ne_true
        | rule s =>
            have htheory : (r.theoryErrors fun _ => false).length =
                (s.theoryErrors fun _ => false).length :=
              Rule.theoryErrors_length h fun _ _ _ => rfl
            simp only [Checker.formulaErrors, Checker.ruleErrors, List.length_append,
              Rule.headErrors_length h, Rule.bodyErrors_length h, htheory,
              Rule.schemaErrors_length h c.theories c.theory, Rule.modalErrors_length h c.modals]

/-- The rule `p(x), r(y) :- not q(x), s(x)`, in which the first literal of the body has to wait. -/
def waitingRule : Formula :=
  .rule {
    heads := [
      { table := { table := "p" }, arguments := [⟨.var "x", none⟩] },
      { table := { table := "r" }, arguments := [⟨.var "y", none⟩] }]
    body := [
      { table := { table := "q" }, arguments := [⟨.var "x", none⟩], negated := true },
      { table := { table := "s" }, arguments := [⟨.var "x", none⟩] }]
    heads_ne := List.cons_ne_nil _ _ }

/-- The rule `r(y), p(x) :- s(x), not q(x)`, in which no literal has to wait. -/
def readyRule : Formula :=
  .rule {
    heads := [
      { table := { table := "r" }, arguments := [⟨.var "y", none⟩] },
      { table := { table := "p" }, arguments := [⟨.var "x", none⟩] }]
    body := [
      { table := { table := "s" }, arguments := [⟨.var "x", none⟩] },
      { table := { table := "q" }, arguments := [⟨.var "x", none⟩], negated := true }]
    heads_ne := List.cons_ne_nil _ _ }

theorem analysedAlike_waitingRule :
    (waitingRule == readyRule) = true ∧ waitingRule.AnalysedAlike readyRule :=
  have h : (waitingRule == readyRule) = true :=
    Rule.beq_iff_sayAlike.2 ⟨List.Perm.swap _ _ [], List.Perm.swap _ _ []⟩
  ⟨h, analysedAlike_of_beq h⟩

end Formula

end DatalogPolicy

import DatalogPolicy.Proofs.Safety.RangeRestriction

/-!
# Accepted formulas

Each check is exact: it finds no fault just when what it looks for is in order. Together they
say which formulas are accepted, and so how far an accepted formula is well-formed. A fact may
still have any modal, and the heads of a rule may still be negated; nothing else is missing.
-/

namespace DatalogPolicy

namespace Literal

variable {l : Literal} {theories : Option Theories} {theory : Option String}

/-- A literal agrees with the schema of its service, or of `theory` if it has none: a complete
schema has its table, and where the table has columns there is an argument for each. -/
def Conforms (theories : Option Theories) (theory : Option String) (l : Literal) : Prop :=
  ∀ schemas ∈ theories, ∀ active ∈ l.table.service.or theory, ∀ schema ∈ schemas[active]?,
    (schema.complete = true → schema.columns? l.table.table ≠ none) ∧
      ∀ columns ∈ schema.columns? l.table.table,
        columns ≠ [] → l.arguments.length = columns.length

/-- A modal of the literal is one of the permitted ones, up to the case of the letters from A to
Z. -/
def UsesPermitted (modals : List String) (l : Literal) : Prop :=
  ∀ modal ∈ l.table.modal, ∃ permitted ∈ modals,
    permitted.toList.map Char.toLower = modal.toList.map Char.toLower

theorem schemaErrors_eq_nil_iff :
    l.schemaErrors theories theory = [] ↔ l.Conforms theories theory := by
  rcases theories with _ | schemas
  · exact iff_of_true rfl nofun
  rcases hactive : l.table.service.or theory with _ | active
  · simp [schemaErrors, Conforms, hactive]
  rcases hschema : schemas[active]? with _ | schema
  · simp [schemaErrors, Conforms, hactive, hschema]
  rcases hcolumns : schema.columns? l.table.table with _ | columns
  · simp [schemaErrors, Conforms, Schema.arity?, hactive, hschema, hcolumns]
  · simp [schemaErrors, Conforms, Schema.arity?, hactive, hschema, hcolumns, List.length_pos_iff]

theorem theoryErrors_eq_nil_iff : l.theoryErrors = [] ↔ l.table.service = none := by
  rw [theoryErrors]
  cases l.table.service with
  | none => exact iff_of_true rfl rfl
  | some service => exact iff_of_false (List.cons_ne_nil _ _) nofun

theorem isGround_iff : l.isGround = true ↔ ∀ x, ¬ l.Mentions x := by
  have hconst (t : Term) : t.isConst = true ↔ ∀ x, t ≠ .var x := by
    cases t with
    | var x => exact iff_of_false Bool.false_ne_true fun h => h x rfl
    | const v => exact iff_of_true rfl nofun
  simp only [isGround, List.all_eq_true, hconst, Mentions, not_exists, not_and]
  exact ⟨fun h x a ha => h a ha x, fun h a ha x => h x a ha⟩

theorem factErrors_eq_nil_iff : l.factErrors theories theory = [] ↔
    l.negated = false ∧ (∀ x, ¬ l.Mentions x) ∧ l.Conforms theories theory ∧
      l.table.service = none := by
  rw [← isGround_iff, ← schemaErrors_eq_nil_iff, ← theoryErrors_eq_nil_iff]
  simp [factErrors]

end Literal

namespace Rule

variable {r : Rule} {modals : List String}

theorem schemaErrors_eq_nil_iff {theories : Option Theories} {theory : Option String} :
    r.schemaErrors theories theory = [] ↔ ∀ l ∈ r.body, l.Conforms theories theory := by
  simp only [schemaErrors, List.flatMap_eq_nil_iff, Literal.schemaErrors_eq_nil_iff]

theorem theoryErrors_eq_nil_iff {permitted : Literal → Bool} : r.theoryErrors permitted = [] ↔
    ∀ l ∈ r.heads, l.table.modal = none → permitted l = false → l.table.service = none := by
  simp only [theoryErrors, List.map_eq_nil_iff, List.filter_eq_nil_iff]
  refine forall₂_congr fun l _ => ?_
  cases l.table.service <;> cases l.table.modal <;> cases permitted l <;> simp

theorem modalErrors?_eq_none_iff {l : Literal} :
    modalErrors? modals l = none ↔ l.UsesPermitted modals := by
  rw [modalErrors?, Literal.UsesPermitted]
  cases l.table.modal with
  | none => exact iff_of_true rfl nofun
  | some modal => simp [sameLetters]

/-- A head with a modal stands alone when it has no other heads beside it. -/
theorem modalAmongHeads_eq_false_iff :
    (r.heads.any (·.table.modal.isSome) && 1 < r.heads.length) = false ↔
      ∀ l ∈ r.heads, l.table.modal ≠ none → r.heads = [l] := by
  constructor
  · intro h l hl hmodal
    have hany : r.heads.any (·.table.modal.isSome) = true :=
      List.any_eq_true.2 ⟨l, hl, Option.isSome_iff_ne_none.2 hmodal⟩
    rw [hany, Bool.true_and, decide_eq_false_iff_not, not_lt] at h
    obtain ⟨m, hm⟩ := List.length_eq_one_iff.1 (h.antisymm (List.length_pos_iff.2 r.heads_ne))
    rw [hm, List.mem_singleton] at hl
    rw [hm, hl]
  · intro h
    rw [Bool.eq_false_iff, ne_eq, Bool.and_eq_true, not_and]
    intro hany
    obtain ⟨l, hl, hmodal⟩ := List.any_eq_true.1 hany
    rw [h l hl (Option.isSome_iff_ne_none.1 hmodal)]
    exact Bool.false_ne_true

theorem modalErrors_eq_nil_iff : r.modalErrors modals = [] ↔
    (∀ l ∈ r.heads, l.UsesPermitted modals) ∧
      (∀ l ∈ r.heads, l.table.modal ≠ none → r.heads = [l]) ∧
      ∀ l ∈ r.body, l.table.modal = none := by
  simp only [modalErrors, List.append_eq_nil_iff, List.filterMap_eq_nil_iff,
    modalErrors?_eq_none_iff, ite_eq_right_iff, List.cons_ne_nil, imp_false, Bool.not_eq_true,
    modalAmongHeads_eq_false_iff, Option.map_eq_none_iff, and_assoc]

end Rule

/-- The formulas that a checker accepts. -/
inductive Checker.Admits (c : Checker) : Formula → Prop
  | fact {l : Literal} (positive : l.negated = false) (ground : ∀ x, ¬ l.Mentions x)
      (conforms : l.Conforms c.theories c.theory) (noService : l.table.service = none) :
      Admits c (.literal l)
  | rule {r : Rule} (bound : ∀ l ∈ r.heads, ∀ x, l.Mentions x → ∃ m ∈ r.body, m.Mentions x)
      (order : ∃ p, IsSafePermutation r.body p)
      (conforms : ∀ l ∈ r.body, l.Conforms c.theories c.theory)
      (noService : ∀ l ∈ r.heads, l.table.modal = none → l.table.service = none)
      (permitted : ∀ l ∈ r.heads, l.UsesPermitted c.modals)
      (alone : ∀ l ∈ r.heads, l.table.modal ≠ none → r.heads = [l])
      (noModal : ∀ l ∈ r.body, l.table.modal = none) : Admits c (.rule r)

/-- No fault is found in the formulas that are accepted, and in no others. -/
theorem Checker.formulaErrors_eq_nil_iff {c : Checker} {f : Formula} :
    c.formulaErrors f = [] ↔ c.Admits f := by
  cases f with
  | literal l =>
      rw [formulaErrors, Literal.factErrors_eq_nil_iff]
      constructor
      · rintro ⟨positive, ground, conforms, noService⟩
        exact .fact positive ground conforms noService
      · rintro ⟨positive, ground, conforms, noService⟩
        exact ⟨positive, ground, conforms, noService⟩
  | rule r =>
      simp only [formulaErrors, ruleErrors, List.append_eq_nil_iff, Rule.headErrors_eq_nil_iff,
        Rule.bodyErrors_eq_nil_iff, Rule.schemaErrors_eq_nil_iff, Rule.theoryErrors_eq_nil_iff,
        Rule.modalErrors_eq_nil_iff, forall_const]
      constructor
      · rintro ⟨⟨⟨⟨bound, order⟩, conforms⟩, noService⟩, permitted, alone, noModal⟩
        exact .rule bound order conforms noService permitted alone noModal
      · rintro (_ | ⟨bound, order, conforms, noService, permitted, alone, noModal⟩)
        exact ⟨⟨⟨⟨bound, order⟩, conforms⟩, noService⟩, permitted, alone, noModal⟩

namespace Formula

/-- What a formula states: the literal itself, or the heads of the rule. -/
def stated : Formula → List Literal
  | .literal l => [l]
  | .rule r => r.heads

/-- What a formula depends on: nothing, or the body of the rule. -/
def premises : Formula → List Literal
  | .literal _ => []
  | .rule r => r.body

/-- A formula is extended Datalog, its body is without modals, and its other modals are
permitted. -/
structure IsWellFormed (modals : List String) (f : Formula) : Prop where
  extended : f.isExtendedDatalog = true
  premises : ∀ l ∈ f.premises, l.table.modal = none
  stated : ∀ l ∈ f.stated, l.UsesPermitted modals

/-- What no check looks at: the modal of a fact and the negation of a head. -/
def MeetsUnchecked (modals : List String) : Formula → Prop
  | .literal l => l.UsesPermitted modals
  | .rule r => ∀ l ∈ r.heads, l.negated = false

end Formula

/-- An accepted formula is well-formed just when it is so in what no check looks at. -/
theorem Checker.isWellFormed_iff_of_accepted {c : Checker} {f : Formula}
    (h : c.formulaErrors f = []) : f.IsWellFormed c.modals ↔ f.MeetsUnchecked c.modals := by
  cases formulaErrors_eq_nil_iff.1 h with
  | @fact l positive =>
      constructor
      · intro hwell
        exact hwell.stated l List.mem_cons_self
      · intro hpermitted
        refine ⟨?_, fun m hm => absurd hm List.not_mem_nil, fun m hm => ?_⟩
        · simp [Formula.isExtendedDatalog, Formula.isAtom, Literal.isAtom, positive]
        · rwa [List.mem_singleton.1 hm]
  | @rule r _ _ _ _ permitted _ noModal =>
      have hextended : (Formula.rule r).isExtendedDatalog = true ↔
          ∀ l ∈ r.heads, l.negated = false := by
        simp [Formula.isExtendedDatalog, Formula.isAtom, Formula.isRule, Literal.isAtom]
      exact ⟨fun hwell => hextended.1 hwell.extended,
        fun hpositive => ⟨hextended.2 hpositive, noModal, permitted⟩⟩

/-- The rule `execute[p(x)] :- q(x)`. -/
def actionRule : Formula :=
  .rule {
    heads := [{
      table := { modal := some "execute", table := "p" }
      arguments := [⟨.var "x", none⟩] }]
    body := [{ table := { table := "q" }, arguments := [⟨.var "x", none⟩] }]
    heads_ne := List.cons_ne_nil _ _ }

theorem Checker.isWellFormed_actionRule :
    ({ modals := ["Execute"] } : Checker).formulaErrors actionRule = [] ∧
      actionRule.IsWellFormed ["Execute"] :=
  ⟨by decide +kernel,
    (isWellFormed_iff_of_accepted (c := { modals := ["Execute"] }) (by decide +kernel)).2
      (by simp [Formula.MeetsUnchecked, actionRule])⟩

/-- The rule `not p(x) :- q(x)`. -/
def negatedHead : Formula :=
  .rule {
    heads := [{ table := { table := "p" }, arguments := [⟨.var "x", none⟩], negated := true }]
    body := [{ table := { table := "q" }, arguments := [⟨.var "x", none⟩] }]
    heads_ne := List.cons_ne_nil _ _ }

/-- The fact `insert[p(1)]`. -/
def markedFact : Formula :=
  .literal {
    table := { modal := some "insert", table := "p" }
    arguments := [⟨.const (.int 1), none⟩] }

/-- A rule with a negated head is accepted, and so is a fact with a modal that is not permitted. -/
theorem Checker.accepts_negatedHead_markedFact :
    (({} : Checker).formulaErrors negatedHead = [] ∧ ¬ negatedHead.IsWellFormed ["execute"]) ∧
      ({} : Checker).formulaErrors markedFact = [] ∧ ¬ markedFact.IsWellFormed ["execute"] := by
  refine ⟨⟨by decide +kernel, fun h => ?_⟩, by decide +kernel, fun h => ?_⟩
  · exact absurd h.extended (by decide)
  · obtain ⟨permitted, hpermitted, heq⟩ := h.stated _ List.mem_cons_self "insert" rfl
    rw [List.mem_singleton.1 hpermitted] at heq
    exact absurd heq (by decide)

end DatalogPolicy

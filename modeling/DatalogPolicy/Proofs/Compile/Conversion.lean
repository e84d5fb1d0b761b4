import DatalogPolicy.Proofs.Compile.Printability
import DatalogPolicy.Proofs.Number.Numeral
import DatalogPolicy.Proofs.Token.Quoted
import Mathlib.Data.List.Forall2

/-!
# Every statement gives its formula

Each statement of a source is compiled to one formula with the literals that it has, whatever
is wrong with them. What may be wrong is a reference to a column or an escape: every numeral
has a value, no text ends within an escape, and every rule has a head.
-/

namespace DatalogPolicy

namespace Compile

section Shapes

/-- A compiled literal has the table, the negation and the place of the one that is written. -/
structure IsCompiled (settings : Settings) (source : Source) (l : Surface.Literal)
    (compiled : Literal) : Prop where
  table : compiled.table = { TableName.ofText settings.modules l.atom.relation.text with
    modal := l.modal.map (·.name.text) }
  negated : compiled.negated = l.negation.isSome
  location : compiled.location = some (source.lines.position (.ofNat l.atom.span.start))

/-- A formula of the kind of its statement, with a literal for each one that is written. -/
inductive HasShape (settings : Settings) (source : Source) : Surface.Statement → Formula → Prop
  | fact {l compiled} (h : IsCompiled settings source l compiled) :
      HasShape settings source (.fact l) (.literal compiled)
  | rule {head heads first body} {r : Rule}
      (hheads : List.Forall₂ (IsCompiled settings source) (head :: heads) r.heads)
      (hbody : List.Forall₂ (IsCompiled settings source) (first :: body) r.body) :
      HasShape settings source (.rule head heads first body) (.rule r)

variable (settings : Settings) (source : Source)

theorem isCompiled_literal (index : Nat) (stem : String) (l : Surface.Literal) :
    IsCompiled settings source l (literal settings ⟨source.lines, index, stem⟩ l).value :=
  ⟨rfl, rfl, rfl⟩

theorem literals_cons (stem : String) (index : Nat) (l : Surface.Literal)
    (ls : List Surface.Literal) :
    literals settings source stem index (l :: ls) =
      literal settings ⟨source.lines, index, stem⟩ l ::
        literals settings source stem (index + 1) ls := by
  rw [literals, List.mapIdx_cons, Nat.add_zero, literals]
  simp only [Nat.add_assoc, Nat.add_comm 1]

theorem forall₂_literals (stem : String) (index : Nat) (ls : List Surface.Literal) :
    List.Forall₂ (IsCompiled settings source) ls
      ((literals settings source stem index ls).map (·.value)) := by
  induction ls generalizing index with
  | nil => exact .nil
  | cons l ls ih =>
      rw [literals_cons]
      exact .cons (isCompiled_literal settings source index stem l) (ih (index + 1))

theorem hasShape_formula (s : Surface.Statement) :
    HasShape settings source s (formula settings source s).value := by
  cases s with
  | fact l => exact .fact ⟨rfl, rfl, rfl⟩
  | rule head heads first body =>
      exact .rule (.cons (isCompiled_literal settings source 0 _ head)
        (forall₂_literals settings source _ 1 heads)) (forall₂_literals settings source _ _ _)

end Shapes

section Checked

variable (settings : Settings) (source : Source)

/-- The rule of two lists of literals. Without heads there is an error and no rule. -/
def checkedRule (stem : String) (span : Span) (heads body : List Surface.Literal) :
    Outcome (Option Rule) :=
  let heads := literals settings source stem 0 heads
  let body := literals settings source stem heads.length body
  let errors := (heads ++ body).flatMap (·.errors)
  match Rule.ofHeads? (heads.map (·.value)) (body.map (·.value)) with
  | some rule =>
      { value := some { rule with
          location := some (source.lines.position (.ofNat span.start))
          notes := { source := some (source.excerpt span) } }
        errors }
  | none => { value := none, errors := errors ++ [.policy .noHeads none] }

/-- The formula of a statement, if there is one. -/
def checkedFormula (s : Surface.Statement) : Outcome (Option Formula) :=
  match s with
  | .fact _ =>
      { value := some (formula settings source s).value
        errors := (formula settings source s).errors }
  | .rule head heads first body =>
      let rule :=
        checkedRule settings source (freshStem s) s.span (head :: heads) (first :: body)
      { value := rule.value.map .rule, errors := rule.errors }

/-- The formulas of the statements that have one. -/
def checkedFormulas (sts : List Surface.Statement) : Outcome (List Formula) :=
  let outcomes := sts.map (checkedFormula settings source)
  { value := outcomes.filterMap (·.value), errors := outcomes.flatMap (·.errors) }

theorem checkedFormula_eq (s : Surface.Statement) :
    checkedFormula settings source s =
      { value := some (formula settings source s).value
        errors := (formula settings source s).errors } := by
  cases s with
  | fact l => rfl
  | rule head heads first body =>
      have hlength : (literals settings source (freshStem (.rule head heads first body)) 0
          (head :: heads)).length = heads.length + 1 := List.length_mapIdx
      rw [checkedFormula, checkedRule, hlength, literals_cons settings source _ 0]
      rfl

/-- No statement is without a formula. -/
theorem checkedFormulas_eq (sts : List Surface.Statement) :
    checkedFormulas settings source sts = formulas settings source sts := by
  have hchecked := funext (checkedFormula_eq settings source)
  simp only [checkedFormulas, formulas, hchecked, List.filterMap_map, List.flatMap_map,
    List.map_map, Outcome.mk.injEq, and_true]
  exact congrFun List.filterMap_eq_map' sts

end Checked

section Errors

variable {site : Site} {atom : Surface.Atom} {e : PolicyError}

/-- What may be wrong with an atom: one of its references, or the term of an argument. -/
def IsAtomError (site : Site) (atom : Surface.Atom) (e : PolicyError) : Prop :=
  (∃ fault, e = .policy (.reference atom.text fault) (site.locate atom.span)) ∨
    ∃ p ∈ atom.params, site.term p.term = .error e

theorem Site.exists_of_mem_errors {xs : List Lexeme} (h : e ∈ (site.terms xs).errors) :
    ∃ x ∈ xs, site.term x = .error e := by
  obtain ⟨x, hx, herror⟩ := List.mem_filterMap.1 h
  cases hterm : site.term x with
  | ok t =>
      rw [hterm] at herror
      cases herror
  | error e' =>
      rw [hterm] at herror
      exact ⟨x, hx, hterm.trans (congrArg _ (Option.some.inj herror))⟩

theorem isAtomError_of_mem_terms {params : List Surface.Param} (hsub : params ⊆ atom.params)
    (h : e ∈ (site.terms (params.map (·.term))).errors) : IsAtomError site atom e := by
  obtain ⟨x, hx, hterm⟩ := Site.exists_of_mem_errors h
  obtain ⟨p, hp, rfl⟩ := List.mem_map.1 hx
  exact .inr ⟨p, hsub hp, hterm⟩

/-- Each error of the references is a fault of one, or the error of a term. -/
theorem mem_errors_collectReferences {fault : ReferenceFault → PolicyError}
    {columns : List String} {filled : Nat} {given : References} {params : List Surface.Param}
    (h : e ∈ (collectReferences site fault columns filled given params).errors) :
    (∃ f, e = fault f) ∨ ∃ p ∈ params, site.term p.term = .error e := by
  induction params generalizing given with
  | nil => cases h
  | cons p params ih =>
      have hrest {given : References}
          (h : e ∈ (collectReferences site fault columns filled given params).errors) :
          (∃ f, e = fault f) ∨ ∃ q ∈ p :: params, site.term q.term = .error e :=
        (ih h).imp_right fun ⟨q, hq, hterm⟩ => ⟨q, List.mem_cons_of_mem p hq, hterm⟩
      cases p with
      | positional x =>
          rcases List.mem_cons.1 h with rfl | h
          · exact .inl ⟨_, rfl⟩
          · exact hrest h
      | named column x =>
          rw [collectReferences] at h
          cases hterm : site.term x with
          | error e' =>
              rw [hterm] at h
              rcases List.mem_cons.1 h with rfl | h
              · exact .inr ⟨_, List.mem_cons_self, hterm⟩
              · exact hrest h
          | ok t =>
              rw [hterm] at h
              rcases List.mem_append.1 h with h | h
              · obtain ⟨f, -, rfl⟩ := List.mem_map.1 h
                exact .inl ⟨f, rfl⟩
              · exact hrest h

theorem isAtomError_knownArguments {columns : List String}
    (h : e ∈ (knownArguments site atom columns).errors) : IsAtomError site atom e := by
  simp only [knownArguments_eq] at h
  split at h
  · split at h
    · cases h
    · obtain ⟨r, -, hr⟩ := List.mem_filterMap.1 h
      cases r with
      | ok t => cases hr
      | error f => exact .inl ⟨f, (Option.some.inj hr).symm⟩
  · rcases List.mem_append.1 h with h | h
    · exact isAtomError_of_mem_terms (List.takeWhile_sublist _).subset h
    · exact (mem_errors_collectReferences h).imp_right
        fun ⟨p, hp, hterm⟩ => ⟨p, (List.drop_sublist _ _).mem hp, hterm⟩

theorem isAtomError_arguments {table : TableName} {columns : Option (List String)}
    (h : e ∈ (arguments site atom table columns).errors) : IsAtomError site atom e := by
  cases columns with
  | some columns => exact isAtomError_knownArguments h
  | none =>
      rw [arguments] at h
      split at h
      · exact .inl ⟨_, List.mem_singleton.1 h⟩
      · exact isAtomError_of_mem_terms (List.Subset.refl _) h

end Errors

section Statements

variable {settings : Settings} {source : Source} {s : Surface.Statement} {e : PolicyError}

/-- What may be wrong with a statement: a reference to a column, or an escape in a string. -/
inductive IsConversionError (lines : LineIndex) (s : Surface.Statement) : PolicyError → Prop
  | reference {l} (hl : l ∈ s.literals) (fault : ReferenceFault) :
      IsConversionError lines s
        (.policy (.reference l.atom.text fault) (some (lines.position (.ofNat l.atom.span.start))))
  | escape {l p c} (hl : l ∈ s.literals) (hp : p ∈ l.atom.params)
      (hstring : p.term.terminal = .string) (h : Text.HasUnknownEscape p.term.text c) :
      IsConversionError lines s (.policy (.invalidString p.term.text (.unknown c))
        (some (lines.position (.ofNat p.term.span.start))))

/-- The only lexemes of a source without a term are strings with an unknown escape. -/
theorem Site.term_eq_error {site : Site} {x : Lexeme} (hx : x.IsAccepted)
    (h : site.term x = .error e) :
    x.terminal = .string ∧ ∃ c, Text.HasUnknownEscape x.text c ∧
      e = .policy (.invalidString x.text (.unknown c)) (site.locate x.span) := by
  cases hterminal : x.terminal <;> simp only [hterminal, Site.term] at h
  case integer =>
    obtain ⟨n, hn⟩ := hx.exists_number (.inl hterminal)
    cases hread : readInteger? x.text <;> simp only [hread, hn] at h <;> cases h
  case float =>
    obtain ⟨n, hn⟩ := hx.exists_number (.inr hterminal)
    simp only [hn] at h
    cases h
  case string =>
    rcases hx.quotedValue hterminal with ⟨value, hvalue⟩ | ⟨c, hc, herror⟩
    · rw [hvalue] at h
      cases h
    · rw [herror] at h
      exact ⟨rfl, c, hc, (Except.error.inj h).symm⟩
  all_goals cases h

/-- An error of a statement is one of its literals. -/
theorem exists_of_mem_errors_formula (h : e ∈ (formula settings source s).errors) :
    ∃ l ∈ s.literals, ∃ index,
      e ∈ (literal settings ⟨source.lines, index, freshStem s⟩ l).errors := by
  have hliterals {index : Nat} {ls : List Surface.Literal}
      (h : e ∈ (literals settings source (freshStem s) index ls).flatMap (·.errors)) :
      ∃ l ∈ ls, ∃ index, e ∈ (literal settings ⟨source.lines, index, freshStem s⟩ l).errors := by
    obtain ⟨outcome, houtcome, he⟩ := List.mem_flatMap.1 h
    obtain ⟨i, hi, rfl⟩ := List.mem_mapIdx.1 houtcome
    exact ⟨_, List.getElem_mem hi, _, he⟩
  cases s with
  | fact l => exact ⟨l, List.mem_singleton_self l, 0, h⟩
  | rule head heads first body =>
      rcases List.mem_append.1 h with h | h
      · exact ⟨head, List.mem_cons_self, 0, h⟩
      · rw [List.flatMap_append, List.mem_append] at h
        rcases h with h | h
        · obtain ⟨l, hl, hindex⟩ := hliterals h
          exact ⟨l, List.mem_append_left _ (List.mem_cons_of_mem _ hl), hindex⟩
        · obtain ⟨l, hl, hindex⟩ := hliterals h
          exact ⟨l, List.mem_append_right _ hl, hindex⟩

/-- A statement that is made of the lexemes of a source has errors of two kinds only. -/
theorem isConversionError_of_mem (hmade : ∀ l ∈ s.literals, l.MadeOf Lexeme.IsAccepted)
    (h : e ∈ (formula settings source s).errors) : IsConversionError source.lines s e := by
  obtain ⟨l, hl, index, he⟩ := exists_of_mem_errors_formula h
  rcases isAtomError_arguments he with ⟨fault, rfl⟩ | ⟨p, hp, hterm⟩
  · exact .reference hl fault
  · have haccepted := ((hmade l hl).atom.params p hp).2
    obtain ⟨hstring, c, hc, rfl⟩ := Site.term_eq_error haccepted hterm
    exact .escape hl hp hstring hc

/-- The statements of a source give one formula each, in their order and with their literals, also
where there are errors. Each error is about a reference to a column or about an unknown escape.
No numeral is invalid and no string ends within an escape. No rule is without heads either: the
formulas and errors are also those of a conversion that leaves out statements without a formula
and looks for the heads of each rule. -/
theorem formulas_conversion (settings : Settings) {source : Source}
    {sts : List Surface.Statement} (h : source.statements = .ok sts) :
    List.Forall₂ (HasShape settings source) sts (formulas settings source sts).value ∧
      (∀ e ∈ (formulas settings source sts).errors,
        ∃ s ∈ sts, IsConversionError source.lines s e) ∧
      checkedFormulas settings source sts = formulas settings source sts := by
  refine ⟨?_, fun e he => ?_, checkedFormulas_eq settings source sts⟩
  · simp only [formulas, List.map_map, List.forall₂_map_right_iff, List.forall₂_same]
    exact fun s _ => hasShape_formula settings source s
  · simp only [formulas, List.flatMap_map] at he
    obtain ⟨s, hs, he⟩ := List.mem_flatMap.1 he
    have hmade := (Source.program_of_statements h).madeOf (Token.isAccepted_scan source.chars)
    exact ⟨s, hs, isConversionError_of_mem (hmade s hs) he⟩

/-- A string with an unknown escape, a column that is not there, and a numeral out of range. -/
def sampleFaults : Source :=
  .ofText "<input>" "p(\"a\\q\", x), r(x) :- nova:servers(x, 7=y) s(1e999)"

theorem formulas_conversion_sampleFaults :
    ∃ sts, sampleFaults.statements = .ok sts ∧
      (formulas { theories := sampleTheories } sampleFaults sts).errors.map (·.message) =
        ["Invalid string \"a\\q\": unknown escape sequence \\q",
          "In atom nova:servers(x,7=y) column number 7 is too large. " ++
            "The permitted column numbers are 0..1 "] ∧
      (formulas { theories := sampleTheories } sampleFaults sts).value.map (·.text) =
        ["p(x), r(x) :- nova:servers()", "s(inf)"] ∧
      List.Forall₂ (HasShape { theories := sampleTheories } sampleFaults) sts
        (formulas { theories := sampleTheories } sampleFaults sts).value ∧
      (∀ e ∈ (formulas { theories := sampleTheories } sampleFaults sts).errors,
        ∃ s ∈ sts, IsConversionError sampleFaults.lines s e) := by
  have hsample : sampleFaults.statements.toOption.any (fun sts =>
      let compiled := formulas { theories := sampleTheories } sampleFaults sts
      compiled.errors.map (·.message) =
        ["Invalid string \"a\\q\": unknown escape sequence \\q",
          "In atom nova:servers(x,7=y) column number 7 is too large. " ++
            "The permitted column numbers are 0..1 "] ∧
      compiled.value.map (·.text) = ["p(x), r(x) :- nova:servers()", "s(inf)"]) = true := by
    decide +kernel
  obtain ⟨sts, hsts, hcompiled⟩ := (Option.any_eq_true _ _).1 hsample
  have hstatements := eq_ok_of_toOption hsts
  obtain ⟨herrors, htexts⟩ := of_decide_eq_true hcompiled
  obtain ⟨hshape, hkinds, -⟩ := formulas_conversion { theories := sampleTheories } hstatements
  exact ⟨sts, hstatements, herrors, htexts, hshape, hkinds⟩

end Statements

end Compile

end DatalogPolicy

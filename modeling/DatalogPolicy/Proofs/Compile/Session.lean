import DatalogPolicy.Compile.Session
import DatalogPolicy.Proofs.Compile.Concatenation

/-!
# What a session accumulates

Each call of a session adds a part to it: the formulas and errors of a source, or the error
or warning that is signalled. A source that cannot be divided into statements adds nothing.
After any calls, a session holds the parts of all of them in order, and the outline of the
last source that has one.
-/

namespace DatalogPolicy

/-- A source has no unknown text, and the grammar derives some statements from its lexemes. -/
def Source.Makes (source : Source) (sts : List Surface.Statement) : Prop :=
  (∀ t ∈ Token.scan source.chars, t.kind ≠ .unknown) ∧
    Surface.Grammar.Program ((Token.scan source.chars).filterMap (·.lexeme?)) sts

/-- The error of a source that has no statements: that of its first unknown text, or the one with
which the parser stops. -/
inductive Source.FailsWith (source : Source) : PolicyError → Prop
  | unknownText {before t after} (hscan : Token.scan source.chars = before ++ t :: after)
      (hbefore : ∀ u ∈ before, u.kind ≠ .unknown) (ht : t.kind = .unknown) :
      source.FailsWith (.lexical (.unknownText t.text) (source.site t.span))
  | ungrammatical {failure} (hknown : ∀ t ∈ Token.scan source.chars, t.kind ≠ .unknown)
      (hparse : Surface.parse ((Token.scan source.chars).filterMap (·.lexeme?)) = .error failure) :
      source.FailsWith (source.grammarError failure)

theorem Source.failsWith_of_statements {source : Source} {e : PolicyError}
    (h : source.statements = .error e) : source.FailsWith e := by
  rw [statements, tokens] at h
  cases hfind : (Token.scan source.chars).find? (·.kind = .unknown) with
  | some t =>
      obtain ⟨ht, before, after, hscan, hbefore⟩ := List.find?_eq_some_iff_append.1 hfind
      rw [hfind] at h
      cases h
      exact .unknownText hscan (fun u hu => by simpa using hbefore u hu) (of_decide_eq_true ht)
  | none =>
      have hknown (t : Token) (ht : t ∈ Token.scan source.chars) : t.kind ≠ .unknown := by
        simpa using List.find?_eq_none.1 hfind t ht
      rw [hfind, Except.bind, parseTokens] at h
      cases hparse : Surface.parse ((Token.scan source.chars).filterMap (·.lexeme?)) with
      | ok sts =>
          rw [hparse] at h
          cases h
      | error failure =>
          rw [hparse] at h
          cases h
          exact .ungrammatical hknown hparse

namespace Session

/-- A call of a session. -/
inductive Call
  | readSource (settings : Settings) (source : Source)
  | signalError (error : PolicyError)
  | signalWarning (warning : PolicyError)
  | raiseErrors

namespace Call

/-- The session after a call. -/
def perform (s : Session) : Call → Session
  | readSource settings source => (s.readSource settings source).1
  | signalError error => s.signalError error
  | signalWarning warning => s.signalWarning warning
  | raiseErrors => s

/-- The answer to a call; signals have none. -/
def answer? (s : Session) : Call → Option (Except PolicyError Unit)
  | readSource settings source => some (s.readSource settings source).2
  | raiseErrors => some s.raiseErrors
  | signalError _ | signalWarning _ => none

/-- What a call adds to a session, as a session of its own. -/
def part : Call → Session
  | readSource settings source =>
      match source.statements with
      | .error _ => {}
      | .ok sts =>
          let compiled := Compile.formulas settings source sts
          { theory := compiled.value
            errors := compiled.errors
            outline := some (Surface.outline sts) }
  | signalError error => { errors := [error] }
  | signalWarning warning => { warnings := [warning] }
  | raiseErrors => {}

end Call

/-- The session after some calls of a new one. -/
def ofCalls (calls : List Call) : Session := calls.foldl Call.perform {}

/-- One session with another one added to it. -/
def append (s t : Session) : Session where
  theory := s.theory ++ t.theory
  errors := s.errors ++ t.errors
  warnings := s.warnings ++ t.warnings
  outline := t.outline.or s.outline

/-- An answer is a success if there are no errors, and otherwise a failure with all of them. -/
def Reports (answer : Option (Except PolicyError Unit)) (errors : List PolicyError) : Prop :=
  (answer = some (.ok ()) ↔ errors = []) ∧
    (errors ≠ [] → answer = some (.error (.compile errors)))

section Steps

variable {s : Session} {settings : Settings} {source : Source}

theorem append_empty (s : Session) : s.append {} = s := by
  simp only [append, List.append_nil, Option.none_or]

/-- A call adds its part. -/
theorem perform_eq_append (s : Session) (c : Call) : c.perform s = s.append c.part := by
  cases c with
  | readSource settings source =>
      rw [Call.perform, readSource, Call.part]
      cases source.statements with
      | error e => exact (append_empty s).symm
      | ok sts => simp only [append, List.append_nil, Option.some_or]
  | signalError error =>
      simp only [Call.perform, signalError, Call.part, append, List.append_nil, Option.none_or]
  | signalWarning warning =>
      simp only [Call.perform, signalWarning, Call.part, append, List.append_nil, Option.none_or]
  | raiseErrors => exact (append_empty s).symm

theorem reports_raiseErrors (s : Session) : Reports (some s.raiseErrors) s.errors := by
  rw [Reports, raiseErrors]
  cases s.errors with
  | nil => simp
  | cons error rest => simp

theorem readSource_of_error {e : PolicyError} (h : source.statements = .error e) :
    s.readSource settings source = (s, .error e) := by
  rw [readSource, h]

/-- A source with statements is answered with the errors of the session to which it has been
added. -/
theorem reports_readSource (settings : Settings) (s : Session) {sts : List Surface.Statement}
    (h : source.statements = .ok sts) :
    Reports ((Call.readSource settings source).answer? s)
      ((Call.readSource settings source).perform s).errors := by
  rw [Call.answer?, Call.perform, readSource, h]
  exact reports_raiseErrors _

end Steps

section Runs

/-- What has been added by some calls: the parts of them in order, and the last outline. -/
theorem ofCalls_eq (calls : List Call) : ofCalls calls =
    { theory := calls.flatMap (·.part.theory)
      errors := calls.flatMap (·.part.errors)
      warnings := calls.flatMap (·.part.warnings)
      outline := (calls.filterMap (·.part.outline)).getLast? } := by
  induction calls using List.reverseRecOn with
  | nil => rfl
  | append_singleton calls c ih =>
      have hlast : ofCalls (calls ++ [c]) = c.perform (ofCalls calls) := List.foldl_concat ..
      have houtline : ([c].filterMap (·.part.outline)).getLast? = c.part.outline := by
        rw [List.filterMap_cons]
        cases c.part.outline <;> rfl
      rw [hlast, perform_eq_append, ih, append]
      simp only [List.flatMap_append, List.flatMap_singleton, List.filterMap_append,
        List.getLast?_append, houtline]

end Runs

/-- After any calls, a session holds the formulas, errors and warnings of all of them in order, and
the last outline. A source from which the grammar derives statements adds what these are compiled
to, and is answered like a call to raise errors; another one is answered with its own error and
leaves the session as it was. -/
theorem ofCalls_accumulates (calls : List Call) :
    (ofCalls calls).theory = calls.flatMap (·.part.theory) ∧
    (ofCalls calls).errors = calls.flatMap (·.part.errors) ∧
    (ofCalls calls).warnings = calls.flatMap (·.part.warnings) ∧
    (ofCalls calls).outline = (calls.filterMap (·.part.outline)).getLast? ∧
    Reports (Call.raiseErrors.answer? (ofCalls calls)) (ofCalls calls).errors ∧
    (∀ settings source sts, source.Makes sts →
      let compiled := Compile.formulas settings source sts
      (Call.readSource settings source).part =
        { theory := compiled.value
          errors := compiled.errors
          outline := some (Surface.outline sts) } ∧
      Reports ((Call.readSource settings source).answer? (ofCalls calls))
        ((ofCalls calls).errors ++ compiled.errors)) ∧
    (∀ settings source, (∀ sts, ¬ source.Makes sts) →
      (Call.readSource settings source).part = {} ∧
      ∃ e, source.FailsWith e ∧
        (ofCalls calls).readSource settings source = (ofCalls calls, .error e)) := by
  have h := ofCalls_eq calls
  refine ⟨congrArg theory h, congrArg errors h, congrArg warnings h, congrArg outline h,
    reports_raiseErrors _, fun settings source sts hsts => ?_, fun settings source hnone => ?_⟩
  · have hstatements : source.statements = .ok sts := Source.statements_eq_ok_iff.2 hsts
    have hreports := reports_readSource settings (ofCalls calls) hstatements
    rw [perform_eq_append, Call.part, hstatements] at hreports
    exact ⟨by rw [Call.part, hstatements], hreports⟩
  · cases hstatements : source.statements with
    | ok sts => exact absurd (Source.statements_eq_ok_iff.1 hstatements) (hnone sts)
    | error e =>
        exact ⟨by rw [Call.part, hstatements], e, Source.failsWith_of_statements hstatements,
          readSource_of_error hstatements⟩

/-- A source that is compiled, one that breaks off, a warning, a source with an unknown escape, an
error, and a source with unknown text. -/
def sampleCalls : List Call :=
  [.readSource {} (.ofText "a" "p(1)"), .readSource {} (.ofText "b" "q("),
    .signalWarning (.policy (.stated "careful") none),
    .readSource {} (.ofText "c" "r(\"\\q\", x)"),
    .signalError (.policy (.stated "wrong") none), .readSource {} (.ofText "d" "@")]

theorem ofCalls_sampleCalls :
    let s := ofCalls sampleCalls
    let whole := Source.ofText "e" "s(x) :- t(x)"
    let broken := Source.ofText "f" "s(x) :-"
    s.theory.map (·.text) = ["p(1)", "r(x)"] ∧
    s.errors.map (·.message) =
      ["Invalid string \"\\q\": unknown escape sequence \\q", "wrong"] ∧
    s.warnings.map (·.message) = ["careful"] ∧
    (∃ sts, whole.Makes sts ∧ Reports ((Call.readSource {} whole).answer? s) s.errors) ∧
    (∀ sts, ¬ broken.Makes sts) ∧
    ∃ e, broken.FailsWith e ∧ s.readSource {} broken = (s, .error e) := by
  intro s whole broken
  obtain ⟨htheory, herrors, hwarnings, -, -, hmade, hunmade⟩ := ofCalls_accumulates sampleCalls
  have hnone (sts : List Surface.Statement) : ¬ broken.Makes sts := by
    intro h
    have hfails : broken.statements.toOption.isNone = true := by decide +kernel
    rw [Source.statements_eq_ok_iff.2 h] at hfails
    cases hfails
  obtain ⟨sts, hsts⟩ : ∃ sts, whole.statements = .ok sts :=
    Compile.exists_eq_ok (by decide +kernel)
  have hmakes : whole.Makes sts := Source.statements_eq_ok_iff.1 hsts
  obtain ⟨hpart, hreports⟩ := hmade {} whole sts hmakes
  have hclean : (Compile.formulas {} whole sts).errors = [] := by
    have hlength : (Call.readSource {} whole).part.errors.length = 0 := by decide +kernel
    rw [hpart] at hlength
    exact List.eq_nil_of_length_eq_zero hlength
  rw [hclean, List.append_nil] at hreports
  refine ⟨?_, ?_, ?_, ⟨sts, hmakes, hreports⟩, hnone, (hunmade {} broken hnone).2⟩
  · rw [htheory]
    decide +kernel
  · rw [herrors]
    decide +kernel
  · rw [hwarnings]
    decide +kernel

end Session

end DatalogPolicy

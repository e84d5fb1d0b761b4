import DatalogPolicy.Proofs.Compile.Layout
import DatalogPolicy.Proofs.Surface.Spans
import DatalogPolicy.Proofs.Token.Excerpt

/-!
# What formulas record of their source

A formula records the part of its source from the first byte of its first lexeme to the
last byte of its last. This text alone is compiled to the formula, whatever stood around
it.
-/

namespace DatalogPolicy

open Surface.Grammar (OneOf Program)
open Text (byteLength)
open Token (HasWords lexemes wordOf)

/-- The text that a formula records of its source. -/
def Formula.source? : Formula → Option String
  | .literal l => l.notes.source
  | .rule r => r.notes.source

variable {settings : Settings} {source : Source} {xs ys zs : List Lexeme}

/-- A text is the part of a source from the first byte of the first of some lexemes to the last byte
of the last. -/
def IsExcerpt (source : Source) (xs : List Lexeme) (text : String) : Prop :=
  ∃ first last front back, xs.head? = some first ∧ xs.getLast? = some last ∧
    source.chars = front ++ text.toList ++ back ∧ first.span.start = byteLength front ∧
    last.span.stop = byteLength (front ++ text.toList)

/-- A formula is compiled from some lexemes of a source and records the text in which they stand.
This text alone is compiled to the formula, unless it ends with a name that only the point behind it
tells from a word for negation. -/
structure Records (settings : Settings) (source : Source) (xs : List Lexeme) (f : Formula) :
    Prop where
  compiled : ∃ st, Surface.Grammar.Formula xs st ∧ (Compile.formula settings source st).errors = [] ∧
    f = (Compile.formula settings source st).value
  excerpt : ∃ text, f.source? = some text ∧ IsExcerpt source xs text
  alone : ∀ text ∈ f.source?, (∀ x ∈ xs.getLast?, ¬ x.IsNegationName) → ∀ file,
    ∃ g, compile settings (.ofText file text) = .ok [g] ∧ g.written = f.written ∧ (g == f) = true

/-- The lexemes of a source are those of its formulas, each with a terminator or none. -/
inductive Recorded (settings : Settings) (source : Source) : List Lexeme → List Formula → Prop
  | nil : Recorded settings source [] []
  | cons {xs ys zs f fs} (h : Records settings source xs f)
      (hend : ys = [] ∨ ∃ t, OneOf [.semicolon, .period] ys t)
      (hrest : Recorded settings source zs fs) :
      Recorded settings source (xs ++ ys ++ zs) (f :: fs)

theorem Compile.source?_formula (settings : Settings) (source : Source) (st : Surface.Statement) :
    (formula settings source st).value.source? = some (source.excerpt st.span) := by
  cases st <;> rfl

/-- A formula of a source that is compiled without errors records its text. -/
theorem Surface.Grammar.Formula.records {st : Surface.Statement} (h : Surface.Grammar.Formula ys st)
    (hknown : ∀ t ∈ Token.scan source.chars, t.kind ≠ .unknown)
    (hall : lexemes (Token.scan source.chars) = xs ++ (ys ++ zs))
    (herrors : (Compile.formula settings source st).errors = []) :
    Records settings source ys (Compile.formula settings source st).value := by
  obtain ⟨first, last, ⟨hfirst, hlast⟩, hspan⟩ := h.exists_ends
  obtain ⟨front, text, back, hchars, hstart, hstop, hwords⟩ :=
    Token.exists_excerpt hknown hall hfirst hlast
  have hsource : (Compile.formula settings source st).value.source? = some (String.ofList text) := by
    rw [Compile.source?_formula, Source.excerpt, hspan, hstart, hstop, hchars, Text.slice_append]
  have htext : (String.ofList text).toList = text := String.toList_ofList
  refine ⟨⟨st, h, herrors, rfl⟩, ⟨_, hsource, first, last, front, back, hfirst, hlast, ?_⟩, ?_⟩
  · rw [htext]
    exact ⟨hchars, hstart, hstop⟩
  · intro recorded hrecorded hname file
    obtain rfl : String.ofList text = recorded := Option.some.inj (hsource.symm.trans hrecorded)
    have hprogram : Program ys [st] := by
      have hone := Program.cons (.unterminated h) .nil
      rwa [List.append_nil] at hone
    have hnodup : ys.Nodup := by
      have hdifferent := Token.nodup_lexemes source.chars
      rw [← lexemes, hall] at hdifferent
      exact (List.nodup_append.1 (List.nodup_append.1 hdifferent).2.1).1
    have hone : (Compile.formulas settings source [st]).errors = [] := by
      rw [Compile.formulas, List.map_singleton, List.flatMap_singleton, herrors]
    have hchars' : (Source.ofText file (String.ofList text)).chars = text := htext
    obtain ⟨gs, hgs, hwritten⟩ :=
      compile_of_words hprogram hnodup hone (hchars' ▸ hwords (hname last hlast))
    obtain ⟨g, rfl, hg⟩ := List.map_eq_singleton_iff.1 hwritten
    exact ⟨g, hgs, hg, Formula.beq_of_written hg⟩

/-- Statements at the end of a source, compiled without errors, record their texts. -/
theorem Surface.Grammar.Program.recorded {sts : List Surface.Statement} (h : Program ys sts)
    (hknown : ∀ t ∈ Token.scan source.chars, t.kind ≠ .unknown)
    (hall : lexemes (Token.scan source.chars) = xs ++ ys)
    (herrors : (Compile.formulas settings source sts).errors = []) :
    Recorded settings source ys (Compile.formulas settings source sts).value := by
  induction h generalizing xs with
  | nil => exact .nil
  | @cons us ys _ _ hstatement _ ih =>
      obtain ⟨hfirst, hothers⟩ := List.append_eq_nil_iff.1 herrors
      have htail := ih (hall.trans (List.append_assoc xs us ys).symm) hothers
      cases hstatement with
      | unterminated hformula =>
          have hone := Recorded.cons (hformula.records hknown hall hfirst) (.inl rfl) htail
          rwa [List.append_nil] at hone
      | terminated hformula hend =>
          rw [List.append_assoc] at hall
          exact .cons (hformula.records hknown hall hfirst) (.inr ⟨_, hend⟩) htail

/-- The formulas of a source that is compiled record their texts. -/
theorem compile_recorded {fs : List Formula} (h : compile settings source = .ok fs) :
    Recorded settings source (lexemes (Token.scan source.chars)) fs := by
  obtain ⟨sts, hstatements, herrors, rfl⟩ := compile_eq_ok_iff.1 h
  obtain ⟨hknown, hprogram⟩ := Source.statements_eq_ok_iff.1 hstatements
  exact hprogram.recorded hknown (List.nil_append _).symm herrors

/-- A rule that leaves out a column, with a comment inside, and a fact behind its point. -/
theorem compile_recorded_sample :
    ∃ fs, compile { theories := sampleTheories }
        (.ofText "a" "p(x) :- nova:servers(name=x), // q\n not r[s(x)]. t(1)") = .ok fs ∧
      fs.map Formula.source? =
        [some "p(x) :- nova:servers(name=x), // q\n not r[s(x)]", some "t(1)"] ∧
      Recorded { theories := sampleTheories }
        (.ofText "a" "p(x) :- nova:servers(name=x), // q\n not r[s(x)]. t(1)")
        (lexemes (Token.scan "p(x) :- nova:servers(name=x), // q\n not r[s(x)]. t(1)".toList))
        fs := by
  have hsources : (compile { theories := sampleTheories }
      (.ofText "a" "p(x) :- nova:servers(name=x), // q\n not r[s(x)]. t(1)")).toOption.map
        (·.map Formula.source?) =
      some [some "p(x) :- nova:servers(name=x), // q\n not r[s(x)]", some "t(1)"] := by
    decide +kernel
  obtain ⟨fs, hfs, hrecorded⟩ := Option.map_eq_some_iff.1 hsources
  have hcompile := Compile.eq_ok_of_toOption hfs
  exact ⟨fs, hcompile, hrecorded, compile_recorded hcompile⟩

/-- A name that only the point behind it tells from a word for negation records no policy. -/
theorem not_compile_recorded_beforePoint :
    ∃ fs, compile {} (.ofText "<input>" "not.") = .ok fs ∧
      fs.map Formula.source? = [some "not"] ∧
      ∀ gs, compile {} (.ofText "<input>" "not") ≠ .ok gs := by
  have hsources : (compile {} (.ofText "<input>" "not.")).toOption.map (·.map Formula.source?) =
      some [some "not"] := by
    decide +kernel
  obtain ⟨fs, hfs, hrecorded⟩ := Option.map_eq_some_iff.1 hsources
  exact ⟨fs, Compile.eq_ok_of_toOption hfs, hrecorded, Compile.ne_ok (by decide +kernel)⟩

end DatalogPolicy

import DatalogPolicy.Proofs.Compile.Printability
import DatalogPolicy.Proofs.Compile.Words
import DatalogPolicy.Proofs.Token.Newline

/-!
# Compiling one text after the other

Statements need no terminator, yet none goes on beyond the end of its text: the grammar
derives a policy from the lexemes of two texts in one way only, which is that of the one
followed by that of the other. So a text, a newline and another text are compiled to the
formulas of both.
-/

namespace DatalogPolicy

open Surface.Grammar (Program)
open Text (byteLength)

variable {source : Source} {sts : List Surface.Statement}

/-- A source has statements when it has no unknown text and the grammar derives them. -/
theorem Source.statements_eq_ok_iff : source.statements = .ok sts ↔
    (∀ t ∈ Token.scan source.chars, t.kind ≠ .unknown) ∧
      Program ((Token.scan source.chars).filterMap (·.lexeme?)) sts := by
  constructor
  · intro h
    refine ⟨fun t ht hkind => ?_, program_of_statements h⟩
    have hfind : (Token.scan source.chars).find? (·.kind = .unknown) ≠ none := fun hnone =>
      List.find?_eq_none.1 hnone t ht (decide_eq_true hkind)
    obtain ⟨found, hfound⟩ := Option.ne_none_iff_exists'.1 hfind
    rw [statements, tokens, hfound] at h
    cases h
  · rintro ⟨hknown, hprogram⟩
    have hfind : (Token.scan source.chars).find? (·.kind = .unknown) = none :=
      List.find?_eq_none.2 fun t ht => by simpa using hknown t ht
    rw [statements, tokens, hfind]
    exact Surface.Grammar.parseTokens_eq_ok_iff.2 hprogram

section Newline

variable {fa fb a b : String} {sa sb : List Surface.Statement}

/-- The statements of a text, a newline and another text are those of the one and, further on,
those of the other. -/
theorem Source.statements_newline (ha : (ofText fa a).statements = .ok sa)
    (hb : (ofText fb b).statements = .ok sb) (file : String) :
    (ofText file (a ++ "\n" ++ b)).statements =
      .ok (sa ++ sb.map (·.map (Lexeme.shift (byteLength a.toList + 1)))) := by
  obtain ⟨hknownA, hprogramA⟩ := statements_eq_ok_iff.1 ha
  obtain ⟨hknownB, hprogramB⟩ := statements_eq_ok_iff.1 hb
  have hchars : (ofText file (a ++ "\n" ++ b)).chars = a.toList ++ '\n' :: b.toList := by
    simp only [ofText, String.toList_append, List.append_assoc]
    rfl
  obtain ⟨hknown, hlexemes⟩ := Token.scan_newline hknownA hknownB
  rw [statements_eq_ok_iff, hchars]
  refine ⟨hknown, ?_⟩
  have hshifted := hprogramB.map (f := Lexeme.shift (byteLength a.toList + 1)) fun _ => rfl
  exact hlexemes ▸ hprogramA.append hshifted

/-- Statements of two sources, the places of some of them moved, are compiled together to formulas
that are written as those of the one source followed by those of the other. -/
theorem Compile.placeless_append (settings : Settings) (source sourceA sourceB : Source)
    (sa sb : List Surface.Statement) {f : Lexeme → Lexeme}
    (hf : ∀ x, Token.wordOf (f x) = Token.wordOf x) :
    (formulas settings source (sa ++ sb.map (·.map f))).placeless (List.map Formula.written) =
      (((formulas settings sourceA sa).value ++ (formulas settings sourceB sb).value).map
          Formula.written,
        ((formulas settings sourceA sa).errors ++ (formulas settings sourceB sb).errors).map
          PolicyError.message) := by
  obtain ⟨hvaluesA, herrorsA⟩ := Prod.mk.inj (placeless_formulas settings sourceA sa)
  obtain ⟨hvaluesB, herrorsB⟩ := Prod.mk.inj (placeless_formulas settings sourceB sb)
  have hfirst : (sa.map fun st => (formula settings source st).placeless Formula.written) =
      sa.map fun st => (formula settings sourceA st).placeless Formula.written :=
    List.map_congr_left fun st _ => placeless_formula_source settings source sourceA st
  have hsecond : (sb.map fun st => (formula settings source (st.map f)).placeless Formula.written) =
      sb.map fun st => (formula settings sourceB st).placeless Formula.written :=
    List.map_congr_left fun st _ => placeless_formula hf settings source sourceB st
  rw [List.map_append, List.map_append, hvaluesA, herrorsA, hvaluesB, herrorsB, placeless_formulas,
    List.map_append, hfirst, List.map_map]
  simp only [Function.comp_def, hsecond, List.map_append, List.flatMap_append]

/-- A text, a newline and another text have statements if both texts do. They are compiled to the
formulas of the one followed by those of the other, with errors of the same messages in the same
order, and reading them is reading the one and then the other. -/
theorem compile_newline (settings : Settings) (file : String)
    (ha : (Source.ofText fa a).statements = .ok sa)
    (hb : (Source.ofText fb b).statements = .ok sb) :
    ∃ sts, (Source.ofText file (a ++ "\n" ++ b)).statements = .ok sts ∧
      let first := Compile.formulas settings (.ofText fa a) sa
      let second := Compile.formulas settings (.ofText fb b) sb
      let joined := Compile.formulas settings (.ofText file (a ++ "\n" ++ b)) sts
      (joined.value.map Formula.written = (first.value ++ second.value).map Formula.written ∧
        (joined.value == first.value ++ second.value) = true ∧
        joined.errors.map PolicyError.message =
          (first.errors ++ second.errors).map PolicyError.message) ∧
      ∀ session : Session,
        let once := (session.readSource settings (.ofText file (a ++ "\n" ++ b))).1
        let twice := ((session.readSource settings (.ofText fa a)).1.readSource settings
          (.ofText fb b)).1
        once.theory.map Formula.written = twice.theory.map Formula.written ∧
          (once.theory == twice.theory) = true ∧
          once.errors.map PolicyError.message = twice.errors.map PolicyError.message := by
  have hjoined := Source.statements_newline ha hb file
  refine ⟨_, hjoined, ?_⟩
  intro first second joined
  have hall := Compile.placeless_append settings (.ofText file (a ++ "\n" ++ b)) (.ofText fa a)
    (.ofText fb b) sa sb (f := Lexeme.shift (byteLength a.toList + 1)) fun _ => rfl
  have hwritten : joined.value.map Formula.written =
      (first.value ++ second.value).map Formula.written := congrArg Prod.fst hall
  have hmessages : joined.errors.map PolicyError.message =
      (first.errors ++ second.errors).map PolicyError.message := congrArg Prod.snd hall
  refine ⟨⟨hwritten, Formula.list_beq_of_written hwritten, hmessages⟩, fun session => ?_⟩
  intro once twice
  have honce : once.theory = session.theory ++ joined.value ∧
      once.errors = session.errors ++ joined.errors := by
    simp only [once, Session.readSource, hjoined, joined, and_self]
  have htwice : twice.theory = session.theory ++ (first.value ++ second.value) ∧
      twice.errors = session.errors ++ (first.errors ++ second.errors) := by
    simp only [twice, Session.readSource, ha, hb, first, second, List.append_assoc, and_self]
  have htheory : once.theory.map Formula.written = twice.theory.map Formula.written := by
    rw [honce.1, htwice.1, List.map_append, hwritten, ← List.map_append]
  refine ⟨htheory, Formula.list_beq_of_written htheory, ?_⟩
  rw [honce.2, htwice.2, List.map_append, hmessages, ← List.map_append]

/-- The rule ends in a comment and has no terminator, and the fact could go on with its body. -/
theorem compile_newline_comment :
    ∃ sa sb, (Source.ofText "a" "p(x) :- q(x), r # s").statements = .ok sa ∧
      (Source.ofText "b" "t(1)").statements = .ok sb ∧
      ∃ sts, (Source.ofText "c" ("p(x) :- q(x), r # s" ++ "\n" ++ "t(1)")).statements = .ok sts ∧
        (Compile.formulas {} (.ofText "c" ("p(x) :- q(x), r # s" ++ "\n" ++ "t(1)")) sts).value.map
            Formula.written =
          ((Compile.formulas {} (.ofText "a" "p(x) :- q(x), r # s") sa).value ++
            (Compile.formulas {} (.ofText "b" "t(1)") sb).value).map Formula.written := by
  have hfirst : ∃ sa, (Source.ofText "a" "p(x) :- q(x), r # s").statements = .ok sa :=
    Compile.exists_eq_ok (by decide +kernel)
  have hsecond : ∃ sb, (Source.ofText "b" "t(1)").statements = .ok sb :=
    Compile.exists_eq_ok (by decide +kernel)
  obtain ⟨sa, ha⟩ := hfirst
  obtain ⟨sb, hb⟩ := hsecond
  obtain ⟨sts, hsts, ⟨hwritten, -⟩, -⟩ := compile_newline {} "c" ha hb
  exact ⟨sa, sb, ha, hb, sts, hsts, hwritten⟩

end Newline

end DatalogPolicy

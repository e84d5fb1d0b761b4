import DatalogPolicy.Proofs.Compile.Concatenation
import DatalogPolicy.Proofs.Token.Insertion

/-!
# Layout does not change what a text is compiled to

What lexemes are compiled to is compiled from any text with the same words. Layout between
two tokens leaves the words of a text as they are, so it leaves the formulas as they are.
-/

namespace DatalogPolicy

open Surface.Grammar (Program)
open Text (byteLength)
open Token (HasWords wordOf words)

variable {settings : Settings} {source source' : Source} {fs : List Formula}

section Words

variable {xs ys : List Lexeme} {sts : List Surface.Statement}

/-- Lexemes are replaced one by one by others of the same words. -/
theorem Token.exists_replacement (hnodup : xs.Nodup) (hwords : xs.map wordOf = ys.map wordOf) :
    ∃ f : Lexeme → Lexeme, (∀ x, wordOf (f x) = wordOf x) ∧ xs.map f = ys := by
  induction xs generalizing ys with
  | nil =>
      cases List.map_eq_nil_iff.1 hwords.symm
      exact ⟨id, fun _ => rfl, rfl⟩
  | cons x xs ih =>
      obtain ⟨y, ys, rfl, hy, hys⟩ := List.map_eq_cons_iff.1 hwords.symm
      obtain ⟨hx, hxs⟩ := List.nodup_cons.1 hnodup
      obtain ⟨f, hf, hmap⟩ := ih hxs hys.symm
      refine ⟨fun z => if z = x then y else f z, fun z => ?_, ?_⟩
      · by_cases hz : z = x
        · simp only [hz, if_true, hy]
        · simp only [hz, if_false, hf]
      · rw [List.map_cons, if_pos rfl, ← hmap]
        congr 1
        refine List.map_congr_left fun z hz => if_neg ?_
        rintro rfl
        exact hx hz

/-- The lexemes of a text are all different, as they stand one behind the other. -/
theorem Token.nodup_lexemes (cs : List Char) : ((scan cs).filterMap (·.lexeme?)).Nodup := by
  have hspan (t : Token) (x : Lexeme) (hx : t.lexeme? = some x) : x.span = t.span := by
    obtain ⟨kind, span, text⟩ := t
    cases kind <;> cases hx
    rfl
  refine List.Pairwise.filterMap _ (fun t t' h x hx y hy heq => ?_) (divides_scanFrom 0 cs).ordered
  rw [← hspan t x hx, ← hspan t' y hy, heq] at h
  exact Nat.lt_irrefl _ h.1

/-- What lexemes are compiled to without errors is compiled from each text with the same words. -/
theorem compile_of_words (hprogram : Program xs sts) (hnodup : xs.Nodup)
    (herrors : (Compile.formulas settings source sts).errors = [])
    (hwords : HasWords source'.chars (xs.map wordOf)) :
    ∃ gs, compile settings source' = .ok gs ∧
      gs.map Formula.written =
        (Compile.formulas settings source sts).value.map Formula.written := by
  obtain ⟨hknown, hsame⟩ := hwords
  obtain ⟨f, hf, hmap⟩ := Token.exists_replacement hnodup hsame.symm
  have hprogram' := hprogram.map (Surface.terminal_map hf)
  rw [hmap] at hprogram'
  have hall := Compile.placeless_append settings source' source source [] sts hf
  obtain ⟨hwritten, hmessages⟩ := Prod.mk.inj hall
  rw [List.nil_append] at hwritten hmessages
  refine ⟨_, compile_eq_ok_iff.2 ⟨_, Source.statements_eq_ok_iff.2 ⟨hknown, hprogram'⟩, ?_, rfl⟩,
    hwritten⟩
  apply List.map_eq_nil_iff.1 (hmessages.trans ?_)
  rw [herrors]
  rfl

end Words

section Insertion

variable {file front back gap : String}

/-- A text with layout between two of its tokens, before the first or after the last is compiled to
what the text is compiled to without, in the same order. The place is not directly behind a word for
negation that is a name, as only the point behind it makes it one. -/
theorem compile_insert (h : compile settings (.ofText file (front ++ back)) = .ok fs)
    (hplace : Token.Separates (byteLength front.toList) (Token.scan (front ++ back).toList))
    (hgap : Token.IsLayout gap.toList) (file' : String) :
    ∃ gs, compile settings (.ofText file' (front ++ gap ++ back)) = .ok gs ∧
      gs.map Formula.written = fs.map Formula.written ∧ (gs == fs) = true := by
  obtain ⟨sts, hstatements, herrors, rfl⟩ := compile_eq_ok_iff.1 h
  obtain ⟨hknown, hprogram⟩ := Source.statements_eq_ok_iff.1 hstatements
  have hchars : (Source.ofText file (front ++ back)).chars = front.toList ++ back.toList :=
    String.toList_append
  have hchars' : (Source.ofText file' (front ++ gap ++ back)).chars =
      front.toList ++ (gap.toList ++ back.toList) := by
    simp only [Source.ofText, String.toList_append, List.append_assoc]
  rw [hchars] at hknown hprogram
  rw [String.toList_append, Token.scan] at hplace
  rw [← Nat.zero_add (byteLength front.toList)] at hplace
  have hwords := HasWords.insert hknown hplace hgap
  rw [← hchars'] at hwords
  obtain ⟨gs, hgs, hwritten⟩ := compile_of_words hprogram (Token.nodup_lexemes _) herrors hwords
  exact ⟨gs, hgs, hwritten, Formula.list_beq_of_written hwritten⟩

/-- A comment between two facts, at a place where two tokens touch. -/
theorem compile_insert_comment :
    ∃ fs, compile {} (.ofText "a" ("p(-1)" ++ "q:r(2e5)")) = .ok fs ∧
      Token.Separates (byteLength "p(-1)".toList)
        (Token.scan ("p(-1)" ++ "q:r(2e5)").toList) ∧
      Token.IsLayout "# s(3)\n".toList ∧
      ∃ gs, compile {} (.ofText "b" ("p(-1)" ++ "# s(3)\n" ++ "q:r(2e5)")) = .ok gs ∧
        gs.map Formula.written = fs.map Formula.written ∧ (gs == fs) = true := by
  have hcompiles : ∃ fs, compile {} (.ofText "a" ("p(-1)" ++ "q:r(2e5)")) = .ok fs :=
    Compile.exists_eq_ok (by decide +kernel)
  obtain ⟨fs, hcompile⟩ := hcompiles
  have hplace : Token.Separates (byteLength "p(-1)".toList)
      (Token.scan ("p(-1)" ++ "q:r(2e5)").toList) := by
    decide +kernel
  have hgap : Token.IsLayout "# s(3)\n".toList :=
    .inr ⟨"# s(3)".toList, ⟨['#'], by decide, " s(3)".toList, by decide +kernel, rfl⟩, rfl⟩
  exact ⟨fs, hcompile, hplace, hgap, compile_insert hcompile hplace hgap "b"⟩

/-- A space between a word for negation that is a name and its point leaves no policy. -/
theorem not_compile_insert_beforePoint :
    (∃ fs, compile {} (.ofText "<input>" ("not" ++ ".")) = .ok fs) ∧
      Token.IsLayout " ".toList ∧
      ∀ gs, compile {} (.ofText "<input>" ("not" ++ " " ++ ".")) ≠ .ok gs := by
  have hgap : " ".toList = [' '] := rfl
  refine ⟨Compile.exists_eq_ok (by decide +kernel), .inl ?_, Compile.ne_ok (by decide +kernel)⟩
  exact hgap ▸ List.forall_mem_singleton.2 rfl

end Insertion

end DatalogPolicy

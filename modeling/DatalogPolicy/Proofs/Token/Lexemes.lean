import DatalogPolicy.Proofs.Token.Match
import Mathlib.Data.List.Nodup

/-!
# What lexemes are made of

The class of a lexeme accepts its text: the class that supplied it does, and a word for
negation that is read as an identifier is accepted as one as well.
-/

namespace DatalogPolicy

open Pattern TextClass

/-- The pattern of the class of a lexeme accepts its text. -/
def Lexeme.IsAccepted (x : Lexeme) : Prop :=
  ∃ p, (TextClass.terminal x.terminal, p) ∈ TextClass.all ∧ p.Matches x.text.toList

namespace TextClass

variable {c : Char} {rest : List Char} {cls : TextClass} {n : Nat}

/-- A class has one pattern. -/
theorem eq_of_mem_all {p q : Pattern} (hp : (cls, p) ∈ all) (hq : (cls, q) ∈ all) : p = q := by
  have hnodup : (all.map Prod.fst).Nodup := by decide
  exact congrArg Prod.snd (List.inj_on_of_nodup_map hnodup hp hq rfl)

theorem matches_of_longest? (h : longest? c rest = some (cls, n)) :
    ∃ p, (cls, p) ∈ all ∧ p.Matches (c :: rest.take n) := by
  obtain ⟨before, p, after, hall, hfound, -⟩ := isFirstLongest_of_longest? h
  refine ⟨p, hall ▸ List.mem_append_right before List.mem_cons_self, ?_⟩
  exact (matches_derivative p).1 (longest?_eq_some_iff.1 hfound).accepted

/-- A word for negation of letters is accepted as an identifier. -/
theorem matches_identifier_of_negation {p : Pattern} (hp : (.terminal .negation, p) ∈ all)
    (hmatch : p.Matches (c :: rest)) (hc : isNameStart c = true) :
    identifierPattern.Matches (c :: rest) := by
  have hpattern : p = either (exactly ['n', 'o', 't'])
      (either (exactly ['N', 'O', 'T']) (char '!')) := by
    simpa [all] using hp
  rw [hpattern, matches_either, matches_either, matches_exactly, matches_exactly,
    matches_char] at hmatch
  rcases hmatch with hnot | hupper | hmark
  · rw [hnot]
    decide
  · rw [hupper]
    decide
  · cases hmark
    exact absurd hc (by decide)

theorem matches_of_match? (h : match? c rest = some (cls, n)) :
    ∃ p, (cls, p) ∈ all ∧ p.Matches (c :: rest.take n) := by
  obtain ⟨⟨found, n⟩, hlongest, heq⟩ := Option.map_eq_some_iff.1 h
  cases heq
  obtain ⟨p, hp, hmatch⟩ := matches_of_longest? hlongest
  rw [classify]
  split
  · next hname =>
      obtain ⟨rfl, hc, -⟩ := hname
      exact ⟨identifierPattern, by simp [all], matches_identifier_of_negation hp hmatch hc⟩
  · exact ⟨p, hp, hmatch⟩

end TextClass

theorem Lexeme.IsAccepted.matches_pattern {x : Lexeme} (h : x.IsAccepted) {t : Terminal}
    (ht : x.terminal = t) {p : Pattern} (hp : (.terminal t, p) ∈ all) :
    p.Matches x.text.toList := by
  obtain ⟨q, hq, hmatch⟩ := h
  exact eq_of_mem_all (ht ▸ hq) hp ▸ hmatch

namespace Token

theorem isAccepted_scanFrom (offset : Nat) (cs : List Char) :
    ∀ x ∈ (scanFrom offset cs).filterMap (·.lexeme?), x.IsAccepted := by
  fun_induction scanFrom offset cs with
  | case1 => nofun
  | case2 offset c rest found length text stop tokens token t n hfound ih =>
      refine List.forall_mem_cons.2 ⟨?_, ih⟩
      obtain ⟨p, hp, hmatch⟩ := matches_of_match? hfound
      refine ⟨p, hp, ?_⟩
      have htext : (String.ofList text).toList = c :: rest.take n := by
        rw [String.toList_ofList]
        show c :: rest.take (found.elim (unknownLength c rest) (·.2)) = _
        rw [hfound]
        rfl
      exact htext ▸ hmatch
  | case3 offset c rest found length text stop tokens token n hfound ih => exact ih
  | case4 offset c rest found length text stop n hfound tokens ih => exact ih
  | case5 offset c rest found length text stop tokens token hfound ih => exact ih

/-- The class of each lexeme of a text accepts it. -/
theorem isAccepted_scan (cs : List Char) :
    ∀ x ∈ (scan cs).filterMap (·.lexeme?), x.IsAccepted :=
  isAccepted_scanFrom 0 cs

end Token

end DatalogPolicy

import DatalogPolicy.Proofs.Text.Pattern
import DatalogPolicy.Token.Scan
import Mathlib.Data.List.Induction

/-!
# Which class reads a word

A word is read as a token when its class accepts it, no earlier class does, and no
class accepts it together with characters that follow. The first character of a word
tells which classes come into question, and for each of them what may follow.
-/

namespace DatalogPolicy.TextClass

open Pattern

section Best

variable {c : Char} {rest : List Char} {cls : TextClass} {p : Pattern} {n : Nat}

/-- One class after the others: its match replaces a shorter one. -/
def challenge (c : Char) (rest : List Char) (best : Option (TextClass × Nat))
    (entry : TextClass × Pattern) : Option (TextClass × Nat) :=
  match ((entry.2.derivative c).longest? rest).map (entry.1, ·), best with
  | none, best => best
  | some found, none => some found
  | some found, some best => some (better best found)

theorem longest?_eq_foldl : longest? c rest = all.foldl (challenge c rest) none := rfl

theorem challenge_of_none {best : Option (TextClass × Nat)} {e : TextClass × Pattern}
    (h : (e.2.derivative c).longest? rest = none) : challenge c rest best e = best := by
  unfold challenge
  rw [h]
  rfl

theorem challenge_of_some {best : Option (TextClass × Nat)} {e : TextClass × Pattern}
    (h : (e.2.derivative c).longest? rest = some n) :
    challenge c rest best e = some (best.elim (e.1, n) (better · (e.1, n))) := by
  unfold challenge
  rw [h]
  cases best <;> rfl

/-- The first of some classes with the longest match. -/
def IsFirstLongest (c : Char) (rest : List Char) (entries : List (TextClass × Pattern))
    (found : TextClass × Nat) : Prop :=
  ∃ before p after, entries = before ++ (found.1, p) :: after ∧
    (p.derivative c).longest? rest = some found.2 ∧
    (∀ e ∈ before, ∀ m, (e.2.derivative c).longest? rest = some m → m < found.2) ∧
    ∀ e ∈ after, ∀ m, (e.2.derivative c).longest? rest = some m → m ≤ found.2

theorem IsFirstLongest.le {entries : List (TextClass × Pattern)} {found : TextClass × Nat}
    (h : IsFirstLongest c rest entries found) :
    ∀ e ∈ entries, ∀ m, (e.2.derivative c).longest? rest = some m → m ≤ found.2 := by
  obtain ⟨before, p, after, rfl, hfound, hbefore, hafter⟩ := h
  refine List.forall_mem_append.2 ⟨fun e he m hm => Nat.le_of_lt (hbefore e he m hm), ?_⟩
  refine List.forall_mem_cons.2 ⟨fun m hm => ?_, hafter⟩
  exact Nat.le_of_eq (Option.some.inj (hm.symm.trans hfound))

theorem IsFirstLongest.exists_find? {entries : List (TextClass × Pattern)}
    {found : TextClass × Nat} (h : IsFirstLongest c rest entries found) :
    ∃ p, entries.find? (fun e => (e.2.derivative c).longest? rest = some found.2) =
      some (found.1, p) := by
  obtain ⟨before, p, after, rfl, hfound, hbefore, -⟩ := h
  refine ⟨p, List.find?_eq_some_iff_append.2
    ⟨decide_eq_true hfound, before, after, rfl, fun e he => ?_⟩⟩
  rw [Bool.not_eq_true', decide_eq_false_iff_not]
  exact fun hm => Nat.lt_irrefl _ (hbefore e he found.2 hm)

theorem IsFirstLongest.unique {entries : List (TextClass × Pattern)} {a b : TextClass × Nat}
    (ha : IsFirstLongest c rest entries a) (hb : IsFirstLongest c rest entries b) : a = b := by
  obtain ⟨p, hp⟩ := ha.exists_find?
  obtain ⟨q, hq⟩ := hb.exists_find?
  have hpa : (p.derivative c).longest? rest = some a.2 := by simpa using List.find?_some hp
  have hqb : (q.derivative c).longest? rest = some b.2 := by simpa using List.find?_some hq
  have hn : a.2 = b.2 := Nat.le_antisymm (hb.le _ (List.mem_of_find?_eq_some hp) _ hpa)
    (ha.le _ (List.mem_of_find?_eq_some hq) _ hqb)
  rw [hn, hq] at hp
  exact Prod.ext (congrArg Prod.fst (Option.some.inj hp)).symm hn

/-- A class that comes last wins if its match is longer than all others. -/
theorem IsFirstLongest.concat_of_lt {entries : List (TextClass × Pattern)}
    {e : TextClass × Pattern} (hn : (e.2.derivative c).longest? rest = some n)
    (h : ∀ e' ∈ entries, ∀ m, (e'.2.derivative c).longest? rest = some m → m < n) :
    IsFirstLongest c rest (entries ++ [e]) (e.1, n) :=
  ⟨entries, e.2, [], rfl, hn, h, nofun⟩

/-- A class that comes last changes nothing if its match is no longer than another. -/
theorem IsFirstLongest.concat_of_le {entries : List (TextClass × Pattern)}
    {e : TextClass × Pattern} {found : TextClass × Nat} (h : IsFirstLongest c rest entries found)
    (he : ∀ m, (e.2.derivative c).longest? rest = some m → m ≤ found.2) :
    IsFirstLongest c rest (entries ++ [e]) found := by
  obtain ⟨before, p, after, rfl, hfound, hbefore, hafter⟩ := h
  refine ⟨before, p, after ++ [e], by rw [List.append_assoc, List.cons_append], hfound, hbefore, ?_⟩
  exact List.forall_mem_append.2 ⟨hafter, List.forall_mem_singleton.2 he⟩

/-- The first of the classes with the longest match is found, and none where no class has one. -/
theorem foldl_challenge_spec (entries : List (TextClass × Pattern)) :
    (entries.foldl (challenge c rest) none = none →
      ∀ e ∈ entries, (e.2.derivative c).longest? rest = none) ∧
    ∀ found ∈ entries.foldl (challenge c rest) none, IsFirstLongest c rest entries found := by
  induction entries using List.reverseRecOn with
  | nil => exact ⟨fun _ => nofun, nofun⟩
  | append_singleton entries e ih =>
      obtain ⟨hnone, hsome⟩ := ih
      rw [List.foldl_append, List.foldl_cons, List.foldl_nil]
      generalize entries.foldl (challenge c rest) none = best at hnone hsome
      cases hlongest : (e.2.derivative c).longest? rest with
      | none =>
          rw [challenge_of_none hlongest]
          constructor
          · exact fun h => List.forall_mem_append.2 ⟨hnone h, List.forall_mem_singleton.2 hlongest⟩
          · intro found hfound
            refine (hsome found hfound).concat_of_le fun m hm => ?_
            cases hlongest.symm.trans hm
      | some n =>
          rw [challenge_of_some hlongest]
          refine ⟨nofun, ?_⟩
          rintro found ⟨⟩
          cases best with
          | none =>
              refine .concat_of_lt hlongest fun e' he' m hm => ?_
              cases (hnone rfl e' he').symm.trans hm
          | some best =>
              have hbest := hsome best rfl
              rw [Option.elim_some, better]
              split
              · next hlt =>
                  exact .concat_of_lt hlongest fun e' he' m hm =>
                    Nat.lt_of_le_of_lt (hbest.le e' he' m hm) hlt
              · next hge =>
                  refine hbest.concat_of_le fun m hm => ?_
                  cases hlongest.symm.trans hm
                  exact Nat.le_of_not_lt hge

theorem isFirstLongest_of_longest? {found : TextClass × Nat} (h : longest? c rest = some found) :
    IsFirstLongest c rest all found :=
  (foldl_challenge_spec all).2 found (longest?_eq_foldl.symm.trans h)

/-- Where nothing is found, no class accepts a text with the first character. -/
theorem not_matches_of_longest? (h : longest? c rest = none) {e : TextClass × Pattern}
    (he : e ∈ all) (m : Nat) : ¬ e.2.Matches (c :: rest.take m) := by
  have hnone := (foldl_challenge_spec all).1 (longest?_eq_foldl.symm.trans h) e he
  exact fun hmatch => longest?_eq_none_iff.1 hnone m ((matches_derivative e.2).2 hmatch)

/-- The first class with the longest match is found. -/
theorem longest?_eq_some {before after : List (TextClass × Pattern)}
    (hall : all = before ++ (cls, p) :: after) (hn : n ≤ rest.length)
    (hp : p.Matches (c :: rest.take n))
    (hbefore : ∀ e ∈ before, ¬ e.2.Matches (c :: rest.take n))
    (hmax : ∀ e ∈ all, ∀ m, m ≤ rest.length → e.2.Matches (c :: rest.take m) → m ≤ n) :
    longest? c rest = some (cls, n) := by
  have hmem : (cls, p) ∈ all := by rw [hall]; simp
  have hle (e : TextClass × Pattern) (he : e ∈ all) (m : Nat)
      (h : (e.2.derivative c).longest? rest = some m) : m ≤ n :=
    have hm := longest?_eq_some_iff.1 h
    hmax e he m hm.le ((matches_derivative e.2).1 hm.accepted)
  have hfirst : IsFirstLongest c rest all (cls, n) := by
    refine ⟨before, p, after, hall, ?_, fun e he m hm => ?_,
      fun e he => hle e (by rw [hall]; simp [he])⟩
    · refine longest?_eq_some_iff.2 ⟨hn, (matches_derivative p).2 hp, fun m hm hmatch => ?_⟩
      exact hmax (cls, p) hmem m hm ((matches_derivative p).1 hmatch)
    · apply Nat.lt_of_le_of_ne (hle e (by rw [hall]; simp [he]) m hm)
      rintro rfl
      exact hbefore e he ((matches_derivative e.2).1 (longest?_eq_some_iff.1 hm).accepted)
  cases hlongest : longest? c rest with
  | none => exact absurd hp (not_matches_of_longest? hlongest hmem n)
  | some found => rw [(isFirstLongest_of_longest? hlongest).unique hfirst]

end Best

/-- A word in front of a text is read as a token of a class. -/
def Reads (cls : TextClass) (word tail : List Char) : Prop :=
  ∃ c rest, word = c :: rest ∧ match? c (rest ++ tail) = some (cls, rest.length)

/-- A word is read when its class is the first to accept it and none accepts more. A word for
negation must not stand before a point. -/
theorem reads_of_matches {cls : TextClass} {p : Pattern} {word tail : List Char} (i : Nat)
    (hget : all[i]? = some (cls, p)) (hne : word ≠ []) (hp : p.Matches word)
    (hbefore : ∀ e ∈ all.take i, ¬ e.2.Matches word)
    (hmax : ∀ e ∈ all, ∀ d more, d :: more <+: tail → ¬ e.2.Matches (word ++ d :: more))
    (hpoint : cls = .terminal .negation → tail.head? ≠ some '.') : Reads cls word tail := by
  have hall : all = all.take i ++ (cls, p) :: all.drop (i + 1) := by
    obtain ⟨hi, hentry⟩ := List.getElem?_eq_some_iff.1 hget
    rw [← hentry, List.getElem_cons_drop, List.take_append_drop]
  cases word with
  | nil => exact absurd rfl hne
  | cons c rest =>
      have htake : (rest ++ tail).take rest.length = rest := List.take_left
      have hlongest : longest? c (rest ++ tail) = some (cls, rest.length) := by
        refine longest?_eq_some hall (by simp) (by rwa [htake]) (by rwa [htake]) ?_
        intro e he m hm hmatch
        apply Nat.le_of_not_lt
        intro hlonger
        obtain ⟨k, rfl⟩ := Nat.exists_eq_add_of_lt hlonger
        rw [Nat.add_assoc, List.take_length_add_append] at hmatch
        cases tail with
        | nil =>
            rw [List.append_nil] at hm
            omega
        | cons d tail =>
            exact hmax e he d (tail.take k)
              (List.cons_prefix_cons.2 ⟨rfl, List.take_prefix k tail⟩) hmatch
      have hclass : classify c (rest ++ tail) (cls, rest.length) = cls := by
        rw [classify, if_neg]
        rintro ⟨hneg, -, hnext⟩
        rw [List.getElem?_append_right (Nat.le_refl _), Nat.sub_self, ← List.head?_eq_getElem?]
          at hnext
        exact hpoint hneg hnext
      exact ⟨c, rest, rfl, by rw [match?, hlongest, Option.map_some, hclass]⟩

section Words

variable {tail : List Char}

/-- A fixed word is read when no class accepts more than it before what follows. -/
theorem reads_of_derivatives {cls : TextClass} {p : Pattern} {word : List Char} (i : Nat)
    (hget : all[i]? = some (cls, p)) (hne : word ≠ [])
    (hp : (p.derivatives word).acceptsEmpty = true)
    (hbefore : ((all.take i).any fun e => (e.2.derivatives word).acceptsEmpty) = false)
    (hmax : ∀ d ∈ tail.head?, (all.any fun e => (e.2.derivatives word).first d) = false)
    (hpoint : cls = .terminal .negation → tail.head? ≠ some '.') : Reads cls word tail := by
  refine reads_of_matches i hget hne (acceptsEmpty_derivatives.1 hp) ?_ ?_ hpoint
  · intro e he hmatch
    exact List.any_eq_false.1 hbefore e he (acceptsEmpty_derivatives.2 hmatch)
  · intro e he d more hprefix hmatch
    have hhead : tail.head? = some d := by
      obtain ⟨t, rfl⟩ := hprefix
      rfl
    exact List.any_eq_false.1 (hmax d hhead) e he (first_of_matches (matches_derivatives.2 hmatch))

theorem reads_openParen : Reads (.terminal .openParen) ['('] tail :=
  reads_of_derivatives 8 rfl nofun rfl rfl (fun _ _ => rfl) nofun

theorem reads_closeParen : Reads (.terminal .closeParen) [')'] tail :=
  reads_of_derivatives 9 rfl nofun rfl rfl (fun _ _ => rfl) nofun

theorem reads_openBracket : Reads (.terminal .openBracket) ['['] tail :=
  reads_of_derivatives 10 rfl nofun rfl rfl (fun _ _ => rfl) nofun

theorem reads_closeBracket : Reads (.terminal .closeBracket) [']'] tail :=
  reads_of_derivatives 11 rfl nofun rfl rfl (fun _ _ => rfl) nofun

theorem reads_comma : Reads (.terminal .comma) [','] tail :=
  reads_of_derivatives 7 rfl nofun rfl rfl (fun _ _ => rfl) nofun

theorem reads_plus : Reads (.terminal .plus) ['+'] tail :=
  reads_of_derivatives 13 rfl nofun rfl rfl (fun _ _ => rfl) nofun

theorem reads_implies : Reads (.terminal .implies) [':', '-'] tail :=
  reads_of_derivatives 5 rfl nofun rfl rfl (fun _ _ => rfl) nofun

/-- A colon is read unless a minus follows. -/
theorem reads_colon (h : tail.head? ≠ some '-') : Reads (.terminal .colon) [':'] tail := by
  refine reads_of_derivatives 6 rfl nofun rfl rfl (fun d hd => ?_) nofun
  have hne : d ≠ '-' := fun heq => h (heq ▸ hd)
  have hfirst : (all.any fun e => (e.2.derivatives [':']).first d) = (decide (d = '-') || false) :=
    rfl
  rw [hfirst, decide_eq_false hne, Bool.or_false]

/-- A minus is read unless a digit follows. -/
theorem reads_minus (h : ∀ d ∈ tail.head?, d.isDigit = false) :
    Reads (.terminal .minus) ['-'] tail := by
  refine reads_of_derivatives 14 rfl nofun rfl rfl (fun d hd => ?_) nofun
  have hfirst : (all.any fun e => (e.2.derivatives ['-']).first d) =
      ((d.isDigit || false) || ((d.isDigit || false) || false || false)) := rfl
  rw [hfirst, h d hd]
  rfl

/-- A word for negation is read unless it may be the front of an identifier. -/
theorem reads_not (h : ∀ d ∈ tail.head?, isNamePart d = false ∧ d ≠ '.') :
    Reads (.terminal .negation) ['n', 'o', 't'] tail := by
  refine reads_of_derivatives 0 rfl nofun rfl rfl (fun d hd => ?_)
    fun _ hpoint => (h _ hpoint).2 rfl
  have hfirst : (all.any fun e => (e.2.derivatives ['n', 'o', 't']).first d) =
      ((isNamePart d || (decide (d = '.') || false)) || false) := rfl
  rw [hfirst, (h d hd).1, decide_eq_false (h d hd).2]
  rfl

/-- A word is read when no class that may begin like it may contain what follows. -/
theorem reads_of_unused {cls : TextClass} {p : Pattern} {c : Char} {rest : List Char} (i : Nat)
    (hget : all[i]? = some (cls, p)) (hp : p.Matches (c :: rest))
    (hbefore : ∀ e ∈ all.take i, ¬ e.2.Matches (c :: rest))
    (hmax : ∀ d ∈ tail.head?, (all.any fun e => e.2.first c && e.2.uses d) = false)
    (hpoint : cls = .terminal .negation → tail.head? ≠ some '.') :
    Reads cls (c :: rest) tail := by
  refine reads_of_matches i hget nofun hp hbefore ?_ hpoint
  intro e he d more hprefix hmatch
  have hhead : tail.head? = some d := by
    obtain ⟨t, rfl⟩ := hprefix
    rfl
  have hfirst : e.2.first c = true := first_of_matches hmatch
  have huses : e.2.uses d = true :=
    uses_of_matches hmatch d (List.mem_append_right _ List.mem_cons_self)
  apply List.any_eq_false.1 (hmax d hhead) e he
  rw [hfirst, huses, Bool.and_self]

end Words

end DatalogPolicy.TextClass

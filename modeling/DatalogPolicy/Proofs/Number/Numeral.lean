import DatalogPolicy.Proofs.Number.Layout
import DatalogPolicy.Proofs.Token.Lexemes

/-!
# Every numeral denotes a number

The texts that are scanned as integers or as floating-point numerals are read as numbers of
the 64-bit format: their digits are found behind the sign, and nothing is left behind the
power of ten.
-/

namespace DatalogPolicy

open Pattern TextClass

namespace Decimal

variable {sign whole rest cs : List Char}

/-- An optional sign is split from the digits behind it. -/
theorem exists_splitSign (hsign : sign = [] ∨ sign = ['-'] ∨ sign = ['+']) (hne : whole ≠ [])
    (hwhole : ∀ c ∈ whole, c.isDigit = true) :
    ∃ negative, splitSign (sign ++ (whole ++ rest)) = (negative, whole ++ rest) := by
  rcases hsign with rfl | rfl | rfl
  · rw [List.nil_append]
    exact ⟨false, splitSign_of_isDigit hne hwhole⟩
  · exact ⟨true, rfl⟩
  · exact ⟨false, rfl⟩

section Powers

/-- A power of ten that is scanned is read. -/
theorem exists_readExponent? (h : (optional exponentPattern).Matches cs) :
    ∃ e, readExponent? cs = some e := by
  rcases matches_optional.1 h with h | rfl
  · obtain ⟨mark, power, rfl, hmark, hpower⟩ := matches_sequence.1 h
    obtain ⟨sign, digits, rfl, hsign, hdigits⟩ := matches_sequence.1 hpower
    obtain ⟨c, hc, rfl⟩ := matches_one.1 hmark
    obtain ⟨hne, hall⟩ := matches_repeated.1 hdigits
    have hsign : sign = [] ∨ sign = ['-'] ∨ sign = ['+'] := by
      rcases matches_optional.1 hsign with hone | hnil
      · obtain ⟨d, hd, rfl⟩ := matches_one.1 hone
        simpa using hd
      · exact .inl hnil
    obtain ⟨negative, hsplit⟩ : ∃ negative, splitSign (sign ++ digits) = (negative, digits) := by
      rw [← List.append_nil digits]
      exact exists_splitSign hsign hne hall
    rw [List.singleton_append, readExponent?, if_pos (by simpa using hc), hsplit]
    exact ⟨_, if_pos ⟨hne, List.all_eq_true.2 hall⟩⟩
  · exact ⟨0, rfl⟩

theorem head_of_matches_power (h : (optional exponentPattern).Matches cs) :
    ∀ c ∈ cs.head?, c = 'e' ∨ c = 'E' := by
  rcases matches_optional.1 h with h | rfl
  · intro c hc
    rw [← List.append_nil cs] at hc
    simpa [exponentPattern, first, acceptsEmpty] using first_of_mem_head rfl h c hc
  · exact fun c hc => absurd hc (Option.not_mem_none c)

theorem isDigit_of_matches_power (h : (optional exponentPattern).Matches cs) :
    ∀ c ∈ cs.head?, c.isDigit = false := by
  intro c hc
  rcases head_of_matches_power h c hc with rfl | rfl <;> rfl

/-- Digits and a power of ten that may be missing are read. -/
theorem exists_readUnsigned?_append (hne : whole ≠ []) (hwhole : ∀ c ∈ whole, c.isDigit = true)
    (h : (optional exponentPattern).Matches rest) :
    ∃ d, readUnsigned? (whole ++ rest) = some d := by
  obtain ⟨e, he⟩ := exists_readExponent? h
  have hpoint : rest.head? ≠ some '.' := fun hhead => by
    simpa using head_of_matches_power h '.' hhead
  rw [readUnsigned?_append hne hwhole (isDigit_of_matches_power h) hpoint, he]
  exact ⟨_, rfl⟩

/-- Digits, digits behind a point, and a power of ten that may be missing are read. -/
theorem exists_readUnsigned?_point {fraction : List Char} (hne : whole ≠ [])
    (hwhole : ∀ c ∈ whole, c.isDigit = true) (hfraction : ∀ c ∈ fraction, c.isDigit = true)
    (h : (optional exponentPattern).Matches rest) :
    ∃ d, readUnsigned? (whole ++ '.' :: (fraction ++ rest)) = some d := by
  obtain ⟨e, he⟩ := exists_readExponent? h
  rw [readUnsigned?_point hne hwhole hfraction (isDigit_of_matches_power h), he]
  exact ⟨_, rfl⟩

end Powers

end Decimal

namespace Binary64

open Decimal

variable {text : String}

/-- What is read without its sign is read with it. -/
theorem exists_read? {sign whole rest : List Char} (htext : text.toList = sign ++ (whole ++ rest))
    (hsign : sign = ['-'] ∨ sign = []) (hne : whole ≠ [])
    (hwhole : ∀ c ∈ whole, c.isDigit = true)
    (h : ∃ d, readUnsigned? (whole ++ rest) = some d) : ∃ x, read? text = some x := by
  obtain ⟨d, hd⟩ := h
  have hsign : sign = [] ∨ sign = ['-'] ∨ sign = ['+'] := hsign.elim (.inr ∘ .inl) .inl
  obtain ⟨negative, hsplit⟩ := exists_splitSign hsign hne hwhole
  rw [read?, htext, hsplit]
  simp only [hd, Option.map_some]
  split
  · exact ⟨_, rfl⟩
  · split <;> exact ⟨_, rfl⟩

/-- Every integer denotes a number. -/
theorem exists_read?_of_integer (h : integerPattern.Matches text.toList) :
    ∃ x, read? text = some x := by
  obtain ⟨sign, whole, htext, hsign, hdigits⟩ := matches_sequence.1 h
  obtain ⟨hne, hwhole⟩ := matches_repeated.1 hdigits
  rw [matches_optional, matches_char] at hsign
  rw [← List.append_nil whole] at htext
  exact exists_read? htext hsign hne hwhole
    (exists_readUnsigned?_append hne hwhole (matches_optional.2 (.inr rfl)))

/-- Every floating-point numeral denotes a number. -/
theorem exists_read?_of_float (h : floatPattern.Matches text.toList) :
    ∃ x, read? text = some x := by
  obtain ⟨integer, rest, htext, hinteger, hrest⟩ := matches_sequence.1 h
  obtain ⟨sign, whole, rfl, hsign, hdigits⟩ := matches_sequence.1 hinteger
  obtain ⟨hne, hwhole⟩ := matches_repeated.1 hdigits
  rw [matches_optional, matches_char] at hsign
  rw [List.append_assoc] at htext
  refine exists_read? htext hsign hne hwhole ?_
  rcases matches_either.1 hrest with hpointed | hpower
  · obtain ⟨pointed, power, rfl, hpointed, hpower⟩ := matches_sequence.1 hpointed
    obtain ⟨point, fraction, rfl, hpoint, hdigits⟩ := matches_sequence.1 hpointed
    rw [matches_char.1 hpoint, List.append_assoc, List.singleton_append]
    exact exists_readUnsigned?_point hne hwhole (matches_repeated.1 hdigits).2 hpower
  · exact exists_readUnsigned?_append hne hwhole (matches_optional.2 (.inl hpower))

end Binary64

/-- A numeral that is scanned denotes a number. -/
theorem Lexeme.IsAccepted.exists_number {x : Lexeme} (h : x.IsAccepted)
    (hterminal : x.terminal = .integer ∨ x.terminal = .float) :
    ∃ n, Binary64.read? x.text = some n := by
  rcases hterminal with hinteger | hfloat
  · exact Binary64.exists_read?_of_integer (h.matches_pattern hinteger (by simp [all]))
  · exact Binary64.exists_read?_of_float (h.matches_pattern hfloat (by simp [all]))

end DatalogPolicy

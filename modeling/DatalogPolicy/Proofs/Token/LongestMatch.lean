import DatalogPolicy.Proofs.Token.Classes
import DatalogPolicy.Proofs.Token.Lexemes

/-!
# The class that supplies a word

The word at the front of a text is the longest front that a class accepts, and its class is
the only one that accepts it. Words for negation made of letters are identifiers as well:
they are negations unless a point follows them directly.
-/

namespace DatalogPolicy.TextClass

open Pattern

/-- The words for negation that are made of letters. -/
def IsNegationWord (word : List Char) : Prop :=
  word = ['n', 'o', 't'] ∨ word = ['N', 'O', 'T']

instance (word : List Char) : Decidable (IsNegationWord word) :=
  inferInstanceAs (Decidable (_ ∨ _))

/-- Some class accepts the front of a text, which is not empty. -/
def AcceptsFront (cs : List Char) : Prop :=
  ∃ e ∈ all, ∃ front, front <+: cs ∧ front ≠ [] ∧ e.2.Matches front

/-- A class supplies the word at the front of a text, `tail` being the rest of the text. -/
structure Supplies (cls : TextClass) (word tail : List Char) : Prop where
  ne : word ≠ []
  accepted : ∃ p, (cls, p) ∈ all ∧ p.Matches word
  longest : ∀ e ∈ all, ∀ front, front <+: word ++ tail → e.2.Matches front →
    front.length ≤ word.length
  /-- No other class accepts the word, unless it is a word for negation. -/
  only : ∀ e ∈ all, e.2.Matches word → e.1 = cls ∨ IsNegationWord word
  /-- Of the two classes that accept a word for negation, what follows decides. -/
  negation : IsNegationWord word →
    cls = .terminal (if tail.head? = some '.' then .identifier else .negation)

section Overlap

variable {c : Char} {rest word : List Char} {cls : TextClass} {p : Pattern}

/-- The class of a word, as its characters tell it. A word for negation made of letters counts as
an identifier. -/
def classOf : List Char → TextClass
  | [] => .blank
  | c :: rest =>
      if isNameStart c then .terminal .identifier
      else if isNumeralStart c then
        if c :: rest = ['-'] then .terminal .minus
        else if (c :: rest).all isNumeralStart then .terminal .integer
        else .terminal .float
      else if c = '"' ∨ c = '\x27' then .terminal .string
      else if c = ':' then if rest = [] then .terminal .colon else .terminal .implies
      else if c = '!' then .terminal .negation
      else if c = ',' then .terminal .comma
      else if c = '(' then .terminal .openParen
      else if c = ')' then .terminal .closeParen
      else if c = '[' then .terminal .openBracket
      else if c = ']' then .terminal .closeBracket
      else if c = '=' then .terminal .equals
      else if c = '+' then .terminal .plus
      else if c = ';' then .terminal .semicolon
      else if c = '.' then .terminal .period
      else if c = '/' ∨ c = '#' then .comment
      else .blank

/-- Where the first character tells the class, the words that a pattern accepts are of it. -/
theorem classOf_of_first (hempty : p.acceptsEmpty = false)
    (hfirst : ∀ c rest, p.first c = true → p.Matches (c :: rest) → classOf (c :: rest) = cls)
    (h : p.Matches word) : classOf word = cls := by
  cases word with
  | nil => exact absurd ((acceptsEmpty_iff p).2 h) (Bool.eq_false_iff.1 hempty)
  | cons c rest => exact hfirst c rest (first_of_matches h) h

theorem classOf_identifier : identifierPattern.Matches word →
    classOf word = .terminal .identifier := by
  refine classOf_of_first rfl fun c rest hc _ => if_pos ?_
  simpa only [identifierPattern, first, acceptsEmpty, Bool.false_and, Bool.or_false] using hc

theorem classOf_numeral (hc : isNumeralStart c = true) (hminus : c :: rest ≠ ['-']) :
    classOf (c :: rest) =
      if (c :: rest).all isNumeralStart then .terminal .integer else .terminal .float := by
  rw [classOf, if_neg (Bool.eq_false_iff.1 (isNameStart_of_isNumeralStart hc)), if_pos hc,
    if_neg hminus]

theorem uses_integerPattern (c : Char) : integerPattern.uses c = isNumeralStart c := by
  simp [integerPattern, Pattern.optional, Pattern.repeated, char, uses, isNumeralStart]

theorem classOf_integer : integerPattern.Matches word → classOf word = .terminal .integer := by
  refine classOf_of_first rfl fun c rest _ h => ?_
  have hminus : c :: rest ≠ ['-'] := fun heq => absurd (heq ▸ h) (by decide)
  rw [classOf_numeral (isNumeralStart_of_matches h) hminus, if_pos]
  exact List.all_eq_true.2 fun d hd => uses_integerPattern d ▸ uses_of_matches h d hd

theorem classOf_float : floatPattern.Matches word → classOf word = .terminal .float := by
  refine classOf_of_first rfl fun c rest hc h => ?_
  have hstart : isNumeralStart c = true := by
    simpa [floatPattern, integerPattern, first, char, Pattern.optional, Pattern.repeated,
      acceptsEmpty, isNumeralStart] using hc
  have hminus : c :: rest ≠ ['-'] := fun heq => absurd (heq ▸ h) (by decide)
  rw [classOf_numeral hstart hminus, if_neg]
  -- the point or the letter before the power of ten stands in no integer
  obtain ⟨d, hd, hmark⟩ := exists_mark_of_float h
  rw [uses_integerPattern] at hmark
  exact fun hall => Bool.false_ne_true (hmark.symm.trans (List.all_eq_true.1 hall d hd))

theorem classOf_string : (either (quotedPattern '"') (quotedPattern '\x27')).Matches word →
    classOf word = .terminal .string := by
  refine classOf_of_first rfl fun c rest hc _ => ?_
  have hquote : c = '"' ∨ c = '\x27' := by
    simpa [first, quotedPattern, char, acceptsEmpty] using hc
  rcases hquote with rfl | rfl <;> rfl

theorem classOf_comment : (either (linePattern ['/', '/']) (linePattern ['#'])).Matches word →
    classOf word = .comment := by
  refine classOf_of_first rfl fun c rest hc _ => ?_
  have hopening : c = '/' ∨ c = '#' := by
    simpa [first, linePattern, exactly, char, acceptsEmpty] using hc
  rcases hopening with rfl | rfl <;> rfl

theorem classOf_blank : (Pattern.repeated isBlank).Matches word → classOf word = .blank := by
  refine classOf_of_first rfl fun c rest hc _ => ?_
  have hblank : isBlank c = true := by
    simpa [first, Pattern.repeated, acceptsEmpty] using hc
  simp only [isBlank, Bool.or_eq_true, decide_eq_true_eq] at hblank
  rcases hblank with (((rfl | rfl) | rfl) | rfl) | rfl <;> rfl

/-- A class can be told from the words that it accepts, those for negation apart. -/
theorem classOf_of_matches {e : TextClass × Pattern} (he : e ∈ all) (h : e.2.Matches word) :
    classOf word = e.1 ∨ IsNegationWord word := by
  revert e
  simp only [all, List.forall_mem_cons]
  refine ⟨fun h => ?_, fun h => .inl (classOf_identifier h), fun h => .inl (classOf_integer h),
    fun h => .inl (classOf_float h), fun h => .inl (classOf_string h), fun h => ?_, ?_, ?_, ?_, ?_,
    ?_, ?_, ?_, ?_, ?_, ?_, ?_, fun h => .inl (classOf_comment h),
    fun h => .inl (classOf_blank h), fun _ hmem => absurd hmem List.not_mem_nil⟩
  · rw [matches_either, matches_either, matches_exactly, matches_exactly, matches_char] at h
    rcases h with h | h | rfl
    · exact .inr (.inl h)
    · exact .inr (.inr h)
    · exact .inl rfl
  · exact .inl (matches_exactly.1 h ▸ rfl)
  -- the other classes accept a single character
  all_goals exact fun h => .inl (matches_char.1 h ▸ rfl)

end Overlap

section Reading

variable {c : Char} {rest word tail : List Char} {cls : TextClass} {n : Nat}

/-- No class accepts more than the longest match. -/
theorem length_le_of_longest? (h : longest? c rest = some (cls, n)) {e : TextClass × Pattern}
    (he : e ∈ all) {front : List Char} (hfront : front <+: c :: rest) (hmatch : e.2.Matches front) :
    front.length ≤ n + 1 := by
  cases front with
  | nil => exact Nat.zero_le _
  | cons d more =>
      obtain ⟨rfl, hmore⟩ := List.cons_prefix_cons.1 hfront
      obtain ⟨after, rfl⟩ := hmore
      have htake : (more ++ after).take more.length = more := List.take_left
      have haccepted : (e.2.derivative d).Matches ((more ++ after).take more.length) := by
        rw [htake]
        exact (matches_derivative e.2).2 hmatch
      cases hlongest : (e.2.derivative d).longest? (more ++ after) with
      | none => exact absurd haccepted (longest?_eq_none_iff.1 hlongest _)
      | some m =>
          have hle : m ≤ n := (isFirstLongest_of_longest? h).le e he m hlongest
          have hmax : more.length ≤ m :=
            (longest?_eq_some_iff.1 hlongest).longest _ (by simp) haccepted
          exact Nat.succ_le_succ (Nat.le_trans hmax hle)

/-- The class of negations comes first, so it wins where one of its words is the longest match. -/
theorem negation_of_longest? (h : longest? c rest = some (cls, n)) (hn : n ≤ rest.length)
    (hword : IsNegationWord (c :: rest.take n)) : cls = .terminal .negation := by
  obtain ⟨before, p, after, hall, -, hbefore, -⟩ := isFirstLongest_of_longest? h
  cases before with
  | nil => exact (congrArg Prod.fst (List.cons.inj hall).1).symm
  | cons e before =>
      have hmatch : e.2.Matches (c :: rest.take n) := by
        rw [← (List.cons.inj hall).1]
        rcases hword with hword | hword <;> rw [hword] <;> decide
      have haccepted := (matches_derivative e.2).2 hmatch
      cases hlongest : (e.2.derivative c).longest? rest with
      | none => exact absurd haccepted (longest?_eq_none_iff.1 hlongest n)
      | some m =>
          have hlt : m < n := hbefore e List.mem_cons_self m hlongest
          have hle : n ≤ m := (longest?_eq_some_iff.1 hlongest).longest n hn haccepted
          exact absurd hlt (Nat.not_lt_of_le hle)

theorem isNameStart_of_isNegationWord (h : IsNegationWord (c :: rest)) : isNameStart c = true := by
  rcases h with h | h <;> cases h <;> rfl

/-- A word that is read is supplied by its class. -/
theorem Reads.supplies (h : Reads cls word tail) : Supplies cls word tail := by
  obtain ⟨c, rest, rfl, hread⟩ := h
  obtain ⟨⟨found, n⟩, hlongest, heq⟩ := Option.map_eq_some_iff.1 hread
  obtain ⟨hclass, rfl⟩ := Prod.mk.inj heq
  have htake : (rest ++ tail).take rest.length = rest := List.take_left
  have haccepted : ∃ p, (cls, p) ∈ all ∧ p.Matches (c :: rest) := by
    have h := matches_of_match? hread
    rwa [htake] at h
  refine ⟨List.cons_ne_nil c rest, haccepted, ?_, ?_, ?_⟩
  · exact fun e he front hfront hmatch => length_le_of_longest? hlongest he hfront hmatch
  · intro e he hmatch
    obtain ⟨p, hp, hcls⟩ := haccepted
    rcases classOf_of_matches he hmatch with h | h
    · exact (classOf_of_matches hp hcls).imp_left fun h' => h.symm.trans h'
    · exact .inr h
  · intro hword
    have hfound : found = .terminal .negation :=
      negation_of_longest? hlongest (by simp) (by rwa [htake])
    have hnext : (rest ++ tail)[rest.length]? = tail.head? := by
      rw [List.getElem?_append_right (Nat.le_refl _), Nat.sub_self, List.head?_eq_getElem?]
    have hcls : classify c (rest ++ tail) (found, rest.length) = cls := hclass
    rw [classify, hfound, hnext] at hcls
    rw [← hcls]
    by_cases hpoint : tail.head? = some '.'
    · rw [if_pos ⟨rfl, isNameStart_of_isNegationWord hword, hpoint⟩, if_pos hpoint]
    · rw [if_neg fun h => hpoint h.2.2, if_neg hpoint]

end Reading

end DatalogPolicy.TextClass

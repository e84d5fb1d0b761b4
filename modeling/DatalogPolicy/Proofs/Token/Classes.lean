import DatalogPolicy.Proofs.Token.Match
import DatalogPolicy.Value

/-!
# Which words each class reads

Identifiers, numerals, quoted texts and blanks are read before everything that cannot
go on with them.
-/

namespace DatalogPolicy.TextClass

open Pattern

section Names

variable {c d : Char} {word tail : List Char}

theorem ne_of_isNameStart (hc : isNameStart c = true) (hd : isNameStart d = false) : c ≠ d := by
  rintro rfl
  exact Bool.false_ne_true (hd.symm.trans hc)

theorem isDigit_of_isNameStart (hc : isNameStart c = true) : c.isDigit = false := by
  rw [Bool.eq_false_iff]
  intro hdigit
  have hnine : c.toNat ≤ 57 := (Char.isDigit_iff_toNat.1 hdigit).2
  rw [isNameStart, Bool.or_eq_true, decide_eq_true_eq] at hc
  rcases hc with halpha | hunderscore
  · have hcase : c.isUpper = true ∨ c.isLower = true := Bool.or_eq_true_iff.1 halpha
    rcases hcase with hupper | hlower
    · have hle : 65 ≤ c.toNat := (of_decide_eq_true hupper).1
      omega
    · have hle : 97 ≤ c.toNat := of_decide_eq_true (Bool.and_eq_true_iff.1 hlower).1
      omega
  · subst hunderscore
    exact absurd hdigit (by decide)

theorem isBlank_of_isNameStart (hc : isNameStart c = true) : isBlank c = false := by
  have hne (x : Char) (hx : isNameStart x = false) : c ≠ x := ne_of_isNameStart hc hx
  simp [isBlank, hne ' ' rfl, hne '\t' rfl, hne '\r' rfl, hne '\n' rfl, hne '\x0c' rfl]

theorem isNameStart_of_isNamePart (hd : isNamePart d = false) : isNameStart d = false := by
  simp only [isNamePart, Char.isAlphanum, Bool.or_eq_false_iff] at hd
  rw [isNameStart, hd.1.1, hd.2]
  rfl

/-- What begins like an identifier contains name characters and points only, or is a mark for
negation. -/
theorem unused_after_name (hc : isNameStart c = true)
    (hd : isNamePart d = false ∧ d ≠ '.' ∧ d ≠ '!') :
    (all.any fun e => e.2.first c && e.2.uses d) = false := by
  obtain ⟨hpart, hpoint, hmark⟩ := hd
  have hstart := isNameStart_of_isNamePart hpart
  have hdigit := isDigit_of_isNameStart hc
  have hblank := isBlank_of_isNameStart hc
  have hc (x : Char) (hx : isNameStart x = false) : decide (c = x) = false :=
    decide_eq_false (ne_of_isNameStart hc hx)
  have hd (x : Char) (hx : isNamePart x = true) : decide (d = x) = false := by
    apply decide_eq_false
    rintro rfl
    exact Bool.false_ne_true (hpart.symm.trans hx)
  simp only [all, List.any_cons, List.any_nil, first, uses, exactly, char, identifierPattern,
    integerPattern, floatPattern, quotedPattern, linePattern, Pattern.repeated, Pattern.optional,
    acceptsEmpty, Bool.or_false, Bool.false_and, Bool.true_and, Bool.and_false, hpart, hstart,
    hdigit, hblank, decide_eq_false hpoint, decide_eq_false hmark]
  simp only [hd 'n' rfl, hd 'o' rfl, hd 't' rfl, hd 'N' rfl, hd 'O' rfl, hd 'T' rfl, hc '-' rfl,
    hc '"' rfl, hc '\x27' rfl, hc ':' rfl, hc ',' rfl, hc '(' rfl, hc ')' rfl, hc '[' rfl,
    hc ']' rfl, hc '=' rfl, hc '+' rfl, hc ';' rfl, hc '/' rfl, hc '#' rfl, Bool.or_false,
    Bool.and_false, Bool.false_and]

/-- An identifier is read before whatever cannot go on with it, unless it is a word for negation. -/
theorem reads_identifier (hword : identifierPattern.Matches word)
    (hnot : word ≠ ['n', 'o', 't'] ∧ word ≠ ['N', 'O', 'T'])
    (htail : ∀ d ∈ tail.head?, isNamePart d = false ∧ d ≠ '.' ∧ d ≠ '!') :
    Reads (.terminal .identifier) word tail := by
  cases word with
  | nil => exact absurd ((acceptsEmpty_iff _).2 hword) (by decide)
  | cons c rest =>
      have hc : isNameStart c = true := by
        have hfirst := first_of_matches hword
        simpa only [identifierPattern, first, acceptsEmpty, Bool.false_and, Bool.or_false]
          using hfirst
      refine reads_of_unused 1 rfl hword ?_ (fun d hd => unused_after_name hc (htail d hd))
        fun hcls => by cases hcls
      refine List.forall_mem_singleton.2 ?_
      intro hmatch
      rw [matches_either, matches_either, matches_exactly, matches_exactly, matches_char] at hmatch
      rcases hmatch with heq | heq | heq
      · exact hnot.1 heq
      · exact hnot.2 heq
      · cases heq
        cases hc

end Names

section Numerals

variable {c d : Char} {word tail : List Char}

/-- A character with which a numeral begins. -/
def isNumeralStart (c : Char) : Bool := c = '-' || c.isDigit

/-- A character of a numeral. -/
def isNumeralPart (c : Char) : Bool :=
  c.isDigit || c = '-' || c = '+' || c = '.' || c = 'e' || c = 'E'

theorem isNameStart_of_isNumeralStart (hc : isNumeralStart c = true) : isNameStart c = false := by
  rw [Bool.eq_false_iff]
  intro hstart
  rw [isNumeralStart, Bool.or_eq_true, decide_eq_true_eq] at hc
  rcases hc with rfl | hdigit
  · exact absurd hstart (by decide)
  · exact Bool.false_ne_true ((isDigit_of_isNameStart hstart).symm.trans hdigit)

/-- What begins like a numeral contains the characters of numerals only. -/
theorem unused_after_numeral (hc : isNumeralStart c = true) (hd : isNumeralPart d = false) :
    (all.any fun e => e.2.first c && e.2.uses d) = false := by
  have hstart := isNameStart_of_isNumeralStart hc
  have hc (x : Char) (hx : isNumeralStart x = false) : decide (c = x) = false := by
    apply decide_eq_false
    rintro rfl
    exact Bool.false_ne_true (hx.symm.trans hc)
  have hblank : isBlank c = false := by
    rw [isBlank, hc ' ' rfl, hc '\t' rfl, hc '\r' rfl, hc '\n' rfl, hc '\x0c' rfl]
    rfl
  simp only [isNumeralPart, Bool.or_eq_false_iff] at hd
  obtain ⟨⟨⟨⟨⟨hdigit, hminus⟩, hplus⟩, hpoint⟩, he⟩, hE⟩ := hd
  simp only [all, List.any_cons, List.any_nil, first, uses, exactly, char, identifierPattern,
    integerPattern, floatPattern, exponentPattern, quotedPattern, linePattern, Pattern.repeated,
    Pattern.optional, acceptsEmpty, Bool.or_false, Bool.false_and, Bool.and_false, hdigit, hminus,
    hplus, hpoint, he, hE, hstart, hblank]
  simp only [hc 'n' rfl, hc 'N' rfl, hc '!' rfl, hc '"' rfl, hc '\x27' rfl, hc ':' rfl,
    hc ',' rfl, hc '(' rfl, hc ')' rfl, hc '[' rfl, hc ']' rfl, hc '=' rfl, hc ';' rfl,
    hc '/' rfl, hc '#' rfl, Bool.or_false, Bool.false_and]

theorem isNumeralStart_of_matches (h : integerPattern.Matches (c :: word)) :
    isNumeralStart c = true := by
  have hfirst := first_of_matches h
  simpa [integerPattern, first, char, Pattern.optional, Pattern.repeated, acceptsEmpty,
    isNumeralStart] using hfirst

/-- Neither a negation nor an identifier begins like a numeral. -/
theorem not_matches_of_isNumeralStart (hc : isNumeralStart c = true) :
    ∀ e ∈ all.take 2, ¬ e.2.Matches (c :: word) := by
  have hstart := isNameStart_of_isNumeralStart hc
  refine List.forall_mem_cons.2 ⟨fun h => ?_, List.forall_mem_singleton.2 fun h => ?_⟩
  · have hfirst := first_of_matches h
    simp only [first, exactly, char, acceptsEmpty, Bool.false_and, Bool.or_false, Bool.or_eq_true,
      decide_eq_true_eq] at hfirst
    rcases hfirst with rfl | rfl | rfl <;> exact absurd hc (by decide)
  · have hfirst := first_of_matches h
    simp only [identifierPattern, first, acceptsEmpty, Bool.false_and, Bool.or_false, hstart]
      at hfirst
    exact Bool.false_ne_true hfirst

/-- An integer is read before whatever belongs to no numeral. -/
theorem reads_integer (hword : integerPattern.Matches word)
    (htail : ∀ d ∈ tail.head?, isNumeralPart d = false) :
    Reads (.terminal .integer) word tail := by
  cases word with
  | nil => exact absurd ((acceptsEmpty_iff _).2 hword) (by decide)
  | cons c rest =>
      have hc := isNumeralStart_of_matches hword
      exact reads_of_unused 2 rfl hword (not_matches_of_isNumeralStart hc)
        (fun d hd => unused_after_numeral hc (htail d hd)) nofun

/-- A floating-point numeral is an integer with a point or a power of ten. -/
theorem exists_mark_of_float (h : floatPattern.Matches word) :
    ∃ c ∈ word, integerPattern.uses c = false := by
  obtain ⟨a, b, rfl, -, hb⟩ := matches_sequence.1 h
  rcases matches_either.1 hb with hb | hb
  · obtain ⟨b₁, b₂, rfl, hb₁, -⟩ := matches_sequence.1 hb
    obtain ⟨b₃, b₄, rfl, hb₃, -⟩ := matches_sequence.1 hb₁
    rw [matches_char.1 hb₃]
    exact ⟨'.', by simp, by decide⟩
  · obtain ⟨b₁, b₂, rfl, hb₁, -⟩ := matches_sequence.1 hb
    obtain ⟨c, hc, rfl⟩ := matches_one.1 hb₁
    refine ⟨c, by simp, ?_⟩
    rw [Bool.or_eq_true, decide_eq_true_eq, decide_eq_true_eq] at hc
    rcases hc with rfl | rfl <;> decide

/-- A floating-point numeral is read before whatever belongs to no numeral. -/
theorem reads_float (hword : floatPattern.Matches word)
    (htail : ∀ d ∈ tail.head?, isNumeralPart d = false) : Reads (.terminal .float) word tail := by
  cases word with
  | nil => exact absurd ((acceptsEmpty_iff _).2 hword) (by decide)
  | cons c rest =>
      have hc : isNumeralStart c = true := by
        have hfirst := first_of_matches hword
        simpa [floatPattern, integerPattern, first, char, Pattern.optional, Pattern.repeated,
          acceptsEmpty, isNumeralStart] using hfirst
      refine reads_of_unused 3 rfl hword ?_
        (fun d hd => unused_after_numeral hc (htail d hd)) fun hcls => by cases hcls
      have hbefore : all.take 3 = all.take 2 ++ [(.terminal .integer, integerPattern)] := rfl
      rw [hbefore]
      refine List.forall_mem_append.2 ⟨not_matches_of_isNumeralStart hc,
        List.forall_mem_singleton.2 fun hinteger => ?_⟩
      obtain ⟨x, hx, hmark⟩ := exists_mark_of_float hword
      exact Bool.false_ne_true (hmark.symm.trans (uses_of_matches hinteger x hx))

end Numerals

section Strings

variable {quote : Char} {cs body body' more tail : List Char}

/-- Plain characters, and backslashes with the character after them. -/
inductive Items (quote : Char) : List Char → Prop
  | nil : Items quote []
  | plain {c cs} (h : isPlain quote c = true) (rest : Items quote cs) : Items quote (c :: cs)
  | escaped {c cs} (h : c ≠ '\n') (rest : Items quote cs) : Items quote ('\\' :: c :: cs)

/-- The pattern between two quotes. -/
def itemsPattern (quote : Char) : Pattern :=
  many (either (one (isPlain quote)) (sequence (char '\\') (one (· ≠ '\n'))))

theorem matches_item :
    Matches (.either (.one (isPlain quote)) (.sequence (char '\\') (.one (· ≠ '\n')))) cs ↔
      (∃ c, isPlain quote c = true ∧ cs = [c]) ∨ ∃ c, c ≠ '\n' ∧ cs = ['\\', c] := by
  rw [matches_either, matches_one, matches_sequence]
  refine or_congr_right ⟨?_, ?_⟩
  · rintro ⟨a, b, rfl, ha, hb⟩
    obtain ⟨c, hc, rfl⟩ := matches_one.1 hb
    rw [matches_char.1 ha]
    exact ⟨c, of_decide_eq_true hc, rfl⟩
  · rintro ⟨c, hc, rfl⟩
    exact ⟨['\\'], [c], rfl, matches_char.2 rfl, .one (decide_eq_true hc)⟩

theorem matches_items : (itemsPattern quote).Matches cs ↔ Items quote cs := by
  constructor
  · intro h
    generalize hp : itemsPattern quote = p at h
    induction h with
    | empty | one | first | second | sequence => cases hp
    | none => exact .nil
    | more ha _ _ ih =>
        cases hp
        rcases matches_item.1 ha with ⟨c, hc, rfl⟩ | ⟨c, hc, rfl⟩
        · exact .plain hc (ih rfl)
        · exact .escaped hc (ih rfl)
  · intro h
    induction h with
    | nil => exact .none
    | plain h _ ih => exact .more (matches_item.2 (.inl ⟨_, h, rfl⟩)) ih
    | escaped h _ ih => exact .more (matches_item.2 (.inr ⟨_, h, rfl⟩)) ih

/-- The first quote that is no item closes a text. -/
theorem Items.unique (hq : quote ≠ '\\') (h : Items quote body) (h' : Items quote body')
    (heq : body ++ quote :: more = body' ++ [quote]) : more = [] := by
  have hquote : isPlain quote quote = false := by simp [isPlain]
  have hslash : isPlain quote '\\' = false := by simp [isPlain]
  induction h generalizing body' with
  | nil =>
      cases h' with
      | nil => exact (List.cons.inj heq).2
      | plain hc _ =>
          rw [← (List.cons.inj heq).1, hquote] at hc
          cases hc
      | escaped _ _ => exact absurd (List.cons.inj heq).1 hq
  | plain hc _ ih =>
      cases h' with
      | nil =>
          rw [(List.cons.inj heq).1, hquote] at hc
          cases hc
      | plain _ hrest => exact ih hrest (List.cons.inj heq).2
      | escaped _ _ =>
          rw [(List.cons.inj heq).1, hslash] at hc
          cases hc
  | escaped _ _ ih =>
      cases h' with
      | nil => exact absurd (List.cons.inj heq).1.symm hq
      | plain hc _ =>
          rw [← (List.cons.inj heq).1, hslash] at hc
          cases hc
      | escaped _ hrest => exact ih hrest (List.cons.inj (List.cons.inj heq).2).2

/-- Among the classes, only quoted texts begin with a quote, and end with the same one. -/
theorem matches_after_quote (hquote : quote = '"' ∨ quote = '\x27') {e : TextClass × Pattern}
    (he : e ∈ all) (h : e.2.Matches (quote :: cs)) :
    ∃ body, Items quote body ∧ cs = body ++ [quote] := by
  have hmap : all.map (fun e => e.2.derivative quote) =
      List.replicate 4 .never ++ sequence (itemsPattern quote) (char quote) ::
        List.replicate 14 .never := by
    rcases hquote with rfl | rfl <;> rfl
  have hmem : e.2.derivative quote ∈ all.map (fun e => e.2.derivative quote) :=
    List.mem_map_of_mem he
  rw [hmap, List.mem_append, List.mem_cons] at hmem
  have hmatch := (matches_derivative e.2).2 h
  have hnever (n : Nat) (hrep : e.2.derivative quote ∈ List.replicate n .never) : False := by
    rw [List.eq_of_mem_replicate hrep] at hmatch
    exact matches_never hmatch
  rcases hmem with hrep | heq | hrep
  · exact (hnever _ hrep).elim
  · rw [heq, matches_sequence] at hmatch
    obtain ⟨a, b, rfl, ha, hb⟩ := hmatch
    rw [matches_char.1 hb]
    exact ⟨a, matches_items.1 ha, rfl⟩
  · exact (hnever _ hrep).elim

/-- A quoted text is read up to the quote that closes it. -/
theorem reads_string (h : Items '"' body) :
    Reads (.terminal .string) ('"' :: (body ++ ['"'])) tail := by
  have hword : ∀ cs, (either (quotedPattern '"') (quotedPattern '\x27')).Matches ('"' :: cs) ↔
      (sequence (itemsPattern '"') (char '"')).Matches cs := fun cs =>
    (matches_derivative (either (quotedPattern '"') (quotedPattern '\x27'))).symm
  have hbefore : ((all.take 4).any fun e => e.2.first '"') = false := rfl
  refine reads_of_matches 4 rfl nofun ((hword _).2 ?_) ?_ ?_ nofun
  · exact .sequence (matches_items.2 h) (matches_char.2 rfl)
  · intro e he hmatch
    exact List.any_eq_false.1 hbefore e he (first_of_matches hmatch)
  · intro e he d more _ hmatch
    obtain ⟨body', h', heq⟩ := matches_after_quote (.inl rfl) he hmatch
    rw [List.append_eq, List.append_assoc] at heq
    exact absurd (h.unique (by decide) h' heq) (List.cons_ne_nil d more)

/-- The characters that stand for others in a quoted text are items. -/
theorem items_quote (cs : List Char) : Items '"' (cs.flatMap Value.quoteChar) := by
  induction cs with
  | nil => exact .nil
  | cons c rest ih =>
      rw [List.flatMap_cons, Value.quoteChar]
      split
      · exact .escaped (by decide) ih
      · next hquote =>
          split
          · exact .escaped (by decide) ih
          · next hslash =>
              split
              · exact .escaped (by decide) ih
              · split
                · exact .escaped (by decide) ih
                · refine .plain ?_ ih
                  rw [isPlain, decide_eq_true hquote, decide_eq_true hslash]
                  rfl

end Strings

section Blanks

variable {word tail : List Char}

/-- A pattern that accepts no text with a blank in front begins with no blank. -/
theorem isBlank_of_first {p : Pattern} {d : Char}
    (hp : [' ', '\t', '\r', '\n', '\x0c'].any p.first = false) (hd : p.first d = true) :
    isBlank d = false := by
  rw [Bool.eq_false_iff]
  intro hblank
  refine List.any_eq_false.1 hp d ?_ hd
  simpa [isBlank, or_assoc] using hblank

/-- Blanks are read up to the next character that is none. -/
theorem reads_blank (hne : word ≠ []) (hword : ∀ c ∈ word, isBlank c = true)
    (htail : ∀ d ∈ tail.head?, isBlank d = false) : Reads .blank word tail := by
  have hothers : ∀ c, isBlank c = true → ((all.take 18).any fun e => e.2.first c) = false := by
    intro c hc
    simp only [isBlank, Bool.or_eq_true, decide_eq_true_eq] at hc
    rcases hc with (((rfl | rfl) | rfl) | rfl) | rfl <;> rfl
  cases word with
  | nil => exact absurd rfl hne
  | cons c rest =>
      have hc := hothers c (hword c List.mem_cons_self)
      refine reads_of_unused 18 rfl (matches_repeated.2 ⟨hne, hword⟩) ?_ (fun d hd => ?_) nofun
      · intro e he hmatch
        exact List.any_eq_false.1 hc e he (first_of_matches hmatch)
      · have hall : all = all.take 18 ++ [(.blank, Pattern.repeated isBlank)] := rfl
        rw [hall, List.any_append, Bool.or_eq_false_iff]
        constructor
        · refine List.any_eq_false.2 fun e he h => List.any_eq_false.1 hc e he ?_
          exact (Bool.and_eq_true _ _ ▸ h).1
        · have huses : (Pattern.repeated isBlank).uses d = (isBlank d || isBlank d) := rfl
          simp only [List.any_cons, List.any_nil, huses, htail d hd, Bool.or_false, Bool.and_false]

theorem reads_space (htail : ∀ d ∈ tail.head?, isBlank d = false) : Reads .blank [' '] tail :=
  reads_blank (List.cons_ne_nil _ _) (List.forall_mem_singleton.2 rfl) htail

end Blanks

end DatalogPolicy.TextClass

import DatalogPolicy.Proofs.Token.Division

/-!
# What layout ends

Blanks and comments stand between words. Of the classes that accept a text with the beginning
of layout in it, comments and blanks are layout themselves, and a quoted text is closed by
its quote. So a word is supplied alike whatever follows it, as long as this begins with
layout or is the rest of the text that was there.
-/

namespace DatalogPolicy.TextClass

open Pattern

variable {cls : TextClass} {word tail : List Char} {e : TextClass × Pattern}

/-- A word is read by the class that supplies it. -/
theorem reads_iff_supplies : Reads cls word tail ↔ Supplies cls word tail := by
  refine ⟨Reads.supplies, fun h => ?_⟩
  obtain ⟨c, rest, rfl⟩ := List.exists_cons_of_ne_nil h.ne
  obtain ⟨p, hp, hmatch⟩ := h.accepted
  obtain ⟨word', tail', hsplit, hread⟩ := Token.exists_word c (rest ++ tail)
  rw [← List.cons_append] at hsplit
  rcases hread with ⟨cls', hread⟩ | ⟨hstands, -⟩
  · have h' := hread.supplies
    obtain ⟨p', hp', hmatch'⟩ := h'.accepted
    have hle := h.longest _ hp' word' ⟨tail', hsplit.symm⟩ hmatch'
    have hge := h'.longest _ hp (c :: rest) ⟨tail, hsplit⟩ hmatch
    obtain ⟨rfl, rfl⟩ := List.append_inj hsplit (Nat.le_antisymm hge hle)
    have hcls : cls' = cls := (h.only _ hp' hmatch').elim id fun hnegation =>
      (h'.negation hnegation).trans (h.negation hnegation).symm
    exact hcls ▸ hread
  · have hnone := hstands.unknown_iff.1 rfl
    rw [← hsplit] at hnone
    exact absurd ⟨_, hp, _, List.prefix_append _ _, h.ne, hmatch⟩ hnone

section Comments

/-- A comment without the newline behind it. -/
def IsComment (word : List Char) : Prop :=
  ∃ opening ∈ [['/', '/'], ['#']], ∃ line, '\n' ∉ line ∧ word = opening ++ line

theorem matches_line {opening : List Char} : (linePattern opening).Matches word ↔
    ∃ line, '\n' ∉ line ∧ word = opening ++ line := by
  rw [linePattern, matches_sequence]
  constructor
  · rintro ⟨a, line, rfl, ha, hline⟩
    rw [matches_exactly.1 ha]
    refine ⟨line, fun hmem => ?_, rfl⟩
    exact absurd rfl (of_decide_eq_true (matches_many_one.1 hline _ hmem))
  · rintro ⟨line, hline, rfl⟩
    refine ⟨opening, line, rfl, matches_exactly.2 rfl, matches_many_one.2 fun c hc => ?_⟩
    exact decide_eq_true fun heq => hline (heq ▸ hc)

theorem matches_comment {p : Pattern} (hp : (.comment, p) ∈ all) :
    p.Matches word ↔ IsComment word := by
  have hpattern : p = either (linePattern ['/', '/']) (linePattern ['#']) := by
    simpa [all] using hp
  simp only [hpattern, matches_either, matches_line, IsComment, List.mem_cons, List.not_mem_nil,
    or_false, exists_eq_or_imp, exists_eq_left]

theorem IsComment.newline_not_mem (h : IsComment word) : '\n' ∉ word := by
  obtain ⟨opening, hopening, line, hline, rfl⟩ := h
  have hclean : ∀ opening ∈ [['/', '/'], ['#']], '\n' ∉ opening := by decide
  exact fun hmem => (List.mem_append.1 hmem).elim (hclean opening hopening) hline

theorem IsComment.append (h : IsComment word) {more : List Char} (hmore : '\n' ∉ more) :
    IsComment (word ++ more) := by
  obtain ⟨opening, hopening, line, hline, rfl⟩ := h
  refine ⟨opening, hopening, line ++ more, fun hmem => ?_, List.append_assoc ..⟩
  exact (List.mem_append.1 hmem).elim hline hmore

theorem IsComment.exists_cons (h : IsComment word) :
    ∃ c rest, word = c :: rest ∧ (c = '/' ∨ c = '#') := by
  obtain ⟨opening, hopening, line, -, rfl⟩ := h
  rw [List.mem_cons, List.mem_singleton] at hopening
  rcases hopening with rfl | rfl
  · exact ⟨'/', '/' :: line, rfl, .inl rfl⟩
  · exact ⟨'#', line, rfl, .inr rfl⟩

/-- A comment goes up to the end of its line. -/
theorem reads_comment (h : IsComment word) (htail : ∀ c ∈ tail.head?, c = '\n') :
    Reads .comment word tail := by
  have hmatch : (either (linePattern ['/', '/']) (linePattern ['#'])).Matches word :=
    (matches_comment (by simp [all])).2 h
  obtain ⟨c, rest, rfl, hc⟩ := h.exists_cons
  have hbefore : ((all.take 17).any fun e => e.2.first c) = false := by
    rcases hc with rfl | rfl <;> rfl
  refine reads_of_unused 17 rfl hmatch (fun e he hfirst => ?_) (fun d hd => ?_)
    fun hcls => by cases hcls
  · exact List.any_eq_false.1 hbefore e he (first_of_matches hfirst)
  · obtain rfl := htail d hd
    rcases hc with rfl | rfl <;> rfl

theorem Supplies.isComment (h : Supplies .comment word tail) : IsComment word := by
  obtain ⟨p, hp, hmatch⟩ := h.accepted
  exact (matches_comment hp).1 hmatch

/-- What follows a comment is a newline or nothing. -/
theorem Supplies.newline_of_comment (h : Supplies .comment word tail) :
    ∀ c ∈ tail.head?, c = '\n' := by
  intro c hc
  by_contra hne
  obtain ⟨p, hp, hmatch⟩ := h.accepted
  have hlonger : IsComment (word ++ [c]) := h.isComment.append fun hmem =>
    hne (List.mem_singleton.1 hmem).symm
  have hfront : word ++ [c] <+: word ++ tail := by
    obtain ⟨rest, rfl⟩ := List.head?_eq_some_iff.1 hc
    exact ⟨rest, by rw [List.append_assoc, List.singleton_append]⟩
  have hle := h.longest _ hp _ hfront ((matches_comment hp).2 hlonger)
  rw [List.length_append] at hle
  exact absurd hle (Nat.not_succ_le_self _)

/-- A word that begins like a comment is one. -/
theorem Supplies.comment_of_append {between : List Char} (h : Supplies cls word tail)
    (hcomment : IsComment (word ++ between)) : cls = .comment := by
  obtain ⟨c, rest, rfl⟩ := List.exists_cons_of_ne_nil h.ne
  obtain ⟨c', rest', heq, hc⟩ := hcomment.exists_cons
  obtain ⟨rfl, -⟩ := List.cons.inj heq
  have hclass : classOf (c :: rest) = .comment := by
    rcases hc with rfl | rfl <;> rfl
  obtain ⟨p, hp, hmatch⟩ := h.accepted
  rcases classOf_of_matches hp hmatch with hcls | hnegation
  · exact hcls.symm.trans hclass
  · have hstart := isNameStart_of_isNegationWord hnegation
    rcases hc with rfl | rfl <;> cases hstart

end Comments

section Layout

/-- A character with which layout begins: a blank, or the first of a comment. -/
def isLayoutStart (c : Char) : Bool := isBlank c || c = '/' || c = '#'

/-- Only quoted texts, comments and blanks may have the beginning of layout in them, and comments
no newline. -/
theorem class_of_layout {c : Char} (hc : isLayoutStart c = true) (he : e ∈ all)
    (h : e.2.uses c = true) :
    e.1 = .terminal .string ∨ e.1 = .comment ∧ c ≠ '\n' ∨ e.1 = .blank := by
  have hall : (all.all fun e => !e.2.uses c || (e.1 = .terminal .string ||
      (e.1 = .comment && c ≠ '\n') || e.1 = .blank)) = true := by
    simp only [isLayoutStart, isBlank, Bool.or_eq_true, decide_eq_true_eq] at hc
    rcases hc with (((((rfl | rfl) | rfl) | rfl) | rfl) | rfl) | rfl <;> rfl
  have hclass := List.all_eq_true.1 hall e he
  simpa [h, or_assoc] using hclass

/-- A text that is accepted as a quoted text begins with a quote. -/
theorem exists_quote {c : Char} {rest : List Char}
    (h : (either (quotedPattern '"') (quotedPattern '\x27')).Matches (c :: rest)) :
    c = '"' ∨ c = '\x27' := by
  have hfirst := first_of_matches h
  simpa [first, quotedPattern, char, acceptsEmpty] using hfirst

/-- The quote that closes a word closes all that begins like it. -/
theorem Supplies.not_matches_quoted (h : Supplies cls word tail) {more : List Char}
    (hmore : more ≠ []) :
    ¬ (either (quotedPattern '"') (quotedPattern '\x27')).Matches (word ++ more) := by
  intro hmatch
  obtain ⟨c, rest, rfl⟩ := List.exists_cons_of_ne_nil h.ne
  have hquote := exists_quote hmatch
  have hstring : (.terminal .string, either (quotedPattern '"') (quotedPattern '\x27')) ∈ all := by
    simp [all]
  obtain ⟨p, hp, hword⟩ := h.accepted
  obtain ⟨body, hbody, rfl⟩ := matches_after_quote hquote hp hword
  obtain ⟨body', hbody', heq⟩ := matches_after_quote hquote hstring hmatch
  rw [List.append_eq, List.append_assoc] at heq
  have hne : c ≠ '\\' := by
    rcases hquote with rfl | rfl <;> decide
  exact hmore (hbody.unique hne hbody' heq)

/-- A word that begins like blanks is made of them. -/
theorem Supplies.blank_of_append (h : Supplies cls word tail) {more : List Char}
    (hmatch : (Pattern.repeated isBlank).Matches (word ++ more)) : cls = .blank := by
  obtain ⟨c, rest, rfl⟩ := List.exists_cons_of_ne_nil h.ne
  have hblank : ∀ d ∈ c :: rest, isBlank d = true := fun d hd =>
    (matches_repeated.1 hmatch).2 d (List.mem_append_left _ hd)
  have hword : (Pattern.repeated isBlank).Matches (c :: rest) :=
    matches_repeated.2 ⟨List.cons_ne_nil _ _, hblank⟩
  have hentry : (.blank, Pattern.repeated isBlank) ∈ all := by
    simp [all]
  rcases h.only _ hentry hword with heq | hnegation
  · exact heq.symm
  · have hc := hblank c List.mem_cons_self
    rw [isBlank_of_isNameStart (isNameStart_of_isNegationWord hnegation)] at hc
    cases hc

/-- No class accepts more than a whole word, of a class other than blanks, with the beginning of
layout in it, unless a comment goes on. -/
theorem Supplies.not_matches_layout (h : Supplies cls word tail) (hcls : cls ≠ .blank) {c : Char}
    (hc : isLayoutStart c = true) (hcomment : cls = .comment → c = '\n') (he : e ∈ all)
    {between more : List Char} : ¬ e.2.Matches (word ++ (between ++ c :: more)) := by
  intro hmatch
  have hmem : c ∈ word ++ (between ++ c :: more) := by simp
  obtain ⟨found, p⟩ := e
  rcases class_of_layout hc he (uses_of_matches hmatch c hmem) with rfl | ⟨rfl, hline⟩ | rfl
  · have hpattern : p = either (quotedPattern '"') (quotedPattern '\x27') := by
      simpa [all] using he
    exact h.not_matches_quoted (by simp) (hpattern ▸ hmatch)
  · exact hline (hcomment (h.comment_of_append ((matches_comment he).1 hmatch)))
  · have hpattern : p = Pattern.repeated isBlank := by
      simpa [all] using he
    exact hcls (h.blank_of_append (hpattern ▸ hmatch))

/-- A word other than blanks is supplied alike when layout, or nothing, takes the place of the end
of the text behind it, unless a comment goes on or a name loses the point behind it. -/
theorem Supplies.replace_end {rest ending more : List Char}
    (h : Supplies cls word (rest ++ ending)) (hcls : cls ≠ .blank)
    (hmore : ∀ c ∈ more.head?, isLayoutStart c = true)
    (hcomment : cls = .comment → ∀ c ∈ more.head?, c = '\n')
    (hpoint : rest = [] → IsNegationWord word → ending.head? ≠ some '.') :
    Supplies cls word (rest ++ more) := by
  refine ⟨h.ne, h.accepted, fun e he front hfront hmatch => ?_, h.only, fun hnegation => ?_⟩
  · rw [← List.append_assoc] at hfront
    rcases List.prefix_or_prefix_of_prefix hfront (List.prefix_append _ _) with hshort | ⟨s, rfl⟩
    · refine h.longest e he front (hshort.trans ?_) hmatch
      exact (List.prefix_append_right_inj word).2 (List.prefix_append rest ending)
    · cases s with
      | nil =>
          rw [List.append_nil] at hmatch ⊢
          refine h.longest e he _ ?_ hmatch
          exact (List.prefix_append_right_inj word).2 (List.prefix_append rest ending)
      | cons c s =>
          obtain ⟨t, rfl⟩ := (List.prefix_append_right_inj _).1 hfront
          rw [List.append_assoc] at hmatch
          exact absurd hmatch
            (h.not_matches_layout hcls (hmore c rfl) (fun heq => hcomment heq c rfl) he)
  · rw [h.negation hnegation]
    cases rest with
    | cons c rest => rfl
    | nil =>
        have hlayout : more.head? ≠ some '.' := fun hhead => by cases hmore '.' hhead
        rw [List.nil_append, List.nil_append, if_neg (hpoint rfl hnegation), if_neg hlayout]

end Layout

end DatalogPolicy.TextClass

import DatalogPolicy.Proofs.Token.Newline

/-!
# Layout between tokens

Blanks, or a comment with the newline behind it, may be put between any two tokens of a text
without changing its words. A comment that stands directly before the place takes in
what is put there up to its newline. The place must not be behind a name that is
spelled like a word for negation, as the point behind it is all that makes it a name.
-/

namespace DatalogPolicy.Token

open TextClass
open Text (byteLength byteLength_append byteLength_pos)

variable {cs front back gap word tail : List Char} {cls : TextClass} {ws : List Word}
  {offset : Nat}

section Words

/-- A text has no unknown tokens, and these are its words. -/
def HasWords (cs : List Char) (ws : List Word) : Prop :=
  (∀ t ∈ scan cs, t.kind ≠ .unknown) ∧ words (scan cs) = ws

/-- The words of a text are the same wherever it begins. -/
theorem hasWords_iff (offset : Nat) : HasWords cs ws ↔
    (∀ t ∈ scanFrom offset cs, t.kind ≠ .unknown) ∧ words (scanFrom offset cs) = ws := by
  have hscan : scanFrom offset cs = (scan cs).map (shift offset) := by
    rw [scan, ← scanFrom_shift, Nat.zero_add]
  have hwords : words ((scan cs).map (shift offset)) = words (scan cs) := by
    simp only [words, List.filterMap_map, List.map_filterMap, Function.comp_def, lexeme?_shift,
      Option.map_map]
    rfl
  rw [hscan, hwords, List.forall_mem_map]
  rfl

theorem HasWords.read (hread : cls.Reads word tail) (h : HasWords tail ws) :
    HasWords (word ++ tail) ((word? (cls, word)).toList ++ ws) := by
  obtain ⟨hknown, rfl⟩ := (hasWords_iff (0 + byteLength word)).1 h
  rw [HasWords, scan, scanFrom_append hread]
  constructor
  · exact List.forall_mem_append.2 ⟨fun t ht => known_of_mem_supplied ht, hknown⟩
  · exact words_supplied_append ..

/-- Blanks at the front of a text add no words. -/
theorem HasWords.blanks (hgap : ∀ c ∈ gap, isBlank c = true) (h : HasWords cs ws) :
    HasWords (gap ++ cs) ws := by
  rw [HasWords, scan, scanFrom_blanks hgap]
  exact (hasWords_iff _).1 h

/-- Nor does a comment, which goes on up to the end of its line. -/
theorem HasWords.comment (hword : IsComment word) (h : HasWords (cs.dropWhile (· ≠ '\n')) ws) :
    HasWords (word ++ cs) ws := by
  have hall := List.all_eq_true.1 (List.all_takeWhile (p := (· ≠ '\n')) (l := cs))
  have hline : '\n' ∉ cs.takeWhile (· ≠ '\n') := fun hmem =>
    absurd rfl (of_decide_eq_true (hall _ hmem))
  have hnext : ∀ c ∈ (cs.dropWhile (· ≠ '\n')).head?, c = '\n' := by
    intro c hc
    have hnot := List.head?_dropWhile_not (· ≠ '\n') cs
    rw [hc] at hnot
    exact of_not_not (of_decide_eq_false hnot)
  have hread := h.read (reads_comment (hword.append hline) hnext)
  rwa [List.append_assoc, List.takeWhile_append_dropWhile] at hread

end Words

section Layout

/-- What may stand between tokens: blanks, or a comment with the newline behind it. -/
def IsLayout (gap : List Char) : Prop :=
  (∀ c ∈ gap, isBlank c = true) ∨ ∃ comment, IsComment comment ∧ gap = comment ++ ['\n']

theorem IsLayout.isLayoutStart (h : IsLayout gap) : ∀ c ∈ gap.head?, isLayoutStart c = true := by
  intro c hc
  rcases h with hblank | ⟨comment, hcomment, rfl⟩
  · rw [TextClass.isLayoutStart, hblank c (List.mem_of_mem_head? hc)]
    rfl
  · obtain ⟨d, rest, rfl, hd⟩ := hcomment.exists_cons
    cases hc
    rcases hd with rfl | rfl <;> rfl

/-- What is left of layout behind the line of a comment is blank. -/
theorem IsLayout.isBlank_dropWhile (h : IsLayout gap) :
    ∀ c ∈ gap.dropWhile (· ≠ '\n'), isBlank c = true := by
  intro c hc
  rcases h with hblank | ⟨comment, hcomment, rfl⟩
  · exact hblank c ((List.dropWhile_suffix _).subset hc)
  · have hline : ∀ d ∈ comment, decide (d ≠ '\n') = true := fun d hd =>
      decide_eq_true fun heq => hcomment.newline_not_mem (heq ▸ hd)
    rw [List.dropWhile_append_of_pos hline] at hc
    rw [List.mem_singleton.1 hc]
    rfl

/-- Layout at the front of a text adds no words. -/
theorem HasWords.layout (hgap : IsLayout gap) (h : HasWords cs ws) : HasWords (gap ++ cs) ws := by
  rcases hgap with hblank | ⟨comment, hcomment, rfl⟩
  · exact h.blanks hblank
  · rw [List.append_assoc]
    have hnewline : ∀ c ∈ ['\n'], isBlank c = true := List.forall_mem_singleton.2 rfl
    exact .comment hcomment (h.blanks hnewline)

/-- Layout behind a comment adds no words, as the comment takes it in up to its newline. -/
theorem HasWords.comment_layout (hword : IsComment word) (hgap : IsLayout gap)
    (hnext : ∀ c ∈ cs.head?, c = '\n') (h : HasWords cs ws) : HasWords (word ++ (gap ++ cs)) ws := by
  apply HasWords.comment hword
  rw [List.dropWhile_append]
  split
  · cases cs with
    | nil => exact h
    | cons c rest =>
        obtain rfl := hnext c rfl
        exact h
  · exact h.blanks hgap.isBlank_dropWhile

/-- A place outside the tokens of a text, and not behind a name that is spelled like a word for
negation. -/
structure Separates (place : Nat) (tokens : List Token) : Prop where
  outside : ∀ t ∈ tokens, place ≤ t.span.start ∨ t.span.stop ≤ place
  name : ∀ t ∈ tokens, t.kind = .terminal .identifier → t.span.stop = place →
    ¬ IsNegationWord t.text.toList

instance (place : Nat) (tokens : List Token) : Decidable (Separates place tokens) :=
  decidable_of_iff
    ((∀ t ∈ tokens, place ≤ t.span.start ∨ t.span.stop ≤ place) ∧
      ∀ t ∈ tokens, t.kind = .terminal .identifier → t.span.stop = place →
        ¬ IsNegationWord t.text.toList)
    ⟨fun ⟨houtside, hname⟩ => ⟨houtside, hname⟩, fun ⟨houtside, hname⟩ => ⟨houtside, hname⟩⟩

theorem Separates.of_append {place : Nat} {ts us : List Token} (h : Separates place (ts ++ us)) :
    Separates place us where
  outside t ht := h.outside t (List.mem_append_right ts ht)
  name t ht := h.name t (List.mem_append_right ts ht)

/-- A word that is no token goes on over a place that separates tokens. -/
theorem Separates.eq_blank {more : List Char} {ts : List Token} (hfront : front ≠ [])
    (hmore : more ≠ [])
    (h : Separates (offset + byteLength front) (supplied cls offset (front ++ more) ++ ts)) :
    cls = .blank := by
  have hinside (kind : Kind) (hkind : kind? cls = some kind) : False := by
    have hmem : ⟨kind, ⟨offset, offset + byteLength (front ++ more)⟩, String.ofList (front ++ more)⟩ ∈
        supplied cls offset (front ++ more) ++ ts := by
      rw [supplied, hkind]
      exact List.mem_cons_self
    have hfront := byteLength_pos hfront
    have hmore := byteLength_pos hmore
    have houtside := h.outside _ hmem
    simp only [byteLength_append] at houtside
    omega
  cases cls with
  | blank => rfl
  | terminal _ | comment => exact (hinside _ rfl).elim

/-- What follows a name that is spelled like a word for negation is not put off by layout at a place
that separates tokens. -/
theorem Separates.point {t : Terminal} {ts : List Token}
    (hword : Supplies (.terminal t) word back)
    (h : Separates (offset + byteLength word) (supplied (.terminal t) offset word ++ ts))
    (hnegation : IsNegationWord word) : back.head? ≠ some '.' := by
  intro hpoint
  have hcls := hword.negation hnegation
  rw [if_pos hpoint] at hcls
  cases hcls
  refine h.name _ (List.mem_append_left _ (List.mem_singleton_self _)) rfl rfl ?_
  rwa [String.toList_ofList]

/-- The front of a text ends inside its first word, or goes on behind it. -/
theorem append_eq_append_cases (h : front ++ back = word ++ tail) :
    (∃ more, front = word ++ more ∧ tail = more ++ back) ∨
      ∃ more, more ≠ [] ∧ word = front ++ more ∧ back = more ++ tail := by
  cases back with
  | nil => exact .inl ⟨tail, by rw [← h, List.append_nil], (List.append_nil _).symm⟩
  | cons c back =>
      rcases append_eq_append_cons h.symm with ⟨more, rfl⟩ | hbehind
      · refine .inr ⟨c :: more, List.cons_ne_nil _ _, rfl, ?_⟩
        rw [List.append_assoc] at h
        exact List.append_cancel_left h
      · exact .inl hbehind

/-- Layout at a place that separates the tokens of a text leaves its words as they are. -/
theorem HasWords.insert (hknown : ∀ t ∈ scanFrom offset (front ++ back), t.kind ≠ .unknown)
    (hplace : Separates (offset + byteLength front) (scanFrom offset (front ++ back)))
    (hgap : IsLayout gap) :
    HasWords (front ++ (gap ++ back)) (words (scanFrom offset (front ++ back))) := by
  generalize hcs : front ++ back = cs at hknown hplace
  induction cs using words_induction generalizing offset front with
  | nil =>
      obtain ⟨rfl, rfl⟩ := List.append_eq_nil_iff.1 hcs
      rw [List.nil_append]
      exact .layout hgap ((hasWords_iff offset).2 ⟨hknown, rfl⟩)
  | unknown _ hscan _ =>
      rw [hscan] at hknown
      exact absurd rfl (List.forall_mem_cons.1 hknown).1
  | @read cls word tail hread ih =>
      have hsupplies := hread.supplies
      by_cases hfront : front = []
      · subst hfront
        obtain rfl : back = word ++ tail := hcs
        rw [List.nil_append]
        exact .layout hgap ((hasWords_iff offset).2 ⟨hknown, rfl⟩)
      rw [scanFrom_append hread] at hknown hplace ⊢
      rw [words_supplied_append]
      have htail := (List.forall_mem_append.1 hknown).2
      rcases append_eq_append_cases hcs with ⟨more, rfl, rfl⟩ | ⟨more, hmore, rfl, rfl⟩
      · -- the place is behind the word
        rw [byteLength_append, ← Nat.add_assoc] at hplace
        have hrest := ih rfl htail hplace.of_append
        rw [List.append_assoc]
        cases cls with
        | blank => exact hrest.blanks (isBlank_of_supplies hsupplies)
        | comment =>
            have hnext := hsupplies.newline_of_comment
            cases more with
            | nil =>
                rw [List.nil_append] at htail hnext ⊢
                exact .comment_layout hsupplies.isComment hgap hnext
                  ((hasWords_iff _).2 ⟨htail, rfl⟩)
            | cons c more =>
                obtain rfl := hnext c rfl
                exact .comment hsupplies.isComment hrest
        | terminal t =>
            cases gap with
            | nil => exact hrest.read hread
            | cons c gap =>
                refine hrest.read (reads_iff_supplies.2 (hsupplies.replace_end
                  (fun hcls => by cases hcls) hgap.isLayoutStart (fun hcls => by cases hcls) ?_))
                rintro rfl hnegation
                exact hplace.point hsupplies hnegation
      · -- the place is among blanks
        obtain rfl := hplace.eq_blank hfront hmore
        obtain ⟨hblank, hblank'⟩ := List.forall_mem_append.1 (isBlank_of_supplies hsupplies)
        have hrest : HasWords tail _ := (hasWords_iff _).2 ⟨htail, rfl⟩
        exact .blanks hblank (.layout hgap (hrest.blanks hblank'))

end Layout

end DatalogPolicy.Token

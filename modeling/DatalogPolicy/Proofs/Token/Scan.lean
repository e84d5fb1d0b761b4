import DatalogPolicy.Proofs.Token.Match

/-!
# Scanning a text made of words

A text is scanned into the words of which it is made when each of them is read in
front of those that follow it.
-/

namespace DatalogPolicy.Token

/-- A word with the class that reads it. -/
abbrev Piece := TextClass × List Char

/-- The characters of some pieces. -/
def textOf (pieces : List Piece) : List Char := pieces.flatMap (·.2)

theorem textOf_cons (p : Piece) (ps : List Piece) : textOf (p :: ps) = p.2 ++ textOf ps :=
  List.flatMap_cons

theorem textOf_append (ps qs : List Piece) : textOf (ps ++ qs) = textOf ps ++ textOf qs :=
  List.flatMap_append

/-- Each piece is read in front of those that follow it, and of what follows them all. -/
def Spelled : List Piece → List Char → Prop
  | [], _ => True
  | p :: rest, tail => p.1.Reads p.2 (textOf rest ++ tail) ∧ Spelled rest tail

theorem spelled_append {ps qs : List Piece} {tail : List Char} :
    Spelled (ps ++ qs) tail ↔ Spelled ps (textOf qs ++ tail) ∧ Spelled qs tail := by
  induction ps with
  | nil => exact (and_iff_right trivial).symm
  | cons p rest ih =>
      rw [List.cons_append, Spelled, Spelled, ih, textOf_append, List.append_assoc, and_assoc]

/-- What the grammar sees of a token: its terminal and its text. -/
abbrev Word := Terminal × String

/-- What the grammar sees of a piece. -/
def word? (p : Piece) : Option Word :=
  match p.1 with
  | .terminal t => some (t, String.ofList p.2)
  | _ => none

/-- What the grammar sees of a lexeme, whatever its place. -/
def wordOf (x : Lexeme) : Word := (x.terminal, x.text)

/-- The words that the grammar sees among some tokens. -/
def words (tokens : List Token) : List Word := (tokens.filterMap (·.lexeme?)).map wordOf

/-- The kind of the token that a class supplies, unless it is skipped. -/
def kind? : TextClass → Option Kind
  | .terminal t => some (.terminal t)
  | .comment => some .comment
  | .blank => none

/-- The token that a word supplies, unless its class is skipped. -/
def supplied (cls : TextClass) (offset : Nat) (word : List Char) : List Token :=
  ((kind? cls).map fun kind =>
    ⟨kind, ⟨offset, offset + Text.byteLength word⟩, String.ofList word⟩).toList

/-- What a word supplies stands for the word, if the grammar sees it. -/
theorem words_supplied_append (cls : TextClass) (offset : Nat) (word : List Char)
    (tokens : List Token) :
    words (supplied cls offset word ++ tokens) = (word? (cls, word)).toList ++ words tokens := by
  cases cls <;> rfl

theorem known_of_mem_supplied {cls : TextClass} {offset : Nat} {word : List Char} {t : Token}
    (h : t ∈ supplied cls offset word) : t.kind ≠ .unknown := by
  cases cls with
  | terminal _ | comment =>
      rw [List.mem_singleton.1 h]
      nofun
  | blank => exact absurd h List.not_mem_nil

/-- A word that is read is the first token, and scanning goes on behind it. -/
theorem scanFrom_append {cls : TextClass} {word tail : List Char} (h : cls.Reads word tail)
    (offset : Nat) :
    scanFrom offset (word ++ tail) =
      supplied cls offset word ++ scanFrom (offset + Text.byteLength word) tail := by
  obtain ⟨c, rest, rfl, hmatch⟩ := h
  rw [List.cons_append, scanFrom, hmatch]
  simp only [Option.elim_some, List.take_left, List.drop_left]
  cases cls <;> rfl

/-- Pieces that are read one after the other are scanned into their words. -/
theorem words_scanFrom {ps : List Piece} (h : Spelled ps []) (offset : Nat) :
    words (scanFrom offset (textOf ps)) = ps.filterMap word? ∧
      ∀ t ∈ scanFrom offset (textOf ps), t.kind ≠ .unknown := by
  induction ps generalizing offset with
  | nil =>
      have hend : scanFrom offset [] = [⟨.ending, ⟨offset, offset⟩, ""⟩] := by rw [scanFrom]
      rw [textOf, List.flatMap_nil, hend]
      exact ⟨rfl, List.forall_mem_singleton.2 fun hkind => by cases hkind⟩
  | cons p rest ih =>
      obtain ⟨cls, word⟩ := p
      obtain ⟨hread, hrest⟩ := h
      rw [List.append_nil] at hread
      obtain ⟨hwords, hknown⟩ := ih hrest (offset + Text.byteLength word)
      have htext : textOf ((cls, word) :: rest) = word ++ textOf rest := rfl
      have hcons : ((cls, word) :: rest).filterMap word? =
          (word? (cls, word)).toList ++ rest.filterMap word? := by
        rw [List.filterMap_cons]
        cases word? (cls, word) <;> rfl
      rw [htext, scanFrom_append hread, hcons]
      constructor
      · rw [words_supplied_append, hwords]
      · intro t ht
        exact (List.mem_append.1 ht).elim known_of_mem_supplied (hknown t)

section Blocks

variable {sep : List Piece} {blocks : List (List Piece)} {tail : List Char}

/-- Separators stand between a block and each of those that follow it. -/
theorem intercalate_cons {α : Type} (sep block : List α) (blocks : List (List α)) :
    sep.intercalate (block :: blocks) = block ++ blocks.flatMap (sep ++ ·) := by
  induction blocks generalizing block with
  | nil => rw [List.intercalate_singleton, List.flatMap_nil, List.append_nil]
  | cons next blocks ih =>
      rw [List.intercalate_cons_cons, ih, List.flatMap_cons, List.append_assoc, List.append_assoc]

theorem mem_intercalate {α : Type} {sep : List α} {blocks : List (List α)} {x : α}
    (h : x ∈ sep.intercalate blocks) : x ∈ sep ∨ ∃ block ∈ blocks, x ∈ block := by
  cases blocks with
  | nil => cases h
  | cons block blocks =>
      rw [intercalate_cons, List.mem_append, List.mem_flatMap] at h
      rcases h with hblock | ⟨next, hnext, hmem⟩
      · exact .inr ⟨block, List.mem_cons_self, hblock⟩
      · rcases List.mem_append.1 hmem with hsep | hmem
        · exact .inl hsep
        · exact .inr ⟨next, List.mem_cons_of_mem _ hnext, hmem⟩

theorem flatMap_intercalate {α β : Type} (f : α → List β) (sep : List α) (blocks : List (List α)) :
    (sep.intercalate blocks).flatMap f =
      (sep.flatMap f).intercalate (blocks.map (·.flatMap f)) := by
  cases blocks with
  | nil => rfl
  | cons block blocks =>
      simp only [intercalate_cons, List.map_cons, List.flatMap_append, List.flatMap_assoc,
        List.flatMap_map]

/-- What the grammar sees of some pieces. -/
def wordsOf (pieces : List Piece) : List Word := pieces.filterMap word?

@[simp] theorem wordsOf_append (ps qs : List Piece) : wordsOf (ps ++ qs) = wordsOf ps ++ wordsOf qs :=
  List.filterMap_append

theorem wordsOf_cons (t : Terminal) (cs : List Char) (ps : List Piece) :
    wordsOf ((.terminal t, cs) :: ps) = (t, String.ofList cs) :: wordsOf ps := rfl

theorem wordsOf_intercalate (sep : List Piece) (blocks : List (List Piece)) :
    wordsOf (sep.intercalate blocks) = (wordsOf sep).intercalate (blocks.map wordsOf) := by
  cases blocks with
  | nil => rfl
  | cons block blocks =>
      simp only [intercalate_cons, wordsOf, List.map_cons, List.filterMap_append,
        List.filterMap_flatMap, List.flatMap_map]

theorem textOf_intercalate (sep : List Piece) (blocks : List (List Piece)) :
    textOf (sep.intercalate blocks) = (textOf sep).intercalate (blocks.map textOf) :=
  flatMap_intercalate _ sep blocks

/-- Blocks are read one after the other if each is read in front of a separator and each separator
in front of a block. -/
theorem spelled_intercalate
    (hsep : ∀ block ∈ blocks, ∀ rest, Spelled sep (textOf block ++ rest))
    (hmid : ∀ block ∈ blocks, ∀ rest, Spelled block (textOf sep ++ rest))
    (hlast : ∀ block ∈ blocks, Spelled block tail) : Spelled (sep.intercalate blocks) tail := by
  induction blocks with
  | nil => exact trivial
  | cons block blocks ih =>
      obtain ⟨hblock, hlasts⟩ := List.forall_mem_cons.1 hlast
      obtain ⟨hfront, hmids⟩ := List.forall_mem_cons.1 hmid
      obtain ⟨-, hseps⟩ := List.forall_mem_cons.1 hsep
      cases blocks with
      | nil => rwa [List.intercalate_singleton]
      | cons next blocks =>
          have hnext : textOf (sep.intercalate (next :: blocks)) =
              textOf next ++ textOf (blocks.flatMap (sep ++ ·)) := by
            rw [intercalate_cons, textOf_append]
          rw [List.intercalate_cons_cons, List.append_assoc, spelled_append, spelled_append,
            textOf_append, List.append_assoc]
          refine ⟨hfront _, ?_, ih hseps hmids hlasts⟩
          rw [hnext, List.append_assoc]
          exact hseps next List.mem_cons_self _

end Blocks

end DatalogPolicy.Token

import DatalogPolicy.Proofs.Printing.Printable

/-!
# The pieces of a written policy

What is written for a policy is cut into words and blanks. Each piece is read as a token
in front of whatever follows it, so the written form is scanned into these pieces. The
layout decides the blanks alone.
-/

namespace DatalogPolicy

open Pattern Token TextClass

namespace Literal

/-- The pieces of a table with its arguments. -/
def atomPieces (l : Literal) : List Piece :=
  namePieces (l.tableName none).toList ++
    (.terminal .openParen, ['(']) :: (argumentPieces l.arguments ++ [(.terminal .closeParen, [')'])])

/-- The pieces of a literal without its negation. -/
def positivePieces (l : Literal) : List Piece :=
  match l.table.modal with
  | some modal =>
      (.terminal .identifier, modal.toList) :: (.terminal .openBracket, ['[']) ::
        (l.atomPieces ++ [(.terminal .closeBracket, [']'])])
  | none => l.atomPieces

/-- The pieces of a literal. -/
def pieces (l : Literal) : List Piece :=
  if l.negated then
    (.terminal .negation, ['n', 'o', 't']) :: (.blank, [' ']) :: l.positivePieces
  else l.positivePieces

theorem textOf_pieces (l : Literal) : textOf l.pieces = l.text.toList := by
  have hatom : textOf l.atomPieces = (l.tableName none ++ "(" ++
      ", ".intercalate (l.arguments.map (·.item.text)) ++ ")").toList := by
    simp only [atomPieces, textOf_append, textOf_cons, textOf_namePieces, textOf_argumentPieces,
      String.toList_append, List.append_assoc]
    rfl
  have hpositive : textOf l.positivePieces = l.atomText.toList := by
    rw [positivePieces, atomText]
    cases l.table.modal with
    | none => exact hatom
    | some modal =>
        simp only [textOf_cons, textOf_append, hatom, String.toList_append, List.append_assoc]
        rfl
  rw [pieces, text]
  split
  · rw [textOf_cons, textOf_cons, hpositive, String.toList_append]
    rfl
  · exact hpositive

variable {l : Literal}

theorem IsPrintable.isNameStart_head (h : l.IsPrintable) (rest : List Char) :
    ∀ d ∈ (textOf l.positivePieces ++ rest).head?, identifierPattern.first d = true := by
  rw [positivePieces]
  cases hmodal : l.table.modal with
  | none =>
      obtain ⟨parts, sign, hname⟩ := h.table.name
      simp only [atomPieces, textOf_append, textOf_namePieces, List.append_assoc]
      exact hname.isNameStart_head _
  | some modal =>
      simp only [textOf_cons, List.append_assoc]
      exact first_of_mem_head rfl (h.table.modal modal hmodal).accepted

/-- A literal does not begin with a blank. -/
theorem IsPrintable.isBlank_head (h : l.IsPrintable) (rest : List Char) :
    ∀ d ∈ (textOf l.pieces ++ rest).head?, isBlank d = false := by
  rw [pieces]
  split
  · rintro d ⟨⟩
    rfl
  · intro d hd
    exact isBlank_of_first rfl (h.isNameStart_head rest d hd)

/-- A literal is read in front of anything. -/
theorem IsPrintable.spelled (h : l.IsPrintable) (tail : List Char) : Spelled l.pieces tail := by
  obtain ⟨parts, sign, hname⟩ := h.table.name
  have hatom (tail : List Char) : Spelled l.atomPieces tail := by
    rw [atomPieces, spelled_append]
    refine ⟨hname.spelled rfl, reads_openParen, ?_⟩
    rw [spelled_append]
    exact ⟨spelled_argumentPieces h.arguments rfl, reads_closeParen, trivial⟩
  have hpositive (tail : List Char) : Spelled l.positivePieces tail := by
    rw [positivePieces]
    cases hmodal : l.table.modal with
    | none => exact hatom tail
    | some modal =>
        refine ⟨(h.table.modal modal hmodal).reads ?_, reads_openBracket, ?_⟩
        · rintro d ⟨⟩
          decide
        · rw [spelled_append]
          exact ⟨hatom _, reads_closeBracket, trivial⟩
  rw [pieces]
  split
  · refine ⟨reads_not ?_, reads_space ?_, hpositive tail⟩
    · rintro d ⟨⟩
      decide
    · intro d hd
      exact isBlank_of_first rfl (h.isNameStart_head tail d hd)
  · exact hpositive tail

end Literal

section Policies

variable {pretty : Bool} {tail : List Char}

/-- The pieces of literals with commas between them. -/
def literalsPieces (between : List Char) (ls : List Literal) : List Piece :=
  [(.terminal .comma, [',']), (.blank, between)].intercalate (ls.map (·.pieces))

theorem textOf_literalsPieces (between : List Char) (ls : List Literal) :
    textOf (literalsPieces between ls) =
      (Rule.joinTexts (String.ofList (',' :: between)) ls).toList := by
  rw [literalsPieces, textOf_intercalate, List.map_map, Rule.joinTexts, String.toList_intercalate,
    List.map_map, String.toList_ofList]
  congr 1
  · simp [textOf]
  · exact List.map_congr_left fun l _ => l.textOf_pieces

theorem spelled_literalsPieces {between : List Char} {ls : List Literal}
    (hne : between ≠ []) (hblank : ∀ c ∈ between, isBlank c = true)
    (h : ∀ l ∈ ls, l.IsPrintable) : Spelled (literalsPieces between ls) tail := by
  refine spelled_intercalate ?_ ?_ ?_
  · intro block hmem rest
    obtain ⟨l, hl, rfl⟩ := List.mem_map.1 hmem
    exact ⟨reads_comma, reads_blank hne hblank ((h l hl).isBlank_head rest), trivial⟩
  · intro block hmem rest
    obtain ⟨l, hl, rfl⟩ := List.mem_map.1 hmem
    exact (h l hl).spelled _
  · intro block hmem
    obtain ⟨l, hl, rfl⟩ := List.mem_map.1 hmem
    exact (h l hl).spelled _

theorem isBlank_head_literalsPieces {between : List Char} {ls : List Literal} (hne : ls ≠ [])
    (h : ∀ l ∈ ls, l.IsPrintable) (rest : List Char) :
    ∀ d ∈ (textOf (literalsPieces between ls) ++ rest).head?, isBlank d = false := by
  obtain ⟨l, ls, rfl⟩ := List.exists_cons_of_ne_nil hne
  rw [literalsPieces, List.map_cons, intercalate_cons, textOf_append, List.append_assoc]
  exact (h l List.mem_cons_self).isBlank_head _

/-- The line break before a body literal, or a blank alone. -/
def indent (pretty : Bool) : List Char := if pretty then "\n    ".toList else [' ']

theorem indent_ne (pretty : Bool) : indent pretty ≠ [] := by
  cases pretty <;> decide

theorem isBlank_of_mem_indent (pretty : Bool) : ∀ c ∈ indent pretty, isBlank c = true := by
  cases pretty <;> exact List.all_eq_true.1 (by decide)

namespace Formula

/-- The pieces of a formula, body literals standing on lines of their own or not. -/
def pieces (pretty : Bool) : Formula → List Piece
  | .literal l => l.pieces
  | .rule r =>
      literalsPieces [' '] r.heads ++
        (.blank, [' ']) :: (.terminal .implies, [':', '-']) ::
          (.blank, if pretty then " \n    ".toList else [' ']) ::
            literalsPieces (indent pretty) r.body

/-- What is written for a formula in one of the two layouts. -/
def write (pretty : Bool) (f : Formula) : String := if pretty then f.prettyText else f.text

theorem textOf_pieces {f : Formula} (h : f.IsPrintable) :
    textOf (f.pieces pretty) = (f.write pretty).toList := by
  cases f with
  | literal l =>
      have hwrite : (Formula.literal l).write pretty = l.text := by cases pretty <;> rfl
      rw [hwrite]
      exact l.textOf_pieces
  | rule r =>
      have hbody : r.body.isEmpty = false := List.isEmpty_eq_false_iff.2 h.1
      simp only [pieces, textOf_append, textOf_cons, textOf_literalsPieces]
      cases pretty with
      | true =>
          have hwrite : (Formula.rule r).write true = Rule.joinTexts ", " r.heads ++
              " :- \n    " ++ Rule.joinTexts ",\n    " r.body := by
            simp only [write, prettyText, Rule.prettyText, hbody]
            rfl
          simp only [hwrite, String.toList_append, List.append_assoc]
          rfl
      | false =>
          have hwrite : (Formula.rule r).write false = Rule.joinTexts ", " r.heads ++ " :- " ++
              Rule.joinTexts ", " r.body := by
            simp only [write, text, Rule.text, hbody]
            rfl
          simp only [hwrite, String.toList_append, List.append_assoc]
          rfl

/-- A formula does not begin with a blank. -/
theorem isBlank_head {f : Formula} (h : f.IsPrintable) (rest : List Char) :
    ∀ d ∈ (textOf (f.pieces pretty) ++ rest).head?, isBlank d = false := by
  cases f with
  | literal l => exact Literal.IsPrintable.isBlank_head h rest
  | rule r =>
      rw [pieces, textOf_append, List.append_assoc]
      exact isBlank_head_literalsPieces r.heads_ne
        (fun l hl => h.2 l (List.mem_append_left _ hl)) _

/-- A formula is read in front of anything. -/
theorem spelled {f : Formula} (h : f.IsPrintable) (tail : List Char) :
    Spelled (f.pieces pretty) tail := by
  cases f with
  | literal l => exact Literal.IsPrintable.spelled h tail
  | rule r =>
      have hheads : ∀ l ∈ r.heads, l.IsPrintable := fun l hl => h.2 l (List.mem_append_left _ hl)
      have hbody : ∀ l ∈ r.body, l.IsPrintable := fun l hl => h.2 l (List.mem_append_right _ hl)
      rw [pieces, spelled_append]
      refine ⟨spelled_literalsPieces (List.cons_ne_nil _ _) (List.forall_mem_singleton.2 rfl) hheads, ?_, reads_implies,
        ?_, spelled_literalsPieces (indent_ne _) (isBlank_of_mem_indent _) hbody⟩
      · apply reads_space
        rintro d ⟨⟩
        rfl
      · refine reads_blank ?_ ?_ (isBlank_head_literalsPieces h.1 hbody _)
        · cases pretty <;> decide
        · cases pretty <;> exact List.all_eq_true.1 (by decide)

end Formula

/-- The pieces of a policy: formulas with blanks between them, and blanks at the end. -/
def policyPieces (pretty : Bool) (between ending : List Char) (fs : List Formula) : List Piece :=
  [(.blank, between)].intercalate (fs.map (·.pieces pretty)) ++
    if ending = [] then [] else [(.blank, ending)]

theorem textOf_policyPieces {between ending : List Char} {fs : List Formula}
    (h : ∀ f ∈ fs, f.IsPrintable) :
    textOf (policyPieces pretty between ending fs) =
      between.intercalate (fs.map fun f => (f.write pretty).toList) ++ ending := by
  have hbetween : textOf [(.blank, between)] = between := List.append_nil _
  have hending : textOf (if ending = [] then [] else [(TextClass.blank, ending)]) = ending := by
    split
    · next hnil => exact hnil.symm
    · exact List.append_nil _
  rw [policyPieces, textOf_append, textOf_intercalate, List.map_map, hbetween, hending]
  exact congrArg (between.intercalate · ++ ending)
    (List.map_congr_left fun f hf => Formula.textOf_pieces (h f hf))

/-- The blanks between formulas are no words. -/
theorem wordsOf_policyPieces (pretty : Bool) (between ending : List Char) (fs : List Formula) :
    wordsOf (policyPieces pretty between ending fs) =
      fs.flatMap fun f => wordsOf (f.pieces pretty) := by
  have hbetween : wordsOf [(.blank, between)] = [] := rfl
  have hending : wordsOf (if ending = [] then [] else [(TextClass.blank, ending)]) = [] := by
    split <;> rfl
  rw [policyPieces, wordsOf_append, wordsOf_intercalate, hbetween, hending, List.append_nil,
    List.map_map]
  cases fs with
  | nil => rfl
  | cons f fs =>
      rw [List.map_cons, intercalate_cons, List.flatMap_cons, List.flatMap_map]
      rfl

theorem spelled_policyPieces {between ending : List Char} {fs : List Formula}
    (hne : between ≠ []) (hbetween : ∀ c ∈ between, isBlank c = true)
    (hending : ∀ c ∈ ending, isBlank c = true) (h : ∀ f ∈ fs, f.IsPrintable) :
    Spelled (policyPieces pretty between ending fs) [] := by
  rw [policyPieces, spelled_append]
  constructor
  · refine spelled_intercalate ?_ ?_ ?_
    · intro block hmem rest
      obtain ⟨f, hf, rfl⟩ := List.mem_map.1 hmem
      exact ⟨reads_blank hne hbetween (Formula.isBlank_head (h f hf) rest), trivial⟩
    · intro block hmem rest
      obtain ⟨f, hf, rfl⟩ := List.mem_map.1 hmem
      exact Formula.spelled (h f hf) _
    · intro block hmem
      obtain ⟨f, hf, rfl⟩ := List.mem_map.1 hmem
      exact Formula.spelled (h f hf) _
  · split
    · exact trivial
    · next hsome => exact ⟨reads_blank hsome hending nofun, trivial⟩

end Policies

end DatalogPolicy

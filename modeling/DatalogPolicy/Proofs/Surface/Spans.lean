import DatalogPolicy.Proofs.Surface.Derivation

/-!
# Where the trees begin and end

The span of a tree goes from the first byte of its first lexeme to the last byte of its last
lexeme, whichever of the optional parts are there.
-/

namespace DatalogPolicy.Surface

/-- The last lexeme of an atom. -/
def Atom.last (a : Atom) : Lexeme := a.closing.getD a.relation.last

/-- The last lexeme of a literal. -/
def Literal.last (l : Literal) : Lexeme := l.modal.elim l.atom.last (·.closing)

theorem Literal.span_eq (l : Literal) : l.span = ⟨l.first.span.start, l.last.span.stop⟩ := by
  obtain ⟨n, m, a⟩ := l
  cases m <;> rfl

namespace Grammar

variable {xs ys zs : List Lexeme} {first last first' last' x : Lexeme}

/-- The first and the last of some lexemes. -/
def Ends (xs : List Lexeme) (first last : Lexeme) : Prop :=
  xs.head? = some first ∧ xs.getLast? = some last

theorem Ends.append (h : Ends xs first last) (h' : Ends ys first' last') :
    Ends (xs ++ ys) first last' := by
  rw [Ends, List.head?_append, h.1, List.getLast?_append, h'.2]
  exact ⟨rfl, rfl⟩

/-- What stands between the first and the last does not matter. -/
theorem Ends.around (h : Ends xs first last) (h' : Ends zs first' last') :
    Ends (xs ++ ys ++ zs) first last' := by
  rw [Ends, List.append_assoc, List.head?_append, h.1, ← List.append_assoc, List.getLast?_append,
    h'.2]
  exact ⟨rfl, rfl⟩

theorem OneOf.ends {terminals : List Terminal} (h : OneOf terminals xs x) : Ends xs x x := by
  cases h
  exact ⟨rfl, rfl⟩

section Literals

theorem Relation.ends {r : Surface.Relation} (h : Relation xs r) :
    Ends xs r.first (r.more.getLastD r.first) := by
  induction h with
  | first hx => exact hx.ends
  | piece _ _ hpiece ih =>
      rw [Relation.push, List.getLastD_concat]
      exact ih.around hpiece.ends

theorem Name.ends {r : Surface.Relation} (h : Name xs r) : Ends xs r.first r.last := by
  cases h with
  | intro hrelation hsign =>
      cases hsign with
      | none =>
          rw [List.append_nil]
          exact hrelation.ends
      | some hx => exact hrelation.ends.append hx.ends

theorem Atom.ends {a : Surface.Atom} (h : Atom xs a) : Ends xs a.relation.first a.last := by
  cases h with
  | bare hname => exact hname.ends
  | @applied xs ys zs _ _ _ _ _ hname _ _ hclose =>
      rw [List.append_assoc xs ys zs]
      exact hname.ends.around hclose.ends

/-- An atom with a modal begins with it and ends with its bracket. -/
theorem ModalAtom.ends {n : Option Lexeme} {m : Option Modal} {a : Surface.Atom}
    (h : ModalAtom xs m a) :
    Ends xs ((m.map (·.name)).getD a.relation.first) (Surface.Literal.last ⟨n, m, a⟩) := by
  cases h with
  | plain hatom => exact hatom.ends
  | @modal xs ys zs _ _ _ _ _ hname _ _ hclose =>
      rw [List.append_assoc xs ys zs]
      exact hname.ends.around hclose.ends

theorem Literal.ends {l : Surface.Literal} (h : Literal xs l) : Ends xs l.first l.last := by
  cases h with
  | negated hnegation hatom => exact hnegation.ends.append hatom.ends
  | positive hatom => exact hatom.ends

theorem Literals.ends {ls : List Surface.Literal} (h : Literals xs ls) :
    ∃ l ∈ ls.head?, Ends xs l.first (ls.getLastD l).last := by
  induction h with
  | one hl => exact ⟨_, rfl, hl.ends⟩
  | more _ _ hl ih =>
      obtain ⟨first, hfirst, hends⟩ := ih
      refine ⟨first, ?_, ?_⟩
      · rw [List.head?_append, Option.mem_def.1 hfirst]
        rfl
      · rw [List.getLastD_concat]
        exact hends.around hl.ends

end Literals

/-- The span of a statement goes from its first lexeme to its last, without the terminator. -/
theorem Formula.exists_ends {st : Surface.Statement} (h : Formula xs st) :
    ∃ first last, Ends xs first last ∧ st.span = ⟨first.span.start, last.span.stop⟩ := by
  cases h with
  | fact hl => exact ⟨_, _, hl.ends, Literal.span_eq _⟩
  | rule hheads _ hbody =>
      obtain ⟨head, ⟨⟩, hheads⟩ := hheads.ends
      obtain ⟨first, ⟨⟩, hbody⟩ := hbody.ends
      rw [List.getLastD_cons] at hbody
      refine ⟨_, _, hheads.around hbody, ?_⟩
      rw [Surface.Statement.span, Literal.span_eq, Literal.span_eq]

end Grammar

end DatalogPolicy.Surface

import DatalogPolicy.Surface.Grammar

/-!
# Trees over other lexemes

The grammar looks at the terminals of lexemes only. When every lexeme is replaced by one of
the same terminal, so are those in the trees that are made of them. Policies one after the
other make up a policy.
-/

namespace DatalogPolicy.Surface

section Trees

variable (f : Lexeme → Lexeme)

/-- The name over other lexemes. -/
def Relation.map (r : Relation) : Relation := ⟨f r.first, r.more.map f, r.sign.map f⟩

/-- The argument over other lexemes. -/
def Param.map : Param → Param
  | positional t => positional (f t)
  | named c t => named (f c) (f t)

/-- The atom over other lexemes. -/
def Atom.map (a : Atom) : Atom := ⟨a.relation.map f, a.params.map (·.map f), a.closing.map f⟩

/-- The modal over other lexemes. -/
def Modal.map (m : Modal) : Modal := ⟨f m.name, f m.closing⟩

/-- The literal over other lexemes. -/
def Literal.map (l : Literal) : Literal := ⟨l.negation.map f, l.modal.map (·.map f), l.atom.map f⟩

/-- The statement over other lexemes. -/
def Statement.map : Statement → Statement
  | fact l => fact (l.map f)
  | rule head heads first body =>
      rule (head.map f) (heads.map (·.map f)) (first.map f) (body.map (·.map f))

theorem Relation.map_push (r : Relation) (x : Lexeme) : (r.push x).map f = (r.map f).push (f x) := by
  simp only [Relation.map, Relation.push, List.map_append, List.map_singleton]

end Trees

namespace Grammar

variable {f : Lexeme → Lexeme} {xs ys : List Lexeme}

section Map

variable (hf : ∀ x, (f x).terminal = x.terminal)

include hf

theorem OneOf.map {terminals : List Terminal} {x : Lexeme} (h : OneOf terminals xs x) :
    OneOf terminals (xs.map f) (f x) := by
  obtain ⟨h⟩ := h
  exact .intro (hf x ▸ h)

theorem Relation.map {r : Surface.Relation} (h : Relation xs r) :
    Relation (xs.map f) (r.map f) := by
  induction h with
  | first hx => exact .first (hx.map hf)
  | piece _ hcolon hpiece ih =>
      rw [List.map_append, List.map_append, Relation.map_push]
      exact .piece ih (hcolon.map hf) (hpiece.map hf)

theorem Sign.map {s : Option Lexeme} (h : Sign xs s) : Sign (xs.map f) (s.map f) := by
  cases h with
  | none => exact .none
  | some hx => exact .some (hx.map hf)

theorem Param.map {p : Surface.Param} (h : Param xs p) : Param (xs.map f) (p.map f) := by
  cases h with
  | positional ht => exact .positional (ht.map hf)
  | named hcolumn hequals hterm =>
      rw [List.map_append, List.map_append]
      exact .named (hcolumn.map hf) (hequals.map hf) (hterm.map hf)

theorem MoreParams.map {ps : List Surface.Param} (h : MoreParams xs ps) :
    MoreParams (xs.map f) (ps.map (·.map f)) := by
  induction h with
  | nil => exact .nil
  | cons hcomma hparam _ ih =>
      rw [List.map_append, List.map_append]
      exact .cons (hcomma.map hf) (hparam.map hf) ih

theorem Params.map {ps : List Surface.Param} (h : Params xs ps) :
    Params (xs.map f) (ps.map (·.map f)) := by
  cases h with
  | nil => exact .nil
  | cons hparam hmore =>
      rw [List.map_append]
      exact .cons (hparam.map hf) (hmore.map hf)

theorem Name.map {r : Surface.Relation} (h : Name xs r) : Name (xs.map f) (r.map f) := by
  obtain ⟨hrelation, hsign⟩ := h
  rw [List.map_append]
  exact .intro (hrelation.map hf) (hsign.map hf)

theorem Atom.map {a : Surface.Atom} (h : Atom xs a) : Atom (xs.map f) (a.map f) := by
  cases h with
  | bare hname => exact .bare (hname.map hf)
  | applied hname hopen hparams hclose =>
      rw [List.map_append, List.map_append, List.map_append]
      exact .applied (hname.map hf) (hopen.map hf) (hparams.map hf) (hclose.map hf)

theorem ModalAtom.map {m : Option Modal} {a : Surface.Atom} (h : ModalAtom xs m a) :
    ModalAtom (xs.map f) (m.map (·.map f)) (a.map f) := by
  cases h with
  | modal hname hopen hatom hclose =>
      rw [List.map_append, List.map_append, List.map_append]
      exact .modal (hname.map hf) (hopen.map hf) (hatom.map hf) (hclose.map hf)
  | plain hatom => exact .plain (hatom.map hf)

theorem Literal.map {l : Surface.Literal} (h : Literal xs l) : Literal (xs.map f) (l.map f) := by
  cases h with
  | negated hnegation hatom =>
      rw [List.map_append]
      exact .negated (hnegation.map hf) (hatom.map hf)
  | positive hatom => exact .positive (hatom.map hf)

theorem Literals.map {ls : List Surface.Literal} (h : Literals xs ls) :
    Literals (xs.map f) (ls.map (·.map f)) := by
  induction h with
  | one hl => exact .one (hl.map hf)
  | more _ hcomma hl ih =>
      rw [List.map_append, List.map_append, List.map_append]
      exact .more ih (hcomma.map hf) (hl.map hf)

theorem Formula.map {s : Surface.Statement} (h : Formula xs s) : Formula (xs.map f) (s.map f) := by
  cases h with
  | fact hl => exact .fact (hl.map hf)
  | rule hheads himplies hbody =>
      rw [List.map_append, List.map_append]
      exact .rule (hheads.map hf) (himplies.map hf) (hbody.map hf)

theorem Statement.map {s : Surface.Statement} (h : Statement xs s) :
    Statement (xs.map f) (s.map f) := by
  cases h with
  | unterminated hs => exact .unterminated (hs.map hf)
  | terminated hs hend =>
      rw [List.map_append]
      exact .terminated (hs.map hf) (hend.map hf)

/-- The grammar derives the trees over other lexemes from these lexemes. -/
theorem Program.map {ss : List Surface.Statement} (h : Program xs ss) :
    Program (xs.map f) (ss.map (·.map f)) := by
  induction h with
  | nil => exact .nil
  | cons hs _ ih =>
      rw [List.map_append]
      exact .cons (hs.map hf) ih

end Map

/-- Policies one after the other make up a policy. -/
theorem Program.append {ss ts : List Surface.Statement} (hs : Program xs ss) (ht : Program ys ts) :
    Program (xs ++ ys) (ss ++ ts) := by
  induction hs with
  | nil => exact ht
  | cons h _ ih =>
      rw [List.append_assoc]
      exact .cons h ih

end Grammar

end DatalogPolicy.Surface

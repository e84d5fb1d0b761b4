import DatalogPolicy.Proofs.Surface.Completeness

/-!
# What trees are made of

The lexemes of a tree are among those from which the grammar derives it, and they have
the terminals that the grammar puts in their places.
-/

namespace DatalogPolicy.Surface

section Trees

variable (P : Lexeme → Prop)

/-- Identifiers with a property, and a sign with it. -/
structure Relation.MadeOf (r : Relation) : Prop where
  pieces : ∀ x ∈ r.pieces, x.terminal = .identifier ∧ P x
  sign : ∀ x ∈ r.sign, x.terminal ∈ [.plus, .minus] ∧ P x

/-- An argument whose term has a property. -/
def Param.MadeOf (p : Param) : Prop :=
  p.term.terminal ∈ [.identifier, .integer, .float, .string] ∧ P p.term

/-- A name and arguments with a property. -/
structure Atom.MadeOf (a : Atom) : Prop where
  relation : a.relation.MadeOf P
  params : ∀ p ∈ a.params, p.MadeOf P

/-- An atom and a modal with a property. -/
structure Literal.MadeOf (l : Literal) : Prop where
  atom : l.atom.MadeOf P
  modal : ∀ m ∈ l.modal, m.name.terminal = .identifier ∧ P m.name

end Trees

namespace Grammar

variable {P : Lexeme → Prop} {xs : List Lexeme} {x : Lexeme}

theorem OneOf.madeOf {terminals : List Terminal} (h : OneOf terminals xs x)
    (hxs : ∀ y ∈ xs, P y) : x.terminal ∈ terminals ∧ P x := by
  obtain ⟨rfl, hx⟩ := h.eq_singleton
  exact ⟨hx, hxs x (List.mem_singleton_self x)⟩

theorem OneOf.madeOf_only {t : Terminal} (h : OneOf [t] xs x) (hxs : ∀ y ∈ xs, P y) :
    x.terminal = t ∧ P x :=
  ⟨h.only.2, (h.madeOf hxs).2⟩

theorem Relation.madeOf {r : Surface.Relation} (h : Relation xs r) (hxs : ∀ y ∈ xs, P y) :
    r.MadeOf P := by
  induction h with
  | first hfirst => exact ⟨List.forall_mem_singleton.2 (hfirst.madeOf_only hxs), nofun⟩
  | piece _ _ hpiece ih =>
      rw [List.forall_mem_append, List.forall_mem_append] at hxs
      obtain ⟨hpieces, hsign⟩ := ih hxs.1.1
      refine ⟨?_, hsign⟩
      rw [Surface.Relation.pieces, Surface.Relation.push, ← List.cons_append]
      exact List.forall_mem_append.2
        ⟨hpieces, List.forall_mem_singleton.2 (hpiece.madeOf_only hxs.2)⟩

theorem Name.madeOf {r : Surface.Relation} (h : Name xs r) (hxs : ∀ y ∈ xs, P y) :
    r.MadeOf P := by
  cases h with
  | intro hrelation hsign =>
      rw [List.forall_mem_append] at hxs
      refine ⟨(hrelation.madeOf hxs.1).pieces, ?_⟩
      cases hsign with
      | none => nofun
      | some hsome =>
          rintro x ⟨⟩
          exact hsome.madeOf hxs.2

theorem Param.madeOf {p : Surface.Param} (h : Param xs p) (hxs : ∀ y ∈ xs, P y) : p.MadeOf P := by
  cases h with
  | positional hterm => exact hterm.madeOf hxs
  | named _ _ hterm => exact hterm.madeOf (List.forall_mem_append.1 hxs).2

/-- An argument is derived from some of the lexemes of the arguments. -/
theorem MoreParams.exists_param {ps : List Surface.Param} (h : MoreParams xs ps) :
    ∀ p ∈ ps, ∃ ys ⊆ xs, Param ys p := by
  induction h with
  | nil => exact List.forall_mem_nil _
  | @cons xs ys zs _ _ _ _ hparam _ ih =>
      refine List.forall_mem_cons.2 ⟨⟨ys, ?_, hparam⟩, fun p hp => ?_⟩
      · exact List.subset_append_of_subset_left zs (List.subset_append_right xs ys)
      · obtain ⟨ws, hws, hparam⟩ := ih p hp
        exact ⟨ws, List.subset_append_of_subset_right _ hws, hparam⟩

theorem Params.exists_param {ps : List Surface.Param} (h : Params xs ps) :
    ∀ p ∈ ps, ∃ ys ⊆ xs, Param ys p := by
  cases h with
  | nil => exact List.forall_mem_nil _
  | @cons xs ys _ _ hparam hmore =>
      refine List.forall_mem_cons.2 ⟨⟨xs, List.subset_append_left xs ys, hparam⟩, fun p hp => ?_⟩
      obtain ⟨ws, hws, hparam⟩ := hmore.exists_param p hp
      exact ⟨ws, List.subset_append_of_subset_right xs hws, hparam⟩

theorem Params.madeOf {ps : List Surface.Param} (h : Params xs ps) (hxs : ∀ y ∈ xs, P y) :
    ∀ p ∈ ps, p.MadeOf P := by
  intro p hp
  obtain ⟨ys, hys, hparam⟩ := h.exists_param p hp
  exact hparam.madeOf fun y hy => hxs y (hys hy)

theorem Atom.madeOf {a : Surface.Atom} (h : Atom xs a) (hxs : ∀ y ∈ xs, P y) : a.MadeOf P := by
  cases h with
  | bare hname => exact ⟨hname.madeOf hxs, List.forall_mem_nil _⟩
  | applied hname _ hparams _ =>
      simp only [List.forall_mem_append] at hxs
      exact ⟨hname.madeOf hxs.1.1.1, hparams.madeOf hxs.1.2⟩

theorem ModalAtom.madeOf {n : Option Lexeme} {m : Option Modal} {a : Surface.Atom}
    (h : ModalAtom xs m a) (hxs : ∀ y ∈ xs, P y) : Literal.MadeOf P ⟨n, m, a⟩ := by
  cases h with
  | plain hatom => exact ⟨hatom.madeOf hxs, fun m hm => absurd hm (Option.not_mem_none m)⟩
  | modal hname _ hatom _ =>
      simp only [List.forall_mem_append] at hxs
      refine ⟨hatom.madeOf hxs.1.2, ?_⟩
      rintro m ⟨⟩
      exact hname.madeOf_only hxs.1.1.1

theorem Literal.madeOf {l : Surface.Literal} (h : Literal xs l) (hxs : ∀ y ∈ xs, P y) :
    l.MadeOf P := by
  cases h with
  | negated _ hatom => exact hatom.madeOf (List.forall_mem_append.1 hxs).2
  | positive hatom => exact hatom.madeOf hxs

/-- A literal is derived from some of the lexemes of the literals. -/
theorem Literals.exists_literal {ls : List Surface.Literal} (h : Literals xs ls) :
    ∀ l ∈ ls, ∃ ys ⊆ xs, Literal ys l := by
  induction h with
  | one hl => exact List.forall_mem_singleton.2 ⟨_, List.Subset.refl _, hl⟩
  | @more xs ys zs _ _ _ _ _ hl ih =>
      refine List.forall_mem_append.2 ⟨fun l hl => ?_, List.forall_mem_singleton.2 ⟨zs, ?_, hl⟩⟩
      · obtain ⟨ws, hws, hliteral⟩ := ih l hl
        exact ⟨ws, List.subset_append_of_subset_left zs (List.subset_append_of_subset_left ys hws),
          hliteral⟩
      · exact List.subset_append_right _ zs

theorem Formula.exists_literal {st : Surface.Statement} (h : Formula xs st) :
    ∀ l ∈ st.literals, ∃ ys ⊆ xs, Literal ys l := by
  cases h with
  | fact hl => exact List.forall_mem_singleton.2 ⟨xs, List.Subset.refl xs, hl⟩
  | @rule xs ys zs _ _ _ _ _ hheads _ hbody =>
      intro l hl
      obtain hhead | hbodied := List.mem_append.1 hl
      · obtain ⟨ws, hws, hliteral⟩ := hheads.exists_literal l hhead
        exact ⟨ws, List.subset_append_of_subset_left zs (List.subset_append_of_subset_left ys hws),
          hliteral⟩
      · obtain ⟨ws, hws, hliteral⟩ := hbody.exists_literal l hbodied
        exact ⟨ws, List.subset_append_of_subset_right _ hws, hliteral⟩

theorem Statement.exists_literal {st : Surface.Statement} (h : Statement xs st) :
    ∀ l ∈ st.literals, ∃ ys ⊆ xs, Literal ys l := by
  cases h with
  | unterminated hformula => exact hformula.exists_literal
  | @terminated xs ys _ _ hformula _ =>
      intro l hl
      obtain ⟨ws, hws, hliteral⟩ := hformula.exists_literal l hl
      exact ⟨ws, List.subset_append_of_subset_left ys hws, hliteral⟩

/-- A literal of a policy is derived from some of its lexemes. -/
theorem Program.exists_literal {sts : List Surface.Statement} (h : Program xs sts) :
    ∀ st ∈ sts, ∀ l ∈ st.literals, ∃ ys ⊆ xs, Literal ys l := by
  induction h with
  | nil => exact List.forall_mem_nil _
  | @cons xs ys _ _ hstatement _ ih =>
      refine List.forall_mem_cons.2 ⟨fun l hl => ?_, fun st hst l hl => ?_⟩
      · obtain ⟨ws, hws, hliteral⟩ := hstatement.exists_literal l hl
        exact ⟨ws, List.subset_append_of_subset_left ys hws, hliteral⟩
      · obtain ⟨ws, hws, hliteral⟩ := ih st hst l hl
        exact ⟨ws, List.subset_append_of_subset_right xs hws, hliteral⟩

/-- The literals of a policy are made of its lexemes. -/
theorem Program.madeOf {sts : List Surface.Statement} (h : Program xs sts) (hxs : ∀ y ∈ xs, P y) :
    ∀ st ∈ sts, ∀ l ∈ st.literals, l.MadeOf P := by
  intro st hst l hl
  obtain ⟨ys, hys, hliteral⟩ := h.exists_literal st hst l hl
  exact hliteral.madeOf fun y hy => hxs y (hys hy)

theorem Atom.exists_param {a : Surface.Atom} (h : Atom xs a) :
    ∀ p ∈ a.params, ∃ ys ⊆ xs, Param ys p := by
  cases h with
  | bare _ => exact List.forall_mem_nil _
  | @applied xs ys zs ws _ _ _ _ _ _ hparams _ =>
      intro p hp
      obtain ⟨us, hus, hparam⟩ := hparams.exists_param p hp
      exact ⟨us, List.subset_append_of_subset_left ws (List.subset_append_of_subset_right _ hus),
        hparam⟩

theorem ModalAtom.exists_param {m : Option Modal} {a : Surface.Atom} (h : ModalAtom xs m a) :
    ∀ p ∈ a.params, ∃ ys ⊆ xs, Param ys p := by
  cases h with
  | plain hatom => exact hatom.exists_param
  | @modal xs ys zs ws _ _ _ _ _ _ hatom _ =>
      intro p hp
      obtain ⟨us, hus, hparam⟩ := hatom.exists_param p hp
      exact ⟨us, List.subset_append_of_subset_left ws (List.subset_append_of_subset_right _ hus),
        hparam⟩

/-- An argument of a literal is derived from some of its lexemes. -/
theorem Literal.exists_param {l : Surface.Literal} (h : Literal xs l) :
    ∀ p ∈ l.atom.params, ∃ ys ⊆ xs, Param ys p := by
  cases h with
  | positive hatom => exact hatom.exists_param
  | @negated xs ys _ _ _ _ hatom =>
      intro p hp
      obtain ⟨ws, hws, hparam⟩ := hatom.exists_param p hp
      exact ⟨ws, List.subset_append_of_subset_right xs hws, hparam⟩

/-- What refers to a column has the terminals of column references. -/
theorem Param.column_madeOf {c t : Lexeme} (h : Param xs (.named c t)) (hxs : ∀ y ∈ xs, P y) :
    c.terminal ∈ [.identifier, .integer] ∧ P c := by
  cases h with
  | named hcolumn _ _ =>
      rw [List.forall_mem_append, List.forall_mem_append] at hxs
      exact hcolumn.madeOf hxs.1.1

end Grammar

end DatalogPolicy.Surface

import DatalogPolicy.Compile.Statement
import DatalogPolicy.Proofs.Surface.Derivation

/-!
# The parser reads what the grammar derives

The lexemes of each production lead the parser from the states in which they may stand
to states in which they have been read, whatever follows them. A policy is therefore
accepted with every tree that it has, so it has no more than one.
-/

namespace DatalogPolicy.Surface

section Passing

/-- Some lexemes complete no statement and lead from one state to another. -/
def State.Passes (s : State) (xs : List Lexeme) (s' : State) : Prop :=
  ∀ rest, s.run (xs ++ rest) = s'.run rest

namespace State.Passes

variable {s s' s'' : State} {xs ys : List Lexeme} {x : Lexeme} {before before' : Before}
  {r r' : Reading} {l : Literal}

theorem trans (h : s.Passes xs s') (h' : s'.Passes ys s'') : s.Passes (xs ++ ys) s'' := by
  intro rest
  rw [List.append_assoc, h, h']

theorem one (h : s.next? x = some (none, s')) : s.Passes [x] s' := by
  intro rest
  rw [List.cons_append, State.run, h]
  simp only [Option.toList_none, List.nil_append]
  cases s'.run rest <;> rfl

/-- A lexeme that goes on with the literal. -/
theorem next (h : r.next? x = some r') : Passes ⟨before, r⟩ [x] ⟨before, r'⟩ :=
  one (by rw [State.next?, h])

/-- A lexeme behind a literal that goes on with the statement. -/
theorem separate (hl : r.literal? = some l) (hx : x.terminal ∈ Reading.followsLiteral)
    (h : State.separate? l x.terminal before = some before') :
    Passes ⟨before, r⟩ [x] { before := before' } := by
  apply one
  simp only [State.next?, Reading.next?_eq_none hl hx, hl, Option.bind_some, h]

end State.Passes

end Passing

namespace Grammar

open State

variable {xs ys zs ws : List Lexeme} {x : Lexeme} {before : Before} {lead : Lead}
  {relation : Surface.Relation} {r r' : Reading} {a : Surface.Atom} {l : Surface.Literal}

theorem OneOf.eq_singleton {terminals : List Terminal} (h : OneOf terminals xs x) :
    xs = [x] ∧ x.terminal ∈ terminals := by
  cases h with
  | intro hx => exact ⟨rfl, hx⟩

theorem OneOf.only {t : Terminal} (h : OneOf [t] xs x) : xs = [x] ∧ x.terminal = t :=
  ⟨h.eq_singleton.1, List.mem_singleton.1 h.eq_singleton.2⟩

section Names

theorem Relation.passes (h : Relation xs relation)
    (hr : ∀ x : Lexeme, x.terminal = .identifier → r.next? x = some (.name lead x)) :
    Passes ⟨before, r⟩ xs ⟨before, named lead relation⟩ := by
  induction h with
  | first hfirst =>
      obtain ⟨rfl, hx⟩ := hfirst.only
      exact .next (hr _ hx)
  | @piece _ _ _ relation colon x hrelation hcolon hpiece ih =>
      obtain ⟨rfl, hc⟩ := hcolon.only
      obtain ⟨rfl, hx⟩ := hpiece.only
      have hafter : (named lead relation).next? colon = some (.colon lead relation) :=
        next?_named hrelation.sign_eq_none (by simp only [Reading.afterName?, hc])
      have hpushed : (Reading.colon lead relation).next? x =
          some (named lead (relation.push x)) := by
        have hmore : (relation.push x).more ≠ [] :=
          List.append_ne_nil_of_right_ne_nil _ (List.cons_ne_nil x [])
        rw [named, if_neg hmore]
        simp only [Reading.next?, hx]
      exact (ih.trans (.next hafter)).trans (.next hpushed)

/-- The reading of a name that may have a sign. -/
def nameRead (lead : Lead) (relation : Surface.Relation) : Reading :=
  if relation.sign.isSome then .signed lead relation else named lead relation

theorem Name.passes (h : Name xs relation)
    (hr : ∀ x : Lexeme, x.terminal = .identifier → r.next? x = some (.name lead x)) :
    Passes ⟨before, r⟩ xs ⟨before, nameRead lead relation⟩ := by
  cases h with
  | @intro xs ys relation _ hrelation hsign =>
      have hpieces : Passes ⟨before, r⟩ xs ⟨before, named lead relation⟩ := hrelation.passes hr
      cases hsign with
      | none =>
          have hnone : { relation with sign := none } = relation := by
            rw [← hrelation.sign_eq_none]
          rw [List.append_nil, hnone, nameRead, hrelation.sign_eq_none]
          exact hpieces
      | some hsome =>
          obtain ⟨rfl, hx⟩ := hsome.eq_singleton
          refine hpieces.trans (.next (next?_named hrelation.sign_eq_none ?_))
          rw [Reading.afterName?]
          rcases List.mem_pair.1 hx with hx | hx <;> rw [hx] <;> rfl

/-- An atom without arguments may end behind its name. -/
theorem atom?_nameRead : (nameRead lead relation).atom? = some (lead, { relation }) := by
  obtain ⟨first, more, sign⟩ := relation
  cases sign <;> cases more <;> rfl

/-- A parenthesis behind a name opens an argument list. -/
theorem next?_nameRead (hx : x.terminal = .openParen) :
    (nameRead lead relation).next? x = some (.params lead relation [] .first) := by
  obtain ⟨first, more, sign⟩ := relation
  obtain ⟨terminal, span, text⟩ := x
  cases hx
  cases sign with
  | none => exact next?_named rfl rfl
  | some => rfl

end Names

section Arguments

variable {read ps : List Surface.Param} {p : Surface.Param} {last : ParamState} {c : Lexeme}

/-- A lexeme that goes on with an argument goes on with the list. -/
theorem next?_params {last' : ParamState} (h : last.next? x = some last') :
    (Reading.params lead relation read last).next? x = some (.params lead relation read last') := by
  obtain ⟨terminal, span, text⟩ := x
  cases terminal <;> cases last <;> cases h <;> rfl

theorem Param.passes (h : Param xs p) (hlast : last = .first ∨ last = .next) :
    ∃ last', last'.param? = some p ∧ Passes ⟨before, .params lead relation read last⟩ xs
      ⟨before, .params lead relation read last'⟩ := by
  cases h with
  | @positional xs t hterm =>
      obtain ⟨rfl, ht⟩ := hterm.eq_singleton
      obtain ⟨terminal, span, text⟩ := t
      have hnext : last.next? ⟨terminal, span, text⟩ = some (termState ⟨terminal, span, text⟩) := by
        rcases hlast with rfl | rfl <;> cases terminal <;> first | rfl | simp at ht
      have hparam : (termState ⟨terminal, span, text⟩).param? =
          some (.positional ⟨terminal, span, text⟩) := by
        cases terminal <;> rfl
      exact ⟨_, hparam, .next (next?_params hnext)⟩
  | @named _ _ _ column equals t hcolumn hequals hterm =>
      obtain ⟨rfl, hc⟩ := hcolumn.eq_singleton
      obtain ⟨rfl, he⟩ := hequals.only
      obtain ⟨rfl, ht⟩ := hterm.eq_singleton
      have hreference : last.next? column = some (.reference column) := by
        rcases List.mem_pair.1 hc with hc | hc <;> rcases hlast with rfl | rfl <;>
          simp only [ParamState.next?, hc]
      have hvalue : (ParamState.reference column).next? equals = some (.value column) := by
        simp only [ParamState.next?, he]
      have hwhole : (ParamState.value column).next? t = some (.whole (.named column t)) := by
        obtain ⟨terminal, span, text⟩ := t
        cases terminal <;> first | rfl | simp at ht
      refine ⟨.whole (.named column t), rfl, ?_⟩
      exact ((State.Passes.next (next?_params hreference)).trans
        (.next (next?_params hvalue))).trans (.next (next?_params hwhole))

/-- The arguments behind one that can end, with the parenthesis that closes the list. -/
theorem MoreParams.passes (h : MoreParams xs ps) (hlast : last.param? = some p)
    (hc : c.terminal = .closeParen) :
    Passes ⟨before, .params lead relation read last⟩ (xs ++ [c])
      ⟨before, .closed lead ⟨relation, read ++ p :: ps, some c⟩⟩ := by
  induction h generalizing read last p with
  | nil =>
      apply State.Passes.next
      cases last <;> cases hlast <;> simp only [Reading.next?, Reading.nextParam?, hc] <;> rfl
  | @cons _ _ _ comma q qs hcomma hparam hmore ih =>
      obtain ⟨rfl, hx⟩ := hcomma.only
      have hnext : (Reading.params lead relation read last).next? comma =
          some (.params lead relation (read ++ [p]) .next) := by
        simp only [Reading.next?, Reading.nextParam?, hx, hlast]
      obtain ⟨last', hlast', hpasses⟩ := hparam.passes (.inr rfl)
      have hread : read ++ p :: q :: qs = read ++ [p] ++ q :: qs := by
        rw [List.append_assoc, List.singleton_append]
      rw [hread, List.append_assoc]
      exact ((State.Passes.next hnext).trans hpasses).trans (ih hlast')

theorem Params.passes (h : Params xs ps) (hc : c.terminal = .closeParen) :
    Passes ⟨before, .params lead relation [] .first⟩ (xs ++ [c])
      ⟨before, .closed lead ⟨relation, ps, some c⟩⟩ := by
  cases h with
  | nil => exact .next (by simp only [Reading.next?, Reading.nextParam?, hc])
  | cons hparam hmore =>
      obtain ⟨last, hlast, hpasses⟩ := hparam.passes (.inl rfl)
      rw [List.append_assoc]
      exact hpasses.trans (hmore.passes hlast hc)

end Arguments

section Literals

variable {m : Option Modal} {n : Option Lexeme}

theorem Atom.passes (h : Atom xs a)
    (hr : ∀ x : Lexeme, x.terminal = .identifier → r.next? x = some (.name lead x)) :
    ∃ r', r'.atom? = some (lead, a) ∧ Passes ⟨before, r⟩ xs ⟨before, r'⟩ := by
  cases h with
  | bare hname => exact ⟨_, atom?_nameRead, hname.passes hr⟩
  | applied hname hopen hparams hclose =>
      obtain ⟨rfl, ho⟩ := hopen.only
      obtain ⟨rfl, hc⟩ := hclose.only
      refine ⟨.closed lead _, rfl, ?_⟩
      rw [List.append_assoc _ _ [_]]
      exact ((hname.passes hr).trans (.next (next?_nameRead ho))).trans (hparams.passes hc)

/-- A bracket behind an atom that can end closes the modal that is open. -/
theorem next?_closeBracket {modal : Lexeme} (h : r.atom? = some (⟨n, some modal⟩, a))
    (hx : x.terminal = .closeBracket) : r.next? x = some (.whole ⟨n, some ⟨modal, x⟩, a⟩) := by
  obtain ⟨terminal, span, text⟩ := x
  cases hx
  cases r <;> cases h <;> rfl

theorem ModalAtom.passes (h : ModalAtom xs m a)
    (hr : ∀ x : Lexeme, x.terminal = .identifier → r.next? x = some (.name { negation := n } x)) :
    ∃ r', r'.literal? = some ⟨n, m, a⟩ ∧ Passes ⟨before, r⟩ xs ⟨before, r'⟩ := by
  cases h with
  | plain hatom =>
      obtain ⟨r', hatom', hpasses⟩ := hatom.passes hr
      refine ⟨r', ?_, hpasses⟩
      cases r' <;> cases hatom' <;> rfl
  | @modal _ _ _ _ name bracket _ close hname hopen hatom hclose =>
      obtain ⟨rfl, hx⟩ := hname.only
      obtain ⟨rfl, ho⟩ := hopen.only
      obtain ⟨rfl, hc⟩ := hclose.only
      have hbracket : (Reading.name { negation := n } name).next? bracket =
          some (.bracket ⟨n, some name⟩) := by
        simp only [Reading.next?, ho]
      have hinside (x : Lexeme) (hx : x.terminal = .identifier) :
          (Reading.bracket ⟨n, some name⟩).next? x = some (.name ⟨n, some name⟩ x) := by
        simp only [Reading.next?, hx]
      obtain ⟨r', hatom', hpasses⟩ := hatom.passes hinside
      refine ⟨.whole ⟨n, some ⟨name, close⟩, a⟩, rfl, ?_⟩
      exact (((State.Passes.next (hr name hx)).trans (.next hbracket)).trans hpasses).trans
        (.next (next?_closeBracket hatom' hc))

theorem Literal.passes (h : Literal xs l) :
    ∃ r, r.literal? = some l ∧ Passes { before } xs ⟨before, r⟩ := by
  cases h with
  | @negated _ _ negation _ _ hnegation hatom =>
      obtain ⟨rfl, hx⟩ := hnegation.only
      have hopening : Reading.opening.next? negation = some (.negated negation) := by
        simp only [Reading.next?, hx]
      have hnegated (x : Lexeme) (hx : x.terminal = .identifier) :
          (Reading.negated negation).next? x = some (.name { negation := some negation } x) := by
        simp only [Reading.next?, hx]
      obtain ⟨r, hl, hpasses⟩ := hatom.passes hnegated
      exact ⟨r, hl, (State.Passes.next hopening).trans hpasses⟩
  | positive hatom => exact hatom.passes fun x hx => by simp only [Reading.next?, hx]

/-- Literals with commas between them are collected up to the last, which can end. -/
theorem Literals.passes {ls : List Surface.Literal} (h : Literals xs ls)
    {before : List Surface.Literal → Before}
    (hcomma : ∀ init l, separate? l .comma (before init) = some (before (init ++ [l]))) :
    ∃ init r l, ls = init ++ [l] ∧ r.literal? = some l ∧
      Passes { before := before [] } xs ⟨before init, r⟩ := by
  induction h with
  | one hliteral =>
      obtain ⟨r, hl, hpasses⟩ := hliteral.passes
      exact ⟨[], r, _, rfl, hl, hpasses⟩
  | more _ hc hliteral ih =>
      obtain ⟨init, r, l, rfl, hl, hpasses⟩ := ih
      obtain ⟨rfl, hx⟩ := hc.only
      obtain ⟨r', hl', hpasses'⟩ := hliteral.passes
      refine ⟨init ++ [l], r', _, rfl, hl', ?_⟩
      refine (hpasses.trans (.separate hl ?_ ?_)).trans hpasses'
      · rw [hx]
        decide
      · rw [hx]
        exact hcomma init l

end Literals

section Statements

variable {st : Surface.Statement} {sts : List Surface.Statement}

/-- The lexemes of a formula lead to where its statement can be completed. -/
theorem Formula.passes (h : Formula xs st) :
    ∃ before r l, r.literal? = some l ∧ statement? l before = some st ∧
      Passes {} xs ⟨before, r⟩ := by
  cases h with
  | fact hl =>
      obtain ⟨r, hr, hpasses⟩ := hl.passes
      exact ⟨.nothing, r, _, hr, rfl, hpasses⟩
  | @rule _ _ _ head heads _ first body hheads himplies hbody =>
      obtain ⟨init, r, l, hinit, hl, hpasses⟩ := hheads.passes separate?_beforeHead
      obtain ⟨init', r', l', hinit', hl', hpasses'⟩ :=
        hbody.passes (separate?_beforeBody head heads)
      obtain ⟨rfl, hx⟩ := himplies.only
      refine ⟨_, r', l', hl', ?_, (hpasses.trans (.separate hl ?_ ?_)).trans hpasses'⟩
      · cases init' <;> cases hinit' <;> rfl
      · rw [hx]
        decide
      · rw [hx]
        cases init <;> cases hinit <;> rfl

/-- The lexemes of a policy are accepted with its statements. -/
theorem Program.run (h : Program xs sts) : State.run {} xs = .ok sts := by
  induction h with
  | nil => rfl
  | @cons _ ys st sts hstatement _ ih =>
      cases hstatement with
      | unterminated hformula =>
          obtain ⟨before, r, l, hl, hst, hpasses⟩ := hformula.passes
          rw [hpasses]
          exact run_complete hl hst ih
      | @terminated _ _ _ t hformula hend =>
          obtain ⟨before, r, l, hl, hst, hpasses⟩ := hformula.passes
          obtain ⟨rfl, hx⟩ := hend.eq_singleton
          have hrestart : restart? t = some {} := by
            rw [restart?]
            rcases List.mem_pair.1 hx with hx | hx <;> rw [hx]
          rw [List.append_assoc, hpasses, List.singleton_append, State.run,
            next?_complete hl hst hrestart]
          simp only [ih]
          rfl

/-- The parser returns the trees that the grammar derives. -/
theorem parse_eq_ok_iff : parse xs = .ok sts ↔ Program xs sts :=
  ⟨StateRead.start.run, Program.run⟩

end Statements

section Tokens

variable {tokens : List Token} {program : List Surface.Statement}

/-- Without unknown text the lexemes of tokens are those of the tokens that the grammar sees. -/
theorem filter_sees (h : ∀ t ∈ tokens, t.kind ≠ .unknown) :
    tokens.filter sees = (tokens.filterMap (·.lexeme?)).map token := by
  induction tokens with
  | nil => rfl
  | cons t tokens ih =>
      obtain ⟨ht, htokens⟩ := List.forall_mem_cons.1 h
      obtain ⟨kind, span, text⟩ := t
      cases kind with
      | terminal terminal => exact congrArg (_ :: ·) (ih htokens)
      | comment | ending => exact ih htokens
      | unknown => exact absurd rfl ht

theorem token_injective : Function.Injective token := by
  rintro ⟨t, span, text⟩ ⟨t', span', text'⟩ h
  cases h
  rfl

theorem derives_iff (h : ∀ t ∈ tokens, t.kind ≠ .unknown) :
    Derives tokens program ↔ Program (tokens.filterMap (·.lexeme?)) program := by
  rw [Derives, filter_sees h]
  constructor
  · rintro ⟨xs, hxs, hprogram⟩
    rwa [List.map_injective_iff.2 token_injective hxs]
  · exact fun hprogram => ⟨_, rfl, hprogram⟩

/-- A source parses its lexemes as the trees that the grammar derives. -/
theorem parseTokens_eq_ok_iff {source : Source} :
    source.parseTokens tokens = .ok program ↔ Program (tokens.filterMap (·.lexeme?)) program := by
  rw [← parse_eq_ok_iff, Source.parseTokens]
  cases parse (tokens.filterMap (·.lexeme?)) with
  | error failure => exact ⟨fun h => (by cases h), fun h => (by cases h)⟩
  | ok program' => exact ⟨fun h => (by cases h; rfl), fun h => (by cases h; rfl)⟩

/-- Tokens without unknown text are accepted when the grammar derives a policy from them, and
the policy that is returned is the only one that it derives. -/
theorem parseTokens_derives (source : Source) (h : ∀ t ∈ tokens, t.kind ≠ .unknown) :
    (∀ program, source.parseTokens tokens = .ok program ↔ Derives tokens program) ∧
      ∀ program program', Derives tokens program → Derives tokens program' →
        program = program' := by
  have hparse (program : List Surface.Statement) :
      source.parseTokens tokens = .ok program ↔ Derives tokens program :=
    parseTokens_eq_ok_iff.trans (derives_iff h).symm
  refine ⟨hparse, fun program program' hprogram hprogram' => ?_⟩
  have hboth := ((hparse program).2 hprogram).symm.trans ((hparse program').2 hprogram')
  exact Except.ok.inj hboth

/-- The tokens of a rule whose body ends with a sign, a comment, and a fact. -/
def sampleTokens : List Token :=
  [⟨.terminal .identifier, ⟨0, 1⟩, "p"⟩, ⟨.terminal .implies, ⟨2, 4⟩, ":-"⟩,
    ⟨.terminal .negation, ⟨5, 8⟩, "not"⟩, ⟨.terminal .identifier, ⟨9, 10⟩, "q"⟩,
    ⟨.terminal .plus, ⟨10, 11⟩, "+"⟩, ⟨.comment, ⟨12, 14⟩, "//"⟩,
    ⟨.terminal .identifier, ⟨15, 16⟩, "r"⟩, ⟨.terminal .period, ⟨16, 17⟩, "."⟩,
    ⟨.ending, ⟨17, 17⟩, ""⟩]

/-- The literal of a table without arguments. -/
def sampleLiteral (negation : Option Lexeme) (first : Lexeme) (sign : Option Lexeme) :
    Surface.Literal :=
  { negation, atom := { relation := { first, sign } } }

theorem derives_sampleTokens : (∀ t ∈ sampleTokens, t.kind ≠ .unknown) ∧
    Derives sampleTokens
      [.rule (sampleLiteral none ⟨.identifier, ⟨0, 1⟩, "p"⟩ none) []
        (sampleLiteral (some ⟨.negation, ⟨5, 8⟩, "not"⟩) ⟨.identifier, ⟨9, 10⟩, "q"⟩
          (some ⟨.plus, ⟨10, 11⟩, "+"⟩)) [],
        .fact (sampleLiteral none ⟨.identifier, ⟨15, 16⟩, "r"⟩ none)] := by
  have hknown : ∀ t ∈ sampleTokens, t.kind ≠ .unknown := by decide
  exact ⟨hknown, ((parseTokens_derives (.ofText "" "") hknown).1 _).1 rfl⟩

end Tokens

end Grammar

end DatalogPolicy.Surface

import DatalogPolicy.Proofs.Surface.Parser
import DatalogPolicy.Surface.Grammar

/-!
# Parsing follows the grammar

The parser accepts the sequences of lexemes that are policies of the grammar, and
returns the only trees that they have. What a state has read is a part of a
statement, so every step goes on with a derivation; conversely the lexemes of every
derivation lead from state to state up to the end of its statement.
-/

namespace DatalogPolicy.Surface.Grammar

section Parts

/-- Arguments with a comma behind each of them. -/
inductive Separated : List Lexeme → List Surface.Param → Prop
  | nil : Separated [] []
  | snoc {xs ys zs ps p c} (h : Separated xs ps) (hparam : Param ys p)
      (hcomma : OneOf [.comma] zs c) : Separated (xs ++ ys ++ zs) (ps ++ [p])

/-- The part of an argument list that has been read. -/
inductive ParamsRead : List Lexeme → List Surface.Param → ParamState → Prop
  | first : ParamsRead [] [] .first
  | next {xs ps} (h : Separated xs ps) : ParamsRead xs ps .next
  | reference {xs ys ps x} (h : Separated xs ps) (hterm : ColumnReference ys x) :
      ParamsRead (xs ++ ys) ps (.reference x)
  | value {xs ys zs ps c e} (h : Separated xs ps) (hcolumn : ColumnReference ys c)
      (hequals : OneOf [.equals] zs e) : ParamsRead (xs ++ ys ++ zs) ps (.value c)
  | whole {xs ys ps p} (h : Separated xs ps) (hparam : Param ys p) :
      ParamsRead (xs ++ ys) ps (.whole p)

/-- The negation and the modal that have been read, with the bracket of the modal. -/
inductive LeadRead : List Lexeme → Lead → Prop
  | plain : LeadRead [] {}
  | negated {xs n} (h : OneOf [.negation] xs n) : LeadRead xs { negation := some n }
  | modal {xs ys zs n m o} (h : LeadRead xs ⟨n, none⟩) (hname : OneOf [.identifier] ys m)
      (hopen : OneOf [.openBracket] zs o) : LeadRead (xs ++ ys ++ zs) ⟨n, some m⟩

/-- The part of a literal that has been read. -/
inductive LiteralRead : List Lexeme → Reading → Prop
  | opening : LiteralRead [] .opening
  | negated {xs n} (h : OneOf [.negation] xs n) : LiteralRead xs (.negated n)
  | bracket {xs n m} (hlead : LeadRead xs ⟨n, some m⟩) : LiteralRead xs (.bracket ⟨n, some m⟩)
  | name {xs ys lead x} (hlead : LeadRead xs lead) (h : OneOf [.identifier] ys x) :
      LiteralRead (xs ++ ys) (.name lead x)
  | colon {xs ys zs lead r c} (hlead : LeadRead xs lead) (hrelation : Relation ys r)
      (hcolon : OneOf [.colon] zs c) : LiteralRead (xs ++ ys ++ zs) (.colon lead r)
  | pieces {xs ys lead r} (hlead : LeadRead xs lead) (hrelation : Relation ys r) :
      LiteralRead (xs ++ ys) (.pieces lead r)
  | signed {xs ys lead r} (hlead : LeadRead xs lead) (hname : Name ys r) :
      LiteralRead (xs ++ ys) (.signed lead r)
  | params {xs ys zs ws lead r o read last} (hlead : LeadRead xs lead) (hname : Name ys r)
      (hopen : OneOf [.openParen] zs o) (h : ParamsRead ws read last) :
      LiteralRead (xs ++ ys ++ zs ++ ws) (.params lead r read last)
  | closed {xs ys lead a} (hlead : LeadRead xs lead) (hatom : Atom ys a) :
      LiteralRead (xs ++ ys) (.closed lead a)
  | whole {xs l} (h : Literal xs l) : LiteralRead xs (.whole l)

/-- The literals of a statement that have been read, with what stands behind them. -/
inductive BeforeRead : List Lexeme → Before → Prop
  | nothing : BeforeRead [] .nothing
  | heads {xs ys head heads c} (hheads : Literals xs (head :: heads))
      (hcomma : OneOf [.comma] ys c) : BeforeRead (xs ++ ys) (.heads head heads)
  | implies {xs ys head heads i} (hheads : Literals xs (head :: heads))
      (himplies : OneOf [.implies] ys i) : BeforeRead (xs ++ ys) (.implies head heads)
  | body {xs ys zs ws head heads i first body c} (hheads : Literals xs (head :: heads))
      (himplies : OneOf [.implies] ys i) (hbody : Literals zs (first :: body))
      (hcomma : OneOf [.comma] ws c) :
      BeforeRead (xs ++ ys ++ zs ++ ws) (.body head heads first body)

/-- The part of a statement that has been read. -/
inductive StateRead : List Lexeme → State → Prop
  | intro {xs ys before reading} (hbefore : BeforeRead xs before)
      (hreading : LiteralRead ys reading) : StateRead (xs ++ ys) ⟨before, reading⟩

/-- What a lexeme, or the end of the text, completes: a statement or nothing. -/
inductive Completed : List Lexeme → Option Surface.Statement → Prop
  | nothing : Completed [] none
  | statement {xs s} (h : Statement xs s) : Completed xs (some s)

end Parts

variable {xs ys zs ws : List Lexeme} {x : Lexeme}

theorem oneOf {terminals : List Terminal} (t : Terminal) (ht : t ∈ terminals)
    (hx : x.terminal = t) : OneOf terminals [x] x :=
  .intro (hx ▸ ht)

theorem ColumnReference.term (h : ColumnReference xs x) : Term xs x := by
  have hsubset : [Terminal.identifier, .integer] ⊆ [.identifier, .integer, .float, .string] := by
    decide
  cases h with
  | intro hx => exact .intro (hsubset hx)

section Arguments

variable {ps read : List Surface.Param} {p : Surface.Param} {c : Lexeme} {last last' : ParamState}

theorem MoreParams.snoc (h : MoreParams xs ps) (hcomma : OneOf [.comma] ys c)
    (hparam : Param zs p) : MoreParams (xs ++ (ys ++ zs)) (ps ++ [p]) := by
  induction h with
  | nil =>
      have hone := MoreParams.cons hcomma hparam .nil
      rwa [List.append_nil] at hone
  | cons hfirst hnext _ ih =>
      have hall := MoreParams.cons hfirst hnext ih
      rwa [← List.append_assoc] at hall

/-- An argument behind those that have a comma behind them. -/
theorem Separated.params (h : Separated xs ps) (hparam : Param ys p) :
    Params (xs ++ ys) (ps ++ [p]) := by
  induction h generalizing ys p with
  | nil =>
      have hone := Params.cons hparam .nil
      rwa [List.append_nil] at hone
  | @snoc us ws vs ps q c _ hlast hcomma ih =>
      -- the arguments so far end with one, so the grammar has a first one among them
      have hbefore := ih hlast
      generalize us ++ ws = lexemes at hbefore ⊢
      generalize hqs : ps ++ [q] = qs at hbefore ⊢
      cases hbefore with
      | nil => exact absurd hqs (List.concat_ne_nil q ps)
      | cons hfirst hmore =>
          have hall := Params.cons hfirst (hmore.snoc hcomma hparam)
          rwa [← List.append_assoc, ← List.append_assoc] at hall

/-- An argument that may end where it has been read to. -/
theorem ParamsRead.param (h : ParamsRead xs read last) (hlast : last.param? = some p) :
    ∃ us vs, xs = us ++ vs ∧ Separated us read ∧ Param vs p := by
  cases h with
  | first | next | value => cases hlast
  | reference hread hterm =>
      cases hlast
      exact ⟨_, _, rfl, hread, .positional (ColumnReference.term hterm)⟩
  | whole hread hparam =>
      cases hlast
      exact ⟨_, _, rfl, hread, hparam⟩

/-- A lexeme that goes on with an argument. -/
theorem ParamsRead.next? (h : ParamsRead xs read last) (hnext : last.next? x = some last') :
    ParamsRead (xs ++ [x]) read last' := by
  have hstart (hread : Separated xs read) (hlast : last = .first ∨ last = .next) :
      ParamsRead (xs ++ [x]) read last' := by
    obtain ⟨terminal, span, text⟩ := x
    rcases hlast with rfl | rfl
    all_goals
      cases terminal <;> cases hnext
      · exact .reference hread (oneOf .identifier (by decide) rfl)
      · exact .reference hread (oneOf .integer (by decide) rfl)
      · exact .whole hread (.positional (oneOf .float (by decide) rfl))
      · exact .whole hread (.positional (oneOf .string (by decide) rfl))
  cases h with
  | first => exact hstart .nil (.inl rfl)
  | next hread => exact hstart hread (.inr rfl)
  | reference hread hterm =>
      obtain ⟨terminal, span, text⟩ := x
      cases terminal <;> cases hnext
      exact .value hread hterm (oneOf .equals (by decide) rfl)
  | @value us vs ws _ column _ hread hcolumn hequals =>
      have hwhole (hterm : Term [x] x) : ParamsRead (us ++ vs ++ ws ++ [x]) read
          (.whole (.named column x)) := by
        have hall := ParamsRead.whole hread (.named hcolumn hequals hterm)
        rwa [← List.append_assoc, ← List.append_assoc] at hall
      obtain ⟨terminal, span, text⟩ := x
      cases terminal <;> cases hnext
      · exact hwhole (oneOf .identifier (by decide) rfl)
      · exact hwhole (oneOf .integer (by decide) rfl)
      · exact hwhole (oneOf .float (by decide) rfl)
      · exact hwhole (oneOf .string (by decide) rfl)
  | whole => cases hnext

end Arguments

section Literals

variable {lead : Lead} {r r' : Reading} {relation : Surface.Relation} {a : Surface.Atom}
  {l : Surface.Literal}

theorem Relation.sign_eq_none (h : Relation xs relation) : relation.sign = none := by
  induction h with
  | first => rfl
  | piece _ _ _ ih => exact ih

theorem Relation.name (h : Relation xs relation) : Name xs relation := by
  have hname := Name.intro h .none
  rwa [List.append_nil, ← h.sign_eq_none] at hname

/-- What was read before an atom makes a literal of it. -/
theorem LeadRead.literal {n : Option Lexeme} {m : Option Modal} (h : LeadRead xs ⟨n, none⟩)
    (hatom : ModalAtom ys m a) : Literal (xs ++ ys) ⟨n, m, a⟩ := by
  cases h with
  | plain => exact .positive hatom
  | negated hnegation => exact .negated hnegation hatom

/-- A bracket behind an atom closes its modal. -/
theorem LeadRead.closeBracket (hlead : LeadRead xs lead) (hatom : Atom ys a)
    (h : Reading.closeBracket? lead a x = some r) : LiteralRead (xs ++ ys ++ [x]) r := by
  cases hlead with
  | plain | negated => cases h
  | modal hbefore hname hopen =>
      unfold Reading.closeBracket? at h
      split at h
      · next hmodal hx =>
          cases hmodal
          cases h
          have hclose : OneOf [.closeBracket] [x] x := oneOf .closeBracket (by decide) hx
          have hall := hbefore.literal (.modal hname hopen hatom hclose)
          apply LiteralRead.whole
          simpa only [List.append_assoc] using hall
      · cases h

/-- A parenthesis opens an argument list. -/
theorem LeadRead.openParen (hlead : LeadRead xs lead) (hname : Name ys relation)
    (hopen : OneOf [.openParen] zs x) :
    LiteralRead (xs ++ ys ++ zs) (.params lead relation [] .first) := by
  have hall := LiteralRead.params hlead hname hopen .first
  rwa [List.append_nil] at hall

/-- A colon, a sign and a parenthesis go on with a name. -/
theorem LeadRead.afterName (hlead : LeadRead xs lead) (hrelation : Relation ys relation)
    (h : Reading.afterName? lead relation x = some r) : LiteralRead (xs ++ ys ++ [x]) r := by
  have hsigned (hsign : OneOf [.plus, .minus] [x] x) :
      LiteralRead (xs ++ ys ++ [x]) (.signed lead { relation with sign := some x }) := by
    rw [List.append_assoc]
    exact .signed hlead (.intro hrelation (.some hsign))
  obtain ⟨terminal, span, text⟩ := x
  cases terminal <;> cases h
  · exact .colon hlead hrelation (oneOf .colon (by decide) rfl)
  · exact hlead.openParen hrelation.name (oneOf .openParen (by decide) rfl)
  · exact hsigned (oneOf .plus (by decide) rfl)
  · exact hsigned (oneOf .minus (by decide) rfl)

/-- A lexeme that goes on with an argument list or ends it. -/
theorem LeadRead.nextParam {read : List Surface.Param} {last : ParamState} {o : Lexeme}
    (hlead : LeadRead xs lead) (hname : Name ys relation) (hopen : OneOf [.openParen] zs o)
    (hparams : ParamsRead ws read last) (h : Reading.nextParam? lead relation read last x = some r) :
    LiteralRead (xs ++ ys ++ zs ++ ws ++ [x]) r := by
  have hclosed {ps : List Surface.Param} (hps : Params ws ps) (hx : x.terminal = .closeParen) :
      LiteralRead (xs ++ ys ++ zs ++ ws ++ [x]) (.closed lead ⟨relation, ps, some x⟩) := by
    have hatom := Atom.applied hname hopen hps (oneOf .closeParen (by decide) hx)
    have hall := LiteralRead.closed hlead hatom
    simpa only [List.append_assoc] using hall
  have hread {read' : List Surface.Param} {last' : ParamState}
      (h' : ParamsRead (ws ++ [x]) read' last') :
      LiteralRead (xs ++ ys ++ zs ++ ws ++ [x]) (.params lead relation read' last') := by
    rw [List.append_assoc _ ws]
    exact .params hlead hname hopen h'
  unfold Reading.nextParam? at h
  split at h
  · next hx =>
      cases h
      cases hparams
      exact hclosed .nil hx
  · next hx _ hparam =>
      cases h
      obtain ⟨us, vs, rfl, hseparated, hlast⟩ := hparams.param hparam
      exact hclosed (hseparated.params hlast) hx
  · next hx hparam =>
      cases h
      obtain ⟨us, vs, rfl, hseparated, hlast⟩ := hparams.param hparam
      exact hread (.next (.snoc hseparated hlast (oneOf .comma (by decide) hx)))
  · obtain ⟨last', hnext, rfl⟩ := Option.map_eq_some_iff.1 h
    exact hread (hparams.next? hnext)

/-- The atom that may end where it has been read to. -/
theorem LiteralRead.atom (h : LiteralRead xs r) (hatom : r.atom? = some (lead, a)) :
    ∃ us vs, xs = us ++ vs ∧ LeadRead us lead ∧ Atom vs a := by
  cases h with
  | opening | negated | bracket | colon | params | whole => cases hatom
  | name hlead hx =>
      cases hatom
      exact ⟨_, _, rfl, hlead, .bare (Relation.first hx).name⟩
  | pieces hlead hrelation =>
      cases hatom
      exact ⟨_, _, rfl, hlead, .bare hrelation.name⟩
  | signed hlead hname =>
      cases hatom
      exact ⟨_, _, rfl, hlead, .bare hname⟩
  | closed hlead happlied =>
      cases hatom
      exact ⟨_, _, rfl, hlead, happlied⟩

/-- The literal that may end where it has been read to. -/
theorem LiteralRead.literal (h : LiteralRead xs r) (hl : r.literal? = some l) : Literal xs l := by
  have hatom (hl : (r.atom?.bind fun found => Reading.endAtom? found.1 found.2) = some l) :
      Literal xs l := by
    obtain ⟨⟨⟨n, m⟩, a⟩, hatom, hend⟩ := Option.bind_eq_some_iff.1 hl
    obtain ⟨us, vs, rfl, hlead, ha⟩ := h.atom hatom
    cases m with
    | none =>
        cases hend
        exact hlead.literal (.plain ha)
    | some m => cases hend
  cases r with
  | whole l' =>
      cases hl
      cases h
      assumption
  | _ => exact hatom hl

/-- A lexeme that goes on with a literal. -/
theorem LiteralRead.next (h : LiteralRead xs r) (hnext : r.next? x = some r') :
    LiteralRead (xs ++ [x]) r' := by
  have hnamed {lead : Lead} {relation : Surface.Relation} {us vs : List Lexeme}
      (hlead : LeadRead us lead) (hrelation : Relation vs relation)
      (hnext : (Reading.afterName? lead relation x).or
        (Reading.closeBracket? lead { relation } x) = some r') :
      LiteralRead (us ++ vs ++ [x]) r' := by
    rcases Option.or_eq_some_iff.1 hnext with hafter | ⟨-, hclose⟩
    · exact hlead.afterName hrelation hafter
    · exact hlead.closeBracket (.bare hrelation.name) hclose
  cases h with
  | opening =>
      obtain ⟨terminal, span, text⟩ := x
      cases terminal <;> cases hnext
      · exact .name .plain (oneOf .identifier (by decide) rfl)
      · exact .negated (oneOf .negation (by decide) rfl)
  | negated hnegation =>
      obtain ⟨terminal, span, text⟩ := x
      cases terminal <;> cases hnext
      exact .name (.negated hnegation) (oneOf .identifier (by decide) rfl)
  | bracket hlead =>
      obtain ⟨terminal, span, text⟩ := x
      cases terminal <;> cases hnext
      exact .name hlead (oneOf .identifier (by decide) rfl)
  | name hlead hx =>
      simp only [Reading.next?] at hnext
      split at hnext
      · next hmodal hopen =>
          -- the name is that of a modal, as none is open yet
          cases hnext
          cases hlead with
          | plain => exact .bracket (.modal .plain hx (oneOf .openBracket (by decide) hopen))
          | negated hnegation =>
              exact .bracket (.modal (.negated hnegation) hx (oneOf .openBracket (by decide) hopen))
          | modal => cases hmodal
      · exact hnamed hlead (.first hx) hnext
  | colon hlead hrelation hcolon =>
      obtain ⟨terminal, span, text⟩ := x
      cases terminal <;> cases hnext
      rw [List.append_assoc, List.append_assoc, ← List.append_assoc _ _ [_]]
      exact .pieces hlead (.piece hrelation hcolon (oneOf .identifier (by decide) rfl))
  | pieces hlead hrelation => exact hnamed hlead hrelation hnext
  | signed hlead hname =>
      simp only [Reading.next?] at hnext
      split at hnext
      · next hopen =>
          cases hnext
          exact hlead.openParen hname (oneOf .openParen (by decide) hopen)
      · exact hlead.closeBracket (.bare hname) hnext
  | params hlead hname hopen hparams => exact hlead.nextParam hname hopen hparams hnext
  | closed hlead hatom => exact hlead.closeBracket hatom hnext
  | whole => cases hnext

end Literals

section Statements

variable {before before' : Before} {l : Surface.Literal} {st : Surface.Statement} {s s' : State}
  {done : Option Surface.Statement} {sts : List Surface.Statement}

/-- A comma or an arrow behind a literal. -/
theorem BeforeRead.separate (h : BeforeRead xs before) (hl : Literal ys l)
    (hnext : State.separate? l x.terminal before = some before') :
    BeforeRead (xs ++ ys ++ [x]) before' := by
  cases h with
  | nothing =>
      simp only [State.separate?] at hnext
      split at hnext <;> cases hnext
      · next hx => exact .heads (.one hl) (oneOf .comma (by decide) hx)
      · next hx => exact .implies (.one hl) (oneOf .implies (by decide) hx)
  | heads hheads hcomma =>
      have hall := hheads.more hcomma hl
      simp only [State.separate?] at hnext
      split at hnext <;> cases hnext
      · next hx => exact .heads hall (oneOf .comma (by decide) hx)
      · next hx => exact .implies hall (oneOf .implies (by decide) hx)
  | implies hheads himplies =>
      simp only [State.separate?] at hnext
      split at hnext <;> cases hnext
      next hx => exact .body hheads himplies (.one hl) (oneOf .comma (by decide) hx)
  | body hheads himplies hbody hcomma =>
      simp only [State.separate?] at hnext
      split at hnext <;> cases hnext
      next hx =>
        have hall := BeforeRead.body hheads himplies (hbody.more hcomma hl)
          (oneOf .comma (by decide) hx)
        simpa only [List.append_assoc, List.append_eq] using hall

/-- The statement that ends with a literal. -/
theorem BeforeRead.formula (h : BeforeRead xs before) (hl : Literal ys l)
    (hst : State.statement? l before = some st) : Formula (xs ++ ys) st := by
  cases h with
  | nothing =>
      cases hst
      exact .fact hl
  | heads => cases hst
  | implies hheads himplies =>
      cases hst
      exact .rule hheads himplies (.one hl)
  | body hheads himplies hbody hcomma =>
      cases hst
      have hall := Formula.rule hheads himplies (hbody.more hcomma hl)
      simpa only [List.append_assoc, List.append_eq] using hall

theorem StateRead.start : StateRead [] {} := .intro .nothing .opening

/-- The statement that may end where it has been read to. -/
theorem StateRead.formula (h : StateRead xs s) (hl : s.reading.literal? = some l)
    (hst : State.statement? l s.before = some st) : Formula xs st := by
  cases h with
  | intro hbefore hreading => exact hbefore.formula (hreading.literal hl) hst

/-- Behind a statement a terminator belongs to it, and another lexeme to the next one. -/
theorem StateRead.restart (hst : Formula xs st) (h : State.restart? x = some s') :
    ∃ us vs, xs ++ [x] = us ++ vs ∧ Completed us (some st) ∧ StateRead vs s' := by
  have hterminated (hx : OneOf [.semicolon, .period] [x] x) :
      ∃ us vs, xs ++ [x] = us ++ vs ∧ Completed us (some st) ∧ StateRead vs {} :=
    ⟨xs ++ [x], [], (List.append_nil _).symm, .statement (.terminated hst hx), .start⟩
  simp only [State.restart?] at h
  split at h
  · next hx =>
      cases h
      exact hterminated (oneOf .semicolon (by decide) hx)
  · next hx =>
      cases h
      exact hterminated (oneOf .period (by decide) hx)
  · obtain ⟨r, hnext, rfl⟩ := Option.map_eq_some_iff.1 h
    exact ⟨xs, [x], rfl, .statement (.unterminated hst),
      .intro .nothing (LiteralRead.opening.next hnext)⟩

/-- A lexeme that goes on with a statement or begins another one. -/
theorem StateRead.next (h : StateRead xs s) (hnext : s.next? x = some (done, s')) :
    ∃ us vs, xs ++ [x] = us ++ vs ∧ Completed us done ∧ StateRead vs s' := by
  simp only [State.next?] at hnext
  split at hnext
  · next r hr =>
      cases hnext
      cases h with
      | intro hbefore hreading =>
          have hread := StateRead.intro hbefore (hreading.next hr)
          rw [← List.append_assoc] at hread
          exact ⟨[], _, rfl, .nothing, hread⟩
  · obtain ⟨l, hl, hnext⟩ := Option.bind_eq_some_iff.1 hnext
    split at hnext
    · next before hbefore' =>
        cases hnext
        cases h with
        | intro hbefore hreading =>
            have hread := StateRead.intro (hbefore.separate (hreading.literal hl) hbefore') .opening
            rw [List.append_nil] at hread
            exact ⟨[], _, rfl, .nothing, hread⟩
    · obtain ⟨st, hst, hnext⟩ := Option.bind_eq_some_iff.1 hnext
      obtain ⟨s', hrestart, hdone⟩ := Option.map_eq_some_iff.1 hnext
      cases hdone
      exact StateRead.restart (h.formula hl hst) hrestart

/-- What the end of the text completes. -/
theorem StateRead.finish (h : StateRead xs s) (hfinish : s.finish? = some done) :
    Completed xs done := by
  simp only [State.finish?] at hfinish
  split at hfinish
  · next hbefore hreading =>
      cases hfinish
      cases h with
      | intro hb hr =>
          cases hbefore
          cases hreading
          cases hb
          cases hr
          exact .nothing
  · obtain ⟨st, hst, rfl⟩ := Option.map_eq_some_iff.1 hfinish
    obtain ⟨l, hl, hst⟩ := Option.bind_eq_some_iff.1 hst
    exact .statement (.unterminated (h.formula hl hst))

theorem Completed.program (h : Completed xs done) (hrest : Program ys sts) :
    Program (xs ++ ys) (done.toList ++ sts) := by
  cases h with
  | nothing => exact hrest
  | statement h => exact .cons h hrest

/-- The statements of a run are those of the lexemes that have been read and of the others. -/
theorem StateRead.run (h : StateRead xs s) (hrun : s.run ys = .ok sts) :
    Program (xs ++ ys) sts := by
  -- what has been read of a statement grows until a lexeme completes it
  induction ys generalizing xs s sts with
  | nil =>
      rw [State.run] at hrun
      split at hrun <;> cases hrun
      next done hfinish =>
        have hall := (h.finish hfinish).program .nil
        rwa [List.append_nil done.toList] at hall
  | cons y ys ih =>
      rw [State.run] at hrun
      split at hrun
      · next done s' hnext =>
          obtain ⟨us, vs, hsplit, hdone, hread⟩ := h.next hnext
          cases hrest : s'.run ys with
          | error e =>
              rw [hrest] at hrun
              cases hrun
          | ok sts' =>
              rw [hrest] at hrun
              cases hrun
              have hall := hdone.program (ih hread hrest)
              rwa [← List.append_assoc, ← hsplit, List.append_assoc] at hall
      · cases hrun

end Statements

end DatalogPolicy.Surface.Grammar

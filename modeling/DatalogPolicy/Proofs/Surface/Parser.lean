import DatalogPolicy.Proofs.Printing.Pieces
import DatalogPolicy.Surface.Parser
import Mathlib.Data.List.Forall2

/-!
# Parsing written policies

The places of lexemes do not matter to the parser, so runs are described by the words
that they read. The words of a literal lead to a reading that can only be left, and the
words of a formula to a state from which the first word of the next formula, or the end
of the text, completes its statement.
-/

namespace DatalogPolicy.Surface

open Token

section Runs

variable {Q : State → Prop} {w : Word} {ws : List Word} {s : State} {before : Before}
  {r : Reading} {l : Literal}

/-- Lexemes with the given words complete no statement and lead to a state with a property. -/
def Leads (Q : State → Prop) : List Word → State → Prop
  | [], s => Q s
  | w :: ws, s => ∀ span, ∃ s', s.next? ⟨w.1, span, w.2⟩ = some (none, s') ∧ Leads Q ws s'

theorem leads_nil : Leads Q [] s ↔ Q s := Iff.rfl

theorem leads_cons : Leads Q (w :: ws) s ↔
    ∀ span, ∃ s', s.next? ⟨w.1, span, w.2⟩ = some (none, s') ∧ Leads Q ws s' := Iff.rfl

attribute [irreducible] Leads

/-- A run over such lexemes goes on from that state. -/
theorem Leads.exists_run {xs : List Lexeme} (h : Leads Q ws s) (hxs : xs.map wordOf = ws) :
    ∃ s', Q s' ∧ ∀ rest, s.run (xs ++ rest) = s'.run rest := by
  induction xs generalizing ws s with
  | nil =>
      subst hxs
      exact ⟨s, leads_nil.1 h, fun _ => rfl⟩
  | cons x xs ih =>
      subst hxs
      obtain ⟨s', hnext, hrest⟩ := leads_cons.1 h x.span
      obtain ⟨s'', hs'', hrun⟩ := ih hrest rfl
      refine ⟨s'', hs'', fun rest => ?_⟩
      have hstep : s.next? x = some (none, s') := hnext
      rw [List.cons_append, State.run, hstep, ← hrun rest]
      simp only [Option.toList_none, List.nil_append]
      cases s'.run (xs ++ rest) <;> rfl

/-- A lexeme that goes on with the literal. -/
theorem leads_next
    (h : ∀ span, ∃ r', r.next? ⟨w.1, span, w.2⟩ = some r' ∧ Leads Q ws ⟨before, r'⟩) :
    Leads Q (w :: ws) ⟨before, r⟩ := by
  apply leads_cons.2
  intro span
  obtain ⟨r', hnext, hrest⟩ := h span
  exact ⟨⟨before, r'⟩, by rw [State.next?, hnext], hrest⟩

/-- The literal is read as a whole, and no lexeme goes on with it. -/
structure Reading.Ends (r : Reading) (l : Literal) : Prop where
  literal : r.literal? = some l
  next : ∀ x : Lexeme, r.next? x = none

/-- A lexeme behind the literal that goes on with the statement. -/
theorem leads_separate {before' : Before} (hends : r.Ends l)
    (hseparate : State.separate? l w.1 before = some before') (h : Leads Q ws { before := before' }) :
    Leads Q (w :: ws) ⟨before, r⟩ := by
  refine leads_cons.2 fun span => ⟨{ before := before' }, ?_, h⟩
  simp only [State.next?, hends.next ⟨w.1, span, w.2⟩, hends.literal, Option.bind_some, hseparate]

end Runs

section Names

variable {Q : State → Prop} {ws : List Word} {before : Before} {lead : Lead} {relation : Relation}

/-- The reading of a name without a sign. -/
def named (lead : Lead) (relation : Relation) : Reading :=
  if relation.more = [] then .name lead relation.first else .pieces lead relation

/-- A colon, a sign and a parenthesis go on with a name. -/
theorem next?_named {x : Lexeme} (hsign : relation.sign = none) {r : Reading}
    (h : Reading.afterName? lead relation x = some r) : (named lead relation).next? x = some r := by
  obtain ⟨first, more, sign⟩ := relation
  obtain ⟨negation, modal⟩ := lead
  obtain ⟨terminal, span, text⟩ := x
  cases hsign
  cases more with
  | nil => cases modal <;> cases terminal <;> cases h <;> rfl
  | cons => cases terminal <;> cases h <;> rfl

/-- The word of an identifier. -/
def identifierWord (part : List Char) : Word := (.identifier, String.ofList part)

/-- Identifiers behind colons are added to a name. -/
theorem leads_parts {parts : List (List Char)} (hsign : relation.sign = none)
    (h : ∀ more : List Lexeme, more.map (·.text) = parts.map String.ofList →
      Leads Q ws ⟨before, named lead { relation with more := relation.more ++ more }⟩) :
    Leads Q (parts.flatMap (fun part => [(.colon, String.ofList [':']), identifierWord part]) ++ ws)
      ⟨before, named lead relation⟩ := by
  induction parts generalizing relation with
  | nil =>
      have hrest := h [] rfl
      rwa [List.append_nil] at hrest
  | cons part parts ih =>
      refine leads_next fun _ => ⟨.colon lead relation, next?_named hsign rfl, ?_⟩
      apply leads_next
      intro span
      have hmore : (relation.push ⟨.identifier, span, String.ofList part⟩).more ≠ [] :=
        List.append_ne_nil_of_right_ne_nil _ (List.cons_ne_nil _ _)
      refine ⟨named lead (relation.push ⟨.identifier, span, String.ofList part⟩), ?_, ?_⟩
      · rw [named, if_neg hmore]
        rfl
      · refine ih hsign ?_
        intro more htexts
        have hpush : (relation.push ⟨.identifier, span, String.ofList part⟩).more ++ more =
            relation.more ++ ⟨.identifier, span, String.ofList part⟩ :: more :=
          List.append_assoc relation.more [_] more
        rw [hpush]
        apply h _
        rw [List.map_cons, List.map_cons, htexts]

/-- A sign, if there is one, and the parenthesis behind it end a name. -/
theorem leads_sign {sign : Option Terminal} (hmem : sign ∈ [none, some .plus, some .minus])
    (hsign : relation.sign = none)
    (h : ∀ x : Option Lexeme, x.map (·.text) = sign.map (String.ofList ∘ signText) →
      Leads Q ws ⟨before, .params lead { relation with sign := x } [] .first⟩) :
    Leads Q ((sign.toList.map fun t => (t, String.ofList (signText t))) ++
      (.openParen, String.ofList ['(']) :: ws) ⟨before, named lead relation⟩ := by
  have hmarked (t : Terminal) (ht : t = .plus ∨ t = .minus) (hsome : sign = some t) :
      Leads Q ([(t, String.ofList (signText t))] ++ (.openParen, String.ofList ['(']) :: ws)
        ⟨before, named lead relation⟩ := by
    apply leads_next
    intro span
    refine ⟨.signed lead { relation with sign := some ⟨t, span, String.ofList (signText t)⟩ },
      next?_named hsign ?_, ?_⟩
    · rcases ht with rfl | rfl <;> rfl
    · refine leads_next fun _ => ⟨_, rfl, h _ ?_⟩
      rw [hsome]
      rfl
  obtain rfl | rfl | rfl : sign = none ∨ sign = some .plus ∨ sign = some .minus := by
    simpa using hmem
  · refine leads_next fun _ => ⟨_, next?_named hsign rfl, ?_⟩
    have hnone : { relation with sign := none } = relation := by rw [← hsign]
    exact hnone ▸ h none rfl
  · exact hmarked .plus (.inl rfl) rfl
  · exact hmarked .minus (.inr rfl) rfl

end Names

section Arguments

variable {Q : State → Prop} {ws : List Word} {before : Before} {lead : Lead} {relation : Relation}

/-- The word of a term. -/
def termWord (t : Term) : Word := (t.terminal, String.ofList t.text.toList)

/-- The argument that is read with a term alone. -/
def termState (x : Lexeme) : ParamState :=
  if x.terminal = .identifier ∨ x.terminal = .integer then .reference x else .whole (.positional x)

theorem next?_term (t : Term) (span : Span) {last : ParamState} (hlast : last = .first ∨ last = .next)
    (read : List Param) :
    (Reading.params lead relation read last).next? ⟨(termWord t).1, span, (termWord t).2⟩ =
      some (.params lead relation read (termState ⟨(termWord t).1, span, (termWord t).2⟩)) := by
  rcases hlast with rfl | rfl
  all_goals
    cases t with
    | var x => rfl
    | const v => cases v <;> rfl

theorem next?_comma (x span text read) : (Reading.params lead relation read (termState x)).next?
    ⟨.comma, span, text⟩ = some (.params lead relation (read ++ [.positional x]) .next) := by
  rw [termState]
  split <;> rfl

theorem next?_closeParen (x span text read) :
    (Reading.params lead relation read (termState x)).next? ⟨.closeParen, span, text⟩ =
      some (.closed lead
        ⟨relation, read ++ [.positional x], some ⟨.closeParen, span, text⟩⟩) := by
  rw [termState]
  split <;> rfl

/-- Terms behind commas are added to the arguments, which a parenthesis ends. -/
theorem leads_terms {ts : List Term} {read : List Param} (x : Lexeme)
    (h : ∀ (ys : List Lexeme) (close : Lexeme), ys.map wordOf = ts.map termWord →
      Leads Q ws ⟨before,
        .closed lead ⟨relation, read ++ (x :: ys).map .positional, some close⟩⟩) :
    Leads Q (ts.flatMap (fun t => [(.comma, String.ofList [',']), termWord t]) ++
        (.closeParen, String.ofList [')']) :: ws)
      ⟨before, .params lead relation read (termState x)⟩ := by
  induction ts generalizing x read with
  | nil => exact leads_next fun span => ⟨_, next?_closeParen x span _ read, h [] _ rfl⟩
  | cons t ts ih =>
      refine leads_next fun span => ⟨_, next?_comma x span _ read, ?_⟩
      refine leads_next fun span => ⟨_, next?_term t span (.inr rfl) _, ?_⟩
      apply ih _
      intro ys close hys
      have hread (y : Lexeme) : read ++ [.positional x] ++ (y :: ys).map .positional =
          read ++ (x :: y :: ys).map .positional := List.append_assoc read [_] _
      rw [hread]
      apply h _ close
      rw [List.map_cons, List.map_cons, hys]
      rfl

theorem wordsOf_argumentPieces (arguments : List (Located Term)) :
    wordsOf (argumentPieces arguments) =
      [(.comma, String.ofList [','])].intercalate (arguments.map fun a => [termWord a.item]) := by
  rw [argumentPieces, wordsOf_intercalate, List.map_map]
  rfl

/-- Arguments are read as positional ones. -/
theorem leads_arguments {arguments : List (Located Term)}
    (h : ∀ (ys : List Lexeme) (close : Lexeme),
      ys.map wordOf = arguments.map (fun a => termWord a.item) →
        Leads Q ws ⟨before, .closed lead ⟨relation, ys.map .positional, some close⟩⟩) :
    Leads Q (wordsOf (argumentPieces arguments) ++ (.closeParen, String.ofList [')']) :: ws)
      ⟨before, .params lead relation [] .first⟩ := by
  rw [wordsOf_argumentPieces]
  cases arguments with
  | nil => exact leads_next fun _ => ⟨_, rfl, h [] _ rfl⟩
  | cons a arguments =>
      have hwords : (arguments.map fun a => [termWord a.item]).flatMap
          ([(.comma, String.ofList [','])] ++ ·) =
            (arguments.map (·.item)).flatMap
              fun t => [(.comma, String.ofList [',']), termWord t] := by
        rw [List.flatMap_map, List.flatMap_map]
        rfl
      rw [List.map_cons, intercalate_cons, hwords, List.append_assoc]
      refine leads_next fun span => ⟨_, next?_term a.item span (.inl rfl) _, ?_⟩
      apply leads_terms _
      intro ys close hys
      apply h _ close
      rw [List.map_cons, hys, List.map_map]
      rfl

end Arguments

section Literals

variable {Q : State → Prop} {ws : List Word} {before : Before}

/-- An atom has the table and the arguments of a literal. -/
structure Atom.Says (a : Atom) (l : DatalogPolicy.Literal) : Prop where
  table : a.relation.text = l.tableName none
  arguments : ∃ ys : List Lexeme, a.params = ys.map .positional ∧
    ys.map wordOf = l.arguments.map fun a => termWord a.item

/-- A surface literal says what a literal does. -/
structure Literal.Says (s : Literal) (l : DatalogPolicy.Literal) : Prop where
  negation : s.negation.isSome = l.negated
  modal : s.modal.map (·.name.text) = l.table.modal
  atom : s.atom.Says l

theorem wordsOf_namePieces (cs : List Char) : wordsOf (namePieces cs) =
    [(.colon, String.ofList [':'])].intercalate ((partsOf cs).map fun p => [identifierWord p]) ++
      (signOf? cs).toList.map fun t => (t, String.ofList (signText t)) := by
  rw [namePieces, wordsOf_append, wordsOf_intercalate, List.map_map]
  refine congrArg (_ ++ ·) ?_
  rw [signPieces]
  cases signOf? cs <;> rfl

/-- The identifiers and the sign that were read for a name make up its text. -/
theorem Relation.text_eq {relation : Relation} {cs : List Char}
    (hpieces : relation.pieces.map (·.text) = (partsOf cs).map String.ofList)
    (hsign : relation.sign.map (·.text) = (signOf? cs).map (String.ofList ∘ signText)) :
    relation.text = String.ofList cs := by
  have hlist : ((partsOf cs).map String.ofList).map String.toList = partsOf cs := by
    rw [List.map_map]
    refine (List.map_congr_left fun p _ => ?_).trans (List.map_id _)
    exact String.toList_ofList
  have hend : (relation.sign.elim "" (·.text)).toList = (signOf? cs).elim [] signText := by
    cases hrelation : relation.sign <;> cases hcs : signOf? cs <;> rw [hrelation, hcs] at hsign
    · rfl
    · cases hsign
    · cases hsign
    · exact (congrArg String.toList (Option.some.inj hsign)).trans String.toList_ofList
  apply String.toList_inj.1
  calc relation.text.toList
      = [':'].intercalate (partsOf cs) ++ (signOf? cs).elim [] signText := by
        rw [Relation.text, hpieces, String.toList_append, String.toList_intercalate, hlist, hend]
        rfl
    _ = cs := intercalate_parts cs
    _ = (String.ofList cs).toList := String.toList_ofList.symm

theorem signOf?_mem (cs : List Char) : signOf? cs ∈ [none, some .plus, some .minus] := by
  rw [signOf?]
  split <;> simp

/-- The words of a table with its arguments are read as its atom. -/
theorem leads_atom (l : DatalogPolicy.Literal) {lead : Lead} {r : Reading}
    (hr : ∀ span text, r.next? ⟨.identifier, span, text⟩ =
      some (.name lead ⟨.identifier, span, text⟩))
    (h : ∀ a : Atom, a.Says l → Leads Q ws ⟨before, .closed lead a⟩) :
    Leads Q (wordsOf l.atomPieces ++ ws) ⟨before, r⟩ := by
  obtain ⟨first, more, hparts⟩ :=
    List.exists_cons_of_ne_nil (List.splitOn_ne_nil ':' (unsigned (l.tableName none).toList))
  have hwords : wordsOf l.atomPieces ++ ws = identifierWord first ::
      (more.flatMap (fun part => [(.colon, String.ofList [':']), identifierWord part]) ++
        (((signOf? (l.tableName none).toList).toList.map fun t => (t, String.ofList (signText t))) ++
          (.openParen, String.ofList ['(']) :: (wordsOf (argumentPieces l.arguments) ++
            (.closeParen, String.ofList [')']) :: ws))) := by
    rw [Literal.atomPieces, wordsOf_append, wordsOf_namePieces, partsOf, hparts, List.map_cons,
      intercalate_cons, List.flatMap_map, wordsOf_cons, wordsOf_append, wordsOf_cons]
    simp only [List.append_assoc, List.cons_append, List.nil_append]
    rfl
  rw [hwords]
  refine leads_next fun span => ⟨named lead { first := ⟨.identifier, span, String.ofList first⟩ },
    hr span _, ?_⟩
  apply leads_parts rfl
  intro more' hmore
  refine leads_sign (signOf?_mem _) rfl fun sign hsign => ?_
  apply leads_arguments
  intro ys close hys
  refine h _ ⟨?_, ys, rfl, hys⟩
  refine (Relation.text_eq ?_ hsign).trans String.ofList_toList
  rw [partsOf, hparts, List.map_cons, ← hmore]
  rfl

/-- The words of a literal are read as a literal that says the same. -/
theorem leads_literal (l : DatalogPolicy.Literal)
    (h : ∀ (r : Reading) (s : Literal), r.Ends s → s.Says l → Leads Q ws ⟨before, r⟩) :
    Leads Q (wordsOf l.pieces ++ ws) { before } := by
  have hpositive (r : Reading) (negation : Option Lexeme) (hnegation : negation.isSome = l.negated)
      (hr : ∀ span text, r.next? ⟨.identifier, span, text⟩ =
        some (.name { negation } ⟨.identifier, span, text⟩)) :
      Leads Q (wordsOf l.positivePieces ++ ws) ⟨before, r⟩ := by
    rw [Literal.positivePieces]
    cases hmodal : l.table.modal with
    | none =>
        refine leads_atom l hr fun a ha => h _ ⟨negation, none, a⟩ ⟨rfl, fun _ => rfl⟩
          ⟨hnegation, hmodal.symm, ha⟩
    | some modal =>
        have hwords : wordsOf ((.terminal .identifier, modal.toList) ::
            (.terminal .openBracket, ['[']) ::
              (l.atomPieces ++ [(.terminal .closeBracket, [']'])])) ++ ws =
            identifierWord modal.toList :: (.openBracket, String.ofList ['[']) ::
              (wordsOf l.atomPieces ++ (.closeBracket, String.ofList [']']) :: ws) := by
          rw [wordsOf_cons, wordsOf_cons, wordsOf_append, wordsOf_cons]
          simp only [List.append_assoc, List.cons_append]
          rfl
        rw [hwords]
        refine leads_next fun span => ⟨_, hr span _, leads_next fun _ => ⟨_, rfl, ?_⟩⟩
        refine leads_atom l (fun _ _ => rfl) fun a ha => leads_next fun _ => ⟨_, rfl, ?_⟩
        refine h _ ⟨negation, some _, a⟩ ⟨rfl, fun _ => rfl⟩ ⟨hnegation, ?_, ha⟩
        rw [hmodal]
        exact congrArg some String.ofList_toList
  rw [Literal.pieces]
  cases hnegated : l.negated with
  | true => exact leads_next fun span => ⟨_, rfl, hpositive _ (some _) hnegated.symm fun _ _ => rfl⟩
  | false => exact hpositive _ none hnegated.symm fun _ _ => rfl

end Literals

section Statements

variable {Q : State → Prop} {ws : List Word}

/-- What a statement says is a formula, its literals being in the same order. -/
inductive Statement.Says : Statement → Formula → Prop
  | fact {s l} (h : s.Says l) : Says (.fact s) (.literal l)
  | rule {head heads first body r} (hheads : List.Forall₂ Literal.Says (head :: heads) r.heads)
      (hbody : List.Forall₂ Literal.Says (first :: body) r.body) :
      Says (.rule head heads first body) (.rule r)

/-- The word of a comma. -/
def commaWord : Word := (.comma, String.ofList [','])

/-- Literals behind commas are collected up to the last, which is left to what follows it. -/
theorem leads_literals (before : List Literal → Before)
    (hcomma : ∀ init s, State.separate? s .comma (before init) = some (before (init ++ [s])))
    {l : DatalogPolicy.Literal} {ls done : List DatalogPolicy.Literal} {init : List Literal}
    (hinit : List.Forall₂ Literal.Says init done)
    (h : ∀ init r s, r.Ends s → List.Forall₂ Literal.Says (init ++ [s]) (done ++ l :: ls) →
      Leads Q ws ⟨before init, r⟩) :
    Leads Q (wordsOf l.pieces ++ ls.flatMap (fun l => commaWord :: wordsOf l.pieces) ++ ws)
      { before := before init } := by
  induction ls generalizing l done init with
  | nil =>
      rw [List.flatMap_nil, List.append_nil]
      refine leads_literal l fun r s hends hmeans => h init r s hends ?_
      exact List.rel_append hinit (.cons hmeans .nil)
  | cons next ls ih =>
      rw [List.append_assoc]
      apply leads_literal l
      intro r s hends hmeans
      apply leads_separate hends (hcomma init s)
      apply ih (List.rel_append hinit (.cons hmeans .nil))
      intro init r s hends hall
      apply h init r s hends
      rwa [List.append_assoc] at hall

theorem wordsOf_literalsPieces (between : List Char) (l : DatalogPolicy.Literal)
    (ls : List DatalogPolicy.Literal) :
    wordsOf (literalsPieces between (l :: ls)) =
      wordsOf l.pieces ++ ls.flatMap fun l => commaWord :: wordsOf l.pieces := by
  rw [literalsPieces, wordsOf_intercalate, List.map_map, List.map_cons, intercalate_cons,
    List.flatMap_map]
  rfl

/-- The heads that have been read. -/
def beforeHead : List Literal → Before
  | [] => .nothing
  | head :: heads => .heads head heads

/-- The part of a body that has been read behind the heads. -/
def beforeBody (head : Literal) (heads : List Literal) : List Literal → Before
  | [] => .implies head heads
  | first :: body => .body head heads first body

theorem separate?_beforeHead (init : List Literal) (l : Literal) :
    State.separate? l .comma (beforeHead init) = some (beforeHead (init ++ [l])) := by
  cases init <;> rfl

theorem separate?_beforeBody (head : Literal) (heads init : List Literal) (l : Literal) :
    State.separate? l .comma (beforeBody head heads init) =
      some (beforeBody head heads (init ++ [l])) := by
  cases init <;> rfl

/-- The words of a formula lead to where its statement can only be completed. -/
theorem leads_formula (pretty : Bool) {f : Formula} (hf : f.IsPrintable) :
    Leads (fun s => ∃ l st, s.reading.Ends l ∧ State.statement? l s.before = some st ∧ st.Says f)
      (wordsOf (f.pieces pretty)) {} := by
  cases f with
  | literal l =>
      have hpieces : wordsOf ((Formula.literal l).pieces pretty) = wordsOf l.pieces ++ [] :=
        (List.append_nil _).symm
      rw [hpieces]
      exact leads_literal l fun r s hends hmeans =>
        leads_nil.2 ⟨s, .fact s, hends, rfl, .fact hmeans⟩
  | rule r =>
      obtain ⟨head, heads, hheads⟩ := List.exists_cons_of_ne_nil r.heads_ne
      obtain ⟨first, body, hbody⟩ := List.exists_cons_of_ne_nil hf.1
      have hwords : wordsOf ((Formula.rule r).pieces pretty) =
          wordsOf head.pieces ++ heads.flatMap (fun l => commaWord :: wordsOf l.pieces) ++
            (.implies, String.ofList [':', '-']) :: (wordsOf first.pieces ++
              body.flatMap (fun l => commaWord :: wordsOf l.pieces) ++ []) := by
        rw [List.append_nil, ← wordsOf_literalsPieces [' '], ← wordsOf_literalsPieces (indent pretty),
          Formula.pieces, hheads, hbody, wordsOf_append]
        rfl
      rw [hwords]
      refine leads_literals beforeHead separate?_beforeHead (.nil : List.Forall₂ Literal.Says [] [])
        fun init r s hends hheadsSay => ?_
      obtain ⟨head', heads', hinit⟩ := List.exists_cons_of_ne_nil (List.concat_ne_nil s init)
      have himplies : State.separate? s .implies (beforeHead init) =
          some (beforeBody head' heads' []) := by
        cases init <;> cases hinit <;> rfl
      apply leads_separate hends himplies
      refine leads_literals (beforeBody head' heads') (separate?_beforeBody head' heads')
        (.nil : List.Forall₂ Literal.Says [] []) fun init r s hends hbodySays => ?_
      obtain ⟨first', body', hbody'⟩ := List.exists_cons_of_ne_nil (List.concat_ne_nil s init)
      refine leads_nil.2 ⟨s, .rule head' heads' first' body', hends, ?_, .rule ?_ ?_⟩
      · cases init <;> cases hbody' <;> rfl
      · rwa [hheads, ← hinit]
      · rwa [hbody, ← hbody']

/-- No lexeme that may follow a literal goes on with one that can end. -/
theorem Reading.next?_eq_none {r : Reading} {l : Literal} {x : Lexeme} (hl : r.literal? = some l)
    (hx : x.terminal ∈ Reading.followsLiteral) : r.next? x = none := by
  obtain ⟨terminal, span, text⟩ := x
  cases r with
  | opening | negated | bracket | colon | params => cases hl
  | whole => rfl
  | name lead first | pieces lead relation | signed lead relation | closed lead atom =>
      obtain ⟨negation, modal⟩ := lead
      cases modal with
      | none => cases terminal <;> first | rfl | simp [Reading.followsLiteral] at hx
      | some => cases hl

/-- A lexeme behind a statement belongs to what may follow its last literal. -/
theorem terminal_of_restart {x : Lexeme} {s : State} (h : State.restart? x = some s) :
    x.terminal ∈ [.identifier, .negation, .semicolon, .period] := by
  obtain ⟨terminal, span, text⟩ := x
  cases terminal <;> cases h <;> simp

/-- A lexeme that terminates a statement, or begins another one, completes the statement. -/
theorem next?_complete {before : Before} {r : Reading} {l : Literal} {st : Statement} {x : Lexeme}
    {s : State} (hl : r.literal? = some l) (hstatement : State.statement? l before = some st)
    (hrestart : State.restart? x = some s) :
    State.next? ⟨before, r⟩ x = some (some st, s) := by
  have hterminal := terminal_of_restart hrestart
  have hfollows : [.identifier, .negation, .semicolon, .period] ⊆ Reading.followsLiteral := by
    decide
  have hseparate : State.separate? l x.terminal before = none := by
    generalize x.terminal = terminal at hterminal
    cases before <;> cases terminal <;> first | rfl | simp at hterminal
  simp only [State.next?, Reading.next?_eq_none hl (hfollows hterminal), hl, Option.bind_some,
    hseparate, hstatement, hrestart, Option.map_some]

/-- A lexeme that goes on with an empty text begins a statement. -/
theorem restart?_of_next? {x : Lexeme} {done : Option Statement} {s : State}
    (h : ({} : State).next? x = some (done, s)) : done = none ∧ State.restart? x = some s := by
  obtain ⟨terminal, span, text⟩ := x
  cases terminal <;> cases h <;> exact ⟨rfl, rfl⟩

/-- The end of the text and the lexemes of another statement complete a statement. -/
theorem run_complete {before : Before} {r : Reading} {l : Literal} {st : Statement}
    {rest : List Lexeme} {sts : List Statement} (hl : r.literal? = some l)
    (hstatement : State.statement? l before = some st) (hrun : State.run {} rest = .ok sts) :
    State.run ⟨before, r⟩ rest = .ok (st :: sts) := by
  have hopening : r ≠ .opening := by
    rintro rfl
    cases hl
  cases rest with
  | nil =>
      cases hrun
      have hfinish : State.finish? ⟨before, r⟩ = some (some st) := by
        rw [State.finish?]
        split
        · next hr => exact absurd hr hopening
        · rw [hl, Option.bind_some, hstatement]
          rfl
      rw [State.run, hfinish]
      rfl
  | cons x rest =>
      rw [State.run] at hrun ⊢
      split at hrun
      · next done s hnext =>
          obtain ⟨rfl, hrestart⟩ := restart?_of_next? hnext
          rw [next?_complete hl hstatement hrestart]
          cases hrest : s.run rest with
          | error e =>
              rw [hrest] at hrun
              cases hrun
          | ok sts' =>
              rw [hrest] at hrun
              cases hrun
              simp only [hrest]
              rfl
      · cases hrun

/-- The words of formulas are parsed as statements that say the same. -/
theorem parse_words (pretty : Bool) {fs : List Formula} (h : ∀ f ∈ fs, f.IsPrintable)
    {xs : List Lexeme} (hxs : xs.map wordOf = fs.flatMap fun f => wordsOf (f.pieces pretty)) :
    ∃ sts, parse xs = .ok sts ∧ List.Forall₂ Statement.Says sts fs := by
  induction fs generalizing xs with
  | nil =>
      cases List.map_eq_nil_iff.1 hxs
      exact ⟨[], rfl, .nil⟩
  | cons f fs ih =>
      obtain ⟨hf, hfs⟩ := List.forall_mem_cons.1 h
      rw [List.flatMap_cons] at hxs
      obtain ⟨ys, zs, rfl, hys, hzs⟩ := List.map_eq_append_iff.1 hxs
      obtain ⟨sts, hparse, hmeans⟩ := ih hfs hzs
      obtain ⟨⟨before, r⟩, ⟨l, st, hends, hstatement, hst⟩, hrun⟩ :=
        (leads_formula pretty hf).exists_run hys
      refine ⟨st :: sts, ?_, .cons hst hmeans⟩
      rw [parse, hrun]
      exact run_complete hends.literal hstatement hparse

end Statements

end DatalogPolicy.Surface

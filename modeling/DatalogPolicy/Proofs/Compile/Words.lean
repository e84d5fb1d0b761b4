import DatalogPolicy.Proofs.Compile.RoundTrip
import DatalogPolicy.Proofs.Surface.Map

/-!
# Compilation looks at words only

What a statement is compiled to depends on its place in a source only in the places that
are recorded with terms, literals and errors. Statements with the same words are compiled to
formulas that are written alike, with errors of the same messages.
-/

namespace DatalogPolicy

open Token

variable {f : Lexeme → Lexeme}

namespace Surface

variable (hf : ∀ x, wordOf (f x) = wordOf x)

include hf

theorem terminal_map (x : Lexeme) : (f x).terminal = x.terminal := congrArg Prod.fst (hf x)

theorem text_map (x : Lexeme) : (f x).text = x.text := congrArg Prod.snd (hf x)

theorem Relation.text_map (r : Relation) : (r.map f).text = r.text := by
  have hpieces : (r.map f).pieces.map (·.text) = r.pieces.map (·.text) := by
    simp only [Relation.pieces, Relation.map, List.map_cons, List.map_map, Function.comp_def,
      Surface.text_map hf]
  have hsign : (r.map f).sign.elim "" (·.text) = r.sign.elim "" (·.text) := by
    simp only [Relation.map, Option.elim_map, Function.comp_def, Surface.text_map hf]
  rw [Relation.text, hpieces, hsign, Relation.text]

theorem Param.text_map (p : Param) : (p.map f).text = p.text := by
  cases p <;> simp only [Param.map, Param.text, Surface.text_map hf]

omit hf in
theorem Param.term_map (p : Param) : (p.map f).term = f p.term := by
  cases p <;> rfl

omit hf in
theorem Param.isNamed_map (p : Param) : (p.map f).isNamed = p.isNamed := by
  cases p <;> rfl

theorem Atom.text_map (a : Atom) : (a.map f).text = a.text := by
  simp only [Atom.text, Atom.map, Relation.text_map hf, List.map_map, Function.comp_def,
    Param.text_map hf]

theorem Atom.vars_map (a : Atom) : (a.map f).vars = a.vars := by
  simp only [Atom.vars, Atom.map, List.filter_map, List.map_map, Function.comp_def, Param.term_map,
    terminal_map hf, Surface.text_map hf]

omit hf in
theorem Statement.literals_map (s : Statement) :
    (s.map f).literals = s.literals.map (·.map f) := by
  cases s with
  | fact l => rfl
  | rule head heads first body =>
      simp only [Statement.map, Statement.literals, List.map_append, List.map_cons]

end Surface

namespace Compile

/-- An outcome without the places in it: a view of its value, and the messages of its errors. -/
def Outcome.placeless {α β : Type} (view : α → β) (o : Outcome α) : β × List String :=
  (view o.value, o.errors.map PolicyError.message)

section Terms

/-- The term of a result, or the message of its error. -/
def placelessTerm (r : Except PolicyError (Located Term)) : Except String Term :=
  (r.map (·.item)).mapError PolicyError.message

theorem placelessTerm_term (s s' : Site) {x y : Lexeme} (h : wordOf x = wordOf y) :
    placelessTerm (s.term x) = placelessTerm (s'.term y) := by
  obtain ⟨terminal, span, text⟩ := x
  obtain ⟨terminal', span', text'⟩ := y
  obtain ⟨rfl, rfl⟩ : terminal = terminal' ∧ text = text' := Prod.mk.inj h
  cases terminal with
  | integer =>
      simp only [Site.term]
      cases readInteger? text <;> cases Binary64.read? text <;> rfl
  | float =>
      simp only [Site.term]
      cases Binary64.read? text <;> rfl
  | string =>
      simp only [Site.term]
      cases Text.quotedValue text <;> rfl
  | _ => rfl

/-- The items of located terms. -/
abbrev items (ts : List (Located Term)) : List Term := ts.map (·.item)

theorem placeless_terms (s : Site) (xs : List Lexeme) :
    (s.terms xs).placeless items =
      ((xs.map fun x => placelessTerm (s.term x)).filterMap Except.toOption,
        (xs.map fun x => placelessTerm (s.term x)).filterMap fun
          | .ok _ => none
          | .error message => some message) := by
  simp only [Outcome.placeless, Site.terms, List.map_filterMap, List.filterMap_map]
  refine Prod.ext ?_ ?_
  · refine List.filterMap_congr fun x _ => ?_
    cases h : s.term x <;> simp [placelessTerm, Except.map, Except.mapError, Except.toOption, h]
  · refine List.filterMap_congr fun x _ => ?_
    cases h : s.term x <;> simp [placelessTerm, Except.map, Except.mapError, h]

theorem placeless_terms_map (hf : ∀ x, wordOf (f x) = wordOf x) (s s' : Site) (xs : List Lexeme) :
    (s.terms (xs.map f)).placeless items = (s'.terms xs).placeless items := by
  simp only [placeless_terms, List.map_map, Function.comp_def,
    fun x => placelessTerm_term s s' (hf x)]

end Terms

section References

/-- What references give, without places. -/
def References.items (given : References) : List (String × Term) × List (Nat × Term) :=
  (given.names.map (Prod.map id (·.item)), given.numbers.map (Prod.map id (·.item)))

variable {given given' : References} (columns : List String) (filled : Nat)

theorem any_key {α β γ : Type} [DecidableEq α] (g : β → γ) (entries : List (α × β)) (key : α) :
    (entries.map (Prod.map id g)).any (·.1 = key) = entries.any (·.1 = key) := by
  rw [List.any_map]
  rfl

theorem lookup_map {α β γ : Type} [BEq α] (g : β → γ) (entries : List (α × β)) (key : α) :
    (entries.map (Prod.map id g)).lookup key = (entries.lookup key).map g := by
  induction entries with
  | nil => rfl
  | cons entry rest ih =>
      obtain ⟨k, b⟩ := entry
      rw [List.map_cons, Prod.map_apply, id_eq, List.lookup_cons, List.lookup_cons, ih]
      cases key == k <;> rfl

theorem nameFaults_congr (h : given.items = given'.items) (name : String) :
    nameFaults columns filled given name = nameFaults columns filled given' name := by
  have hnames : given.names.any (·.1 = name) = given'.names.any (·.1 = name) := by
    rw [← any_key Located.item, ← any_key Located.item]
    exact congrArg (fun items => items.1.any (·.1 = name)) h
  rw [nameFaults, hnames, nameFaults]

theorem numberFaults_congr (h : given.items = given'.items) (number : Nat) :
    numberFaults columns filled given number = numberFaults columns filled given' number := by
  have hnumbers : given.numbers.any (·.1 = number) = given'.numbers.any (·.1 = number) := by
    rw [← any_key Located.item, ← any_key Located.item]
    exact congrArg (fun items => items.2.any (·.1 = number)) h
  rw [numberFaults, hnumbers, numberFaults]

theorem addReference_congr (h : given.items = given'.items) {x y : Lexeme}
    (hxy : wordOf x = wordOf y) {t t' : Located Term} (ht : t.item = t'.item) :
    (addReference columns filled given x t).1.items =
        (addReference columns filled given' y t').1.items ∧
      (addReference columns filled given x t).2 = (addReference columns filled given' y t').2 := by
  obtain ⟨hterminal, htext⟩ : x.terminal = y.terminal ∧ x.text = y.text := Prod.mk.inj hxy
  obtain ⟨hnames, hnumbers⟩ := Prod.mk.inj h
  rw [addReference, addReference, hterminal, htext]
  split
  · refine ⟨?_, nameFaults_congr columns filled h _⟩
    simp only [References.items, List.map_cons, Prod.map_apply, hnames, hnumbers, ht]
  · cases readColumn? y.text with
    | none => exact ⟨h, rfl⟩
    | some number =>
        refine ⟨?_, numberFaults_congr columns filled h _⟩
        simp only [References.items, List.map_cons, Prod.map_apply, hnames, hnumbers, ht]

/-- References with the same words give the same, and their faults have the same messages. -/
theorem placeless_collectReferences (hf : ∀ x, wordOf (f x) = wordOf x) (s s' : Site)
    {fault fault' : ReferenceFault → PolicyError}
    (hfault : ∀ r, (fault r).message = (fault' r).message) (h : given.items = given'.items)
    (params : List Surface.Param) :
    (collectReferences s fault columns filled given (params.map (·.map f))).placeless
        References.items =
      (collectReferences s' fault' columns filled given' params).placeless References.items := by
  induction params generalizing given given' with
  | nil => exact congrArg (·, []) h
  | cons p params ih =>
      cases p with
      | positional x =>
          obtain ⟨hvalue, herrors⟩ := Prod.mk.inj (ih h)
          refine Prod.ext hvalue ?_
          exact congrArg₂ List.cons (hfault _) herrors
      | named column x =>
          have hterm := placelessTerm_term s s' (hf x)
          simp only [List.map_cons, Surface.Param.map, collectReferences]
          cases hx : s.term (f x) with
          | error e =>
              cases hx' : s'.term x with
              | ok t => simp [hx, hx', placelessTerm, Except.map, Except.mapError] at hterm
              | error e' =>
                  rw [hx, hx'] at hterm
                  obtain ⟨hvalue, herrors⟩ := Prod.mk.inj (ih h)
                  refine Prod.ext hvalue ?_
                  exact congrArg₂ List.cons (Except.error.inj hterm) herrors
          | ok t =>
              cases hx' : s'.term x with
              | error e' => simp [hx, hx', placelessTerm, Except.map, Except.mapError] at hterm
              | ok t' =>
                  rw [hx, hx'] at hterm
                  obtain ⟨hitems, hfaults⟩ :=
                    addReference_congr columns filled h (hf column) (Except.ok.inj hterm)
                  obtain ⟨hvalue, herrors⟩ := Prod.mk.inj (ih hitems)
                  refine Prod.ext hvalue ?_
                  have hmessages : (fun r => (fault r).message) = fun r => (fault' r).message :=
                    funext hfault
                  simp only [Outcome.placeless, List.map_append, List.map_map, Function.comp_def,
                    hfaults, hmessages]
                  exact congrArg _ herrors

/-- What stands in a column, without its place. -/
abbrev placelessColumn : Except ReferenceFault (Located Term) → Except ReferenceFault Term :=
  Except.map (·.item)

theorem placeless_fillColumns {s s' : Site} (hstem : s.stem = s'.stem) (hindex : s.index = s'.index)
    (h : given.items = given'.items) (number : Nat) (columns : List String) :
    (fillColumns s given number columns).map placelessColumn =
      (fillColumns s' given' number columns).map placelessColumn := by
  induction columns generalizing given given' number with
  | nil => rfl
  | cons column columns ih =>
      obtain ⟨hnames, hnumbers⟩ := Prod.mk.inj h
      have hothers : References.items { given with names := given.names.filter (·.1 ≠ column) } =
          References.items { given' with names := given'.names.filter (·.1 ≠ column) } := by
        refine Prod.ext ?_ hnumbers
        have hfilter := congrArg (List.filter (·.1 ≠ column)) hnames
        rw [List.filter_map, List.filter_map] at hfilter
        exact hfilter
      have hname : (given.names.lookup column).map Located.item =
          (given'.names.lookup column).map Located.item := by
        rw [← lookup_map, ← lookup_map, hnames]
      have hnumber : (given.numbers.lookup number).map Located.item =
          (given'.numbers.lookup number).map Located.item := by
        rw [← lookup_map, ← lookup_map, hnumbers]
      simp only [fillColumns, List.map_cons, ih hothers, hstem, hindex]
      congr 1
      generalize given.names.lookup column = a at hname
      generalize given'.names.lookup column = a' at hname
      generalize given.numbers.lookup number = b at hnumber
      generalize given'.numbers.lookup number = b' at hnumber
      rcases a with _ | ⟨t, _⟩ <;> rcases a' with _ | ⟨t', _⟩ <;> cases hname <;>
        rcases b with _ | ⟨u, _⟩ <;> rcases b' with _ | ⟨u', _⟩ <;> cases hnumber <;> rfl

/-- The terms in some columns, without places. -/
theorem items_filled (cells : List (Except ReferenceFault (Located Term))) :
    items (cells.filterMap (·.toOption)) = (cells.map placelessColumn).filterMap (·.toOption) := by
  rw [items, List.map_filterMap, List.filterMap_map]
  refine List.filterMap_congr fun r _ => ?_
  cases r <;> rfl

/-- The messages of the faults in some columns. -/
theorem messages_filled {fault : ReferenceFault → PolicyError} {message : ReferenceFault → String}
    (hfault : ∀ r, (fault r).message = message r)
    (cells : List (Except ReferenceFault (Located Term))) :
    (cells.filterMap fun
        | .ok _ => none
        | .error r => some (fault r)).map PolicyError.message =
      (cells.map placelessColumn).filterMap fun
        | .ok _ => none
        | .error r => some (message r) := by
  rw [List.map_filterMap, List.filterMap_map]
  refine List.filterMap_congr fun r _ => ?_
  cases r with
  | ok t => rfl
  | error r => exact congrArg some (hfault r)

end References

section Arguments

variable (hf : ∀ x, wordOf (f x) = wordOf x) (s s' : Site)

/-- What is done depends on errors in that there are any, so on their messages only. -/
theorem Outcome.placeless_ite {α β : Type} {view : α → β} {es es' : List PolicyError}
    {a a' b b' : Outcome α} (hes : es.map PolicyError.message = es'.map PolicyError.message)
    (ha : a.placeless view = a'.placeless view) (hb : b.placeless view = b'.placeless view) :
    (if es.isEmpty then a else b).placeless view =
      (if es'.isEmpty then a' else b').placeless view := by
  have hempty : es.isEmpty = es'.isEmpty := by
    rw [← List.isEmpty_map (f := PolicyError.message), hes, List.isEmpty_map]
  rw [hempty]
  split
  · exact ha
  · exact hb

include hf

/-- The arguments of an atom whose columns are known depend on its words, on the number of its
literal and on the stem of fresh variables. -/
theorem placeless_knownArguments (hstem : s.stem = s'.stem) (hindex : s.index = s'.index)
    (atom : Surface.Atom) (columns : List String) :
    (knownArguments s (atom.map f) columns).placeless items =
      (knownArguments s' atom columns).placeless items := by
  have hleading : (atom.map f).params.takeWhile (!·.isNamed) =
      (atom.params.takeWhile (!·.isNamed)).map (·.map f) := by
    simp only [Surface.Atom.map, List.takeWhile_map, Function.comp_def, Surface.Param.isNamed_map]
  have hdrop (n : Nat) : (atom.map f).params.drop n = (atom.params.drop n).map (·.map f) :=
    List.map_drop.symm
  simp only [knownArguments, hleading, hdrop, List.length_map, Surface.Atom.text_map hf]
  generalize atom.params.takeWhile (!·.isNamed) = leading
  have hparams : (leading.map (·.map f)).map (·.term) = (leading.map (·.term)).map f := by
    simp only [List.map_map, Function.comp_def, Surface.Param.term_map]
  rw [hparams]
  have hfault (r : ReferenceFault) :
      (PolicyError.policy (.reference atom.text r) (s.locate (atom.map f).span)).message =
        (PolicyError.policy (.reference atom.text r) (s'.locate atom.span)).message := rfl
  obtain ⟨hterms, htermErrors⟩ :=
    Prod.mk.inj (placeless_terms_map hf s s' (leading.map (·.term)))
  obtain ⟨hgiven, hreferenceErrors⟩ := Prod.mk.inj (placeless_collectReferences columns
    leading.length hf s s' hfault (rfl : References.items {} = _)
    (atom.params.drop leading.length))
  generalize s.terms _ = positional at hterms htermErrors
  generalize s'.terms _ = positional' at hterms htermErrors
  generalize collectReferences s _ _ _ _ _ = references at hgiven hreferenceErrors
  generalize collectReferences s' _ _ _ _ _ = references' at hgiven hreferenceErrors
  have herrors : (positional.errors ++ references.errors).map PolicyError.message =
      (positional'.errors ++ references'.errors).map PolicyError.message := by
    rw [List.map_append, htermErrors, hreferenceErrors, List.map_append]
  refine Outcome.placeless_ite herrors ?_ (Prod.ext rfl herrors)
  have hcells := placeless_fillColumns hstem hindex hgiven leading.length
    (columns.drop leading.length)
  have hfaults := messages_filled hfault (fillColumns s references.value leading.length
    (columns.drop leading.length))
  rw [hcells, ← messages_filled fun r => rfl] at hfaults
  refine Outcome.placeless_ite hfaults (Prod.ext ?_ rfl) (Prod.ext rfl hfaults)
  have hfilled := items_filled (fillColumns s references.value leading.length
    (columns.drop leading.length))
  rw [hcells, ← items_filled] at hfilled
  simp only [Outcome.placeless, items, List.map_append]
  exact congrArg₂ List.append hterms hfilled

theorem placeless_arguments (hstem : s.stem = s'.stem) (hindex : s.index = s'.index)
    (atom : Surface.Atom) (table : TableName) (columns : Option (List String)) :
    (arguments s (atom.map f) table columns).placeless items =
      (arguments s' atom table columns).placeless items := by
  cases columns with
  | some columns => exact placeless_knownArguments hf s s' hstem hindex atom columns
  | none =>
      have hnamed : (atom.map f).params.any (·.isNamed) = atom.params.any (·.isNamed) := by
        simp only [Surface.Atom.map, List.any_map, Function.comp_def, Surface.Param.isNamed_map]
      have hterms : (atom.map f).params.map (·.term) = (atom.params.map (·.term)).map f := by
        simp only [Surface.Atom.map, List.map_map, Function.comp_def, Surface.Param.term_map]
      rw [arguments, arguments, hnamed, hterms, Surface.Atom.text_map hf]
      split
      · rfl
      · exact placeless_terms_map hf s s' _

end Arguments

section Formulas

variable (hf : ∀ x, wordOf (f x) = wordOf x)

include hf

theorem placeless_literal (settings : Settings) (s s' : Site) (hstem : s.stem = s'.stem)
    (hindex : s.index = s'.index) (l : Surface.Literal) :
    (literal settings s (l.map f)).placeless Literal.content =
      (literal settings s' l).placeless Literal.content := by
  have hrelation : (l.map f).atom.relation.text = l.atom.relation.text :=
    Surface.Relation.text_map hf _
  have hmodal : (l.map f).modal.map (·.name.text) = l.modal.map (·.name.text) := by
    simp only [Surface.Literal.map, Option.map_map, Function.comp_def, Surface.Modal.map,
      Surface.text_map hf]
  have hnegated : (l.map f).negation.isSome = l.negation.isSome := Option.isSome_map
  obtain ⟨hvalue, herrors⟩ := Prod.mk.inj (placeless_arguments hf s s' hstem hindex l.atom
    { TableName.ofText settings.modules l.atom.relation.text with
      modal := l.modal.map (·.name.text) } (columns? settings _))
  simp only [literal, hrelation, hmodal, hnegated]
  exact Prod.ext (congrArg (Literal.Content.mk _ _) hvalue) herrors

/-- Literals from an index on depend on their words and their numbers. -/
theorem placeless_literals (settings : Settings) (source source' : Source) (stem : String)
    (index : Nat) (ls : List Surface.Literal) :
    (literals settings source stem index (ls.map (·.map f))).map (·.placeless Literal.content) =
      (literals settings source' stem index ls).map (·.placeless Literal.content) := by
  refine List.ext_getElem? fun i => ?_
  simp only [literals, List.getElem?_map, List.getElem?_mapIdx, Option.map_map]
  cases ls[i]? with
  | none => rfl
  | some l =>
      exact congrArg some (placeless_literal hf settings ⟨source.lines, index + i, stem⟩
        ⟨source'.lines, index + i, stem⟩ rfl rfl l)

theorem freshStem_map (st : Surface.Statement) : freshStem (st.map f) = freshStem st := by
  simp only [freshStem, Surface.Statement.literals_map, List.flatMap_map, Surface.Literal.map,
    Surface.Atom.vars_map hf]

omit hf in
/-- A rule is written as its literals are, and its errors are theirs. -/
theorem placeless_rule (settings : Settings) (source : Source) (head : Surface.Literal)
    (heads : List Surface.Literal) (first : Surface.Literal) (body : List Surface.Literal) :
    (formula settings source (.rule head heads first body)).placeless Formula.written =
      let stem := freshStem (.rule head heads first body)
      let one := (literal settings ⟨source.lines, 0, stem⟩ head).placeless Literal.content
      let others := (literals settings source stem 1 heads).map (·.placeless Literal.content)
      let rest := (literals settings source stem (heads.length + 1) (first :: body)).map
        (·.placeless Literal.content)
      (.inr (one.1 :: others.map Prod.fst, rest.map Prod.fst),
        one.2 ++ (others ++ rest).flatMap Prod.snd) := by
  simp only [formula, Outcome.placeless, Formula.written, List.map_cons, List.map_map,
    List.map_append, List.map_flatMap, List.flatMap_append, List.flatMap_map, Function.comp_def]

/-- A formula is written as the words of its statement say, wherever this stands. -/
theorem placeless_formula (settings : Settings) (source source' : Source)
    (st : Surface.Statement) :
    (formula settings source (st.map f)).placeless Formula.written =
      (formula settings source' st).placeless Formula.written := by
  have hstem := freshStem_map hf st
  cases st with
  | fact l =>
      have hliteral := placeless_literal hf settings ⟨source.lines, 0, freshStem (.fact (l.map f))⟩
        ⟨source'.lines, 0, freshStem (.fact l)⟩ hstem rfl l
      obtain ⟨hvalue, herrors⟩ := Prod.mk.inj hliteral
      exact Prod.ext (congrArg Sum.inl hvalue) herrors
  | rule head heads first body =>
      let stem := freshStem (.rule head heads first body)
      have hhead := placeless_literal hf settings ⟨source.lines, 0, stem⟩
        ⟨source'.lines, 0, stem⟩ rfl rfl head
      have hheads := placeless_literals hf settings source source' stem 1 heads
      have hbody := placeless_literals hf settings source source' stem (heads.length + 1)
        (first :: body)
      simp only [Surface.Statement.map] at hstem ⊢
      rw [List.map_cons] at hbody
      simp only [placeless_rule, hstem, List.length_map, hhead, hheads, hbody, stem]

omit hf in
/-- The source makes no difference to how the formula of a statement is written. -/
theorem placeless_formula_source (settings : Settings) (source source' : Source)
    (st : Surface.Statement) :
    (formula settings source st).placeless Formula.written =
      (formula settings source' st).placeless Formula.written :=
  (placeless_formula (f := id) (fun _ => rfl) settings source source st).symm.trans
    (placeless_formula (fun _ => rfl) settings source source' st)

omit hf in
/-- Formulas are written, and their errors reported, statement by statement. -/
theorem placeless_formulas (settings : Settings) (source : Source)
    (sts : List Surface.Statement) :
    (formulas settings source sts).placeless (List.map Formula.written) =
      let each := sts.map fun st => (formula settings source st).placeless Formula.written
      (each.map Prod.fst, each.flatMap Prod.snd) := by
  simp only [formulas, Outcome.placeless, List.map_map, List.map_flatMap, List.flatMap_map,
    Function.comp_def]

end Formulas

end Compile

end DatalogPolicy

import DatalogPolicy.Compile.Session
import DatalogPolicy.Proofs.Formula.Equality
import DatalogPolicy.Proofs.Surface.Parser
import DatalogPolicy.Proofs.Text.Escape

/-!
# Compiling written policies

A written policy is scanned into its pieces and parsed as statements that say the same
as its formulas. Their terms are read back, and the first colon of a name is the one
behind the service, so compilation returns the formulas.
-/

namespace DatalogPolicy

open Token

section Tables

theorem TableName.splitService_of_not_mem {text : String} (h : ':' ∉ text.toList) :
    splitService text = (none, text) := by
  have hall : ∀ c ∈ text.toList, decide (c ≠ ':') = true := fun c hc =>
    decide_eq_true fun heq => h (heq ▸ hc)
  have hdrop : text.toList.dropWhile (· ≠ ':') = [] := by
    rw [← List.append_nil text.toList, List.dropWhile_append_of_pos hall]
    rfl
  rw [splitService]
  simp only [hdrop]

theorem TableName.toList_joinService (service table : String) :
    (joinService service table).toList = service.toList ++ ':' :: table.toList := by
  rw [joinService, String.toList_append, String.toList_append, List.append_assoc]
  rfl

theorem TableName.splitService_joinService {service : String} (h : ':' ∉ service.toList)
    (table : String) : splitService (joinService service table) = (some service, table) := by
  have hall : ∀ c ∈ service.toList, decide (c ≠ ':') = true := fun c hc =>
    decide_eq_true fun heq => h (heq ▸ hc)
  have hdrop : (service.toList ++ ':' :: table.toList).dropWhile (· ≠ ':') =
      ':' :: table.toList :=
    (List.dropWhile_append_of_pos hall).trans (List.dropWhile_cons_of_neg (by decide))
  have htake : (service.toList ++ ':' :: table.toList).takeWhile (· ≠ ':') = service.toList := by
    rw [List.takeWhile_append_of_pos hall, List.takeWhile_cons_of_neg (by decide), List.append_nil]
  rw [splitService]
  simp only [toList_joinService, hdrop, htake, String.ofList_toList]

/-- There is no colon in the text of a single identifier with a sign. -/
theorem IsTableText.colon_not_mem {text part sign : String} (h : IsTableText text [part] sign) :
    ':' ∉ text.toList := by
  have hsign : ∀ sign ∈ ["", "+", "-"], ':' ∉ sign.toList := by decide
  rw [h.toList_eq, List.map_singleton, List.intercalate_singleton, List.mem_append]
  exact not_or_intro ((h.identifier part List.mem_cons_self).not_mem (by decide))
    (hsign sign h.sign_mem)

/-- The name of a printable table is split again behind its service. -/
theorem TableName.IsPrintable.ofText_name {t : TableName} (h : t.IsPrintable) :
    { TableName.ofText true (t.name none) with modal := t.modal } = t := by
  obtain ⟨modal, service, table⟩ := t
  cases service with
  | some s =>
      have hname : TableName.name none ⟨modal, some s, table⟩ = joinService s table := rfl
      have hcolon : ':' ∉ s.toList := (h.service s rfl).not_mem (by decide)
      rw [hname, ofText, if_pos rfl, splitService_joinService hcolon]
  | none =>
      have hname : TableName.name none ⟨modal, none, table⟩ = table := rfl
      obtain ⟨parts, sign, htable, hsingle⟩ := h.table
      obtain ⟨part, rfl⟩ := List.length_eq_one_iff.1 (hsingle rfl)
      rw [hname, ofText, if_pos rfl, splitService_of_not_mem htable.colon_not_mem]

end Tables

section Literals

open Compile Surface

variable {site : Site} {source : Source}

/-- The lexeme of a printable term is read as the term. -/
theorem Compile.Site.term_eq (site : Site) {t : Term} (h : t.IsPrintable) {x : Lexeme}
    (hx : wordOf x = termWord t) : ∃ location, site.term x = .ok ⟨t, location⟩ := by
  obtain ⟨terminal, span, text⟩ := x
  obtain ⟨rfl, rfl⟩ : terminal = t.terminal ∧ text = t.text :=
    ⟨congrArg Prod.fst hx, (congrArg Prod.snd hx).trans String.ofList_toList⟩
  refine ⟨site.locate span, ?_⟩
  cases t with
  | var x => rfl
  | const v =>
      cases v with
      | str s =>
          have hvalue : Text.quotedValue (Term.const (.str s)).text = .ok s :=
            Value.quotedValue_quote s
          simp only [Site.term, Term.terminal, hvalue]
      | int i =>
          have hvalue : readInteger? (Term.const (.int i)).text = some i :=
            readInteger?_toString i
          simp only [Site.term, Term.terminal, hvalue]
      | float x =>
          have hvalue : Binary64.read? (Term.const (.float x)).text = some x :=
            Binary64.read?_text h
          simp only [Site.term, Term.terminal, hvalue]

theorem Compile.Site.terms_cons (site : Site) {x : Lexeme} {xs : List Lexeme} {t : Located Term}
    (h : site.term x = .ok t) :
    site.terms (x :: xs) = ⟨t :: (site.terms xs).value, (site.terms xs).errors⟩ := by
  simp only [terms, List.filterMap_cons, h, Except.toOption]

/-- The lexemes of printable arguments are read as their terms. -/
theorem Compile.Site.terms_eq (site : Site) {arguments : List (Located Term)}
    (h : ∀ a ∈ arguments, a.item.IsPrintable) {ys : List Lexeme}
    (hys : ys.map wordOf = arguments.map fun a => termWord a.item) :
    (site.terms ys).value.map (·.item) = arguments.map (·.item) ∧ (site.terms ys).errors = [] := by
  induction arguments generalizing ys with
  | nil =>
      cases List.map_eq_nil_iff.1 hys
      exact ⟨rfl, rfl⟩
  | cons a arguments ih =>
      obtain ⟨ha, harguments⟩ := List.forall_mem_cons.1 h
      obtain ⟨y, ys, rfl, hy, hys⟩ := List.map_eq_cons_iff.1 hys
      obtain ⟨location, hterm⟩ := site.term_eq ha hy
      obtain ⟨hvalue, herrors⟩ := ih harguments hys
      rw [site.terms_cons hterm, List.map_cons, hvalue]
      exact ⟨rfl, herrors⟩

/-- A statement's literal is compiled to the literal that it says. -/
theorem Compile.literal_eq (site : Site) {s : Surface.Literal} {l : Literal}
    (hmeans : s.Says l) (h : l.IsPrintable) :
    (literal {} site s).value.content = l.content ∧ (literal {} site s).errors = [] := by
  obtain ⟨ys, hparams, hys⟩ := hmeans.atom.arguments
  have htable : { TableName.ofText true s.atom.relation.text with
      modal := s.modal.map (·.name.text) } = l.table := by
    rw [hmeans.atom.table, hmeans.modal]
    exact h.table.ofText_name
  have hcolumns : columns? {} l.table = none := by
    rw [columns?]
    cases l.table.service with
    | none => rfl
    | some service =>
        have hempty : (({} : Settings).theories)[service]? = none := Std.ExtTreeMap.getElem?_empty
        rw [Option.bind_some, hempty]
        rfl
  have hnamed : s.atom.params.any (·.isNamed) = false := by
    rw [hparams, List.any_map]
    exact List.any_eq_false.2 fun _ _ => Bool.false_ne_true
  have hterms : s.atom.params.map (·.term) = ys := by
    rw [hparams, List.map_map]
    exact List.map_id ys
  obtain ⟨hvalue, herrors⟩ := site.terms_eq h.arguments hys
  have harguments : arguments site s.atom l.table none = site.terms ys := by
    rw [arguments, hnamed, hterms]
    rfl
  have hliteral : literal {} site s =
      { value := {
          table := l.table
          arguments := (site.terms ys).value
          negated := s.negation.isSome
          location := site.locate s.atom.span }
        errors := (site.terms ys).errors } := by
    simp only [literal, htable, hcolumns, harguments]
  rw [hliteral, Literal.content, hmeans.negation, hvalue]
  exact ⟨rfl, herrors⟩

end Literals

section Formulas

open Compile Surface

/-- What a formula says, with its literals in the order in which they are written. -/
def Formula.written : Formula → Literal.Content ⊕ List Literal.Content × List Literal.Content
  | .literal l => .inl l.content
  | .rule r => .inr (r.heads.map (·.content), r.body.map (·.content))

/-- Formulas that are written alike are equal. -/
theorem Formula.beq_of_written {f g : Formula} (h : f.written = g.written) : (f == g) = true := by
  rw [Formula.beq_iff]
  cases f with
  | literal a =>
      cases g with
      | literal b => exact congrArg Sum.inl (Sum.inl.inj h)
      | rule s => cases h
  | rule r =>
      cases g with
      | literal b => cases h
      | rule s =>
          obtain ⟨hheads, hbody⟩ := Prod.mk.inj (Sum.inr.inj h)
          exact congrArg Sum.inr (by rw [Rule.content, Rule.content, hheads, hbody])

theorem Formula.list_beq_of_written {fs gs : List Formula}
    (h : fs.map Formula.written = gs.map Formula.written) : (fs == gs) = true := by
  induction fs generalizing gs with
  | nil =>
      cases List.map_eq_nil_iff.1 h.symm
      rfl
  | cons f fs ih =>
      obtain ⟨g, gs, rfl, hg, hgs⟩ := List.map_eq_cons_iff.1 h.symm
      rw [List.cons_beq_cons, beq_of_written hg.symm, ih hgs.symm]
      rfl

/-- Literals that say what some literals do are compiled to them, with whatever indices. -/
theorem Compile.mapIdx_literal_eq {ss : List Surface.Literal} {ls : List Literal}
    (hmeans : List.Forall₂ Surface.Literal.Says ss ls) (h : ∀ l ∈ ls, l.IsPrintable)
    (site : Nat → Site) :
    ((ss.mapIdx fun i s => literal {} (site i) s).map (·.value)).map (·.content) =
        ls.map (·.content) ∧
      (ss.mapIdx fun i s => literal {} (site i) s).flatMap (·.errors) = [] := by
  induction hmeans generalizing site with
  | nil => exact ⟨rfl, rfl⟩
  | cons hsay _ ih =>
      obtain ⟨hl, hls⟩ := List.forall_mem_cons.1 h
      obtain ⟨hcontent, herrors⟩ := literal_eq (site 0) hsay hl
      obtain ⟨hcontents, hrest⟩ := ih hls fun i => site (i + 1)
      rw [List.mapIdx_cons, List.map_cons, List.map_cons, List.flatMap_cons, hcontent, herrors,
        hcontents, hrest]
      exact ⟨rfl, rfl⟩

/-- A statement is compiled to the formula that it says. -/
theorem Compile.formula_eq (source : Source) {st : Statement} {f : Formula} (hmeans : st.Says f)
    (h : f.IsPrintable) :
    (formula {} source st).value.written = f.written ∧ (formula {} source st).errors = [] := by
  cases hmeans with
  | fact hsay =>
      obtain ⟨hcontent, herrors⟩ := literal_eq ⟨source.lines, 0, freshStem (.fact _)⟩ hsay h
      exact ⟨congrArg Sum.inl hcontent, herrors⟩
  | @rule head heads first body r hheads hbody =>
      obtain ⟨l, ls, hhead, hrest, hl⟩ := List.forall₂_cons_left_iff.1 hheads
      have hprintable : ∀ l' ∈ l :: ls, l'.IsPrintable := fun l' hl' =>
        h.2 l' (List.mem_append_left _ (hl ▸ hl'))
      obtain ⟨hone, hothers⟩ := List.forall_mem_cons.1 hprintable
      have hbodies : ∀ l' ∈ r.body, l'.IsPrintable := fun l' hl' =>
        h.2 l' (List.mem_append_right _ hl')
      let stem := freshStem (.rule head heads first body)
      obtain ⟨hcontent, herrors⟩ := literal_eq ⟨source.lines, 0, stem⟩ hhead hone
      obtain ⟨hcontents, hrests⟩ := mapIdx_literal_eq hrest hothers
        fun i => ⟨source.lines, 1 + i, stem⟩
      obtain ⟨hbodyContents, hbodyErrors⟩ := mapIdx_literal_eq hbody hbodies
        fun i => ⟨source.lines, heads.length + 1 + i, stem⟩
      constructor
      · refine congrArg Sum.inr (Prod.ext ?_ hbodyContents)
        exact (congrArg₂ List.cons hcontent hcontents).trans (congrArg (List.map _) hl.symm)
      · exact congrArg₂ List.append herrors
          (List.flatMap_append.trans (congrArg₂ List.append hrests hbodyErrors))

/-- Statements are compiled to the formulas that they say. -/
theorem Compile.formulas_eq (source : Source) {sts : List Statement} {fs : List Formula}
    (hmeans : List.Forall₂ Statement.Says sts fs) (h : ∀ f ∈ fs, f.IsPrintable) :
    (formulas {} source sts).value.map (·.written) = fs.map (·.written) ∧
      (formulas {} source sts).errors = [] := by
  induction hmeans with
  | nil => exact ⟨rfl, rfl⟩
  | cons hsay _ ih =>
      obtain ⟨hf, hfs⟩ := List.forall_mem_cons.1 h
      obtain ⟨hwritten, herrors⟩ := formula_eq source hsay hf
      obtain ⟨hvalues, hrest⟩ := ih hfs
      simp only [formulas] at hvalues hrest
      simp only [formulas, List.map_cons, List.flatMap_cons, hwritten, herrors, hvalues, hrest]
      exact ⟨trivial, rfl⟩

/-- Statements without faults are all that a compilation returns. -/
theorem compile_eq_ok {source : Source} {sts : List Statement}
    (hstatements : source.statements = .ok sts) (herrors : (formulas {} source sts).errors = []) :
    compile {} source = .ok (formulas {} source sts).value := by
  simp only [compile, Session.readSource, hstatements, Session.raiseErrors, herrors,
    List.nil_append]
  rfl

/-- A text made of the pieces of formulas is parsed as statements that say the same. -/
theorem Source.statements_eq (file : String) {pieces : List Piece} (hspelled : Spelled pieces [])
    (pretty : Bool) {fs : List Formula} (h : ∀ f ∈ fs, f.IsPrintable)
    (hwords : wordsOf pieces = fs.flatMap fun f => wordsOf (f.pieces pretty)) :
    ∃ sts, (Source.ofText file (String.ofList (textOf pieces))).statements = .ok sts ∧
      List.Forall₂ Statement.Says sts fs := by
  obtain ⟨hscan, hknown⟩ := words_scanFrom hspelled 0
  have hchars : (Source.ofText file (String.ofList (textOf pieces))).chars = textOf pieces :=
    String.toList_ofList
  obtain ⟨sts, hparse, hmeans⟩ := parse_words pretty h (hscan.trans hwords)
  have hfind : (Token.scan (textOf pieces)).find? (·.kind = .unknown) = none :=
    List.find?_eq_none.2 fun t ht => by simpa using hknown t ht
  refine ⟨sts, ?_, hmeans⟩
  have hparsed : (Source.ofText file (String.ofList (textOf pieces))).parseTokens
      (Token.scan (textOf pieces)) = .ok sts := by
    rw [parseTokens, Token.scan, hparse]
    rfl
  rw [statements, tokens, hchars, hfind]
  exact hparsed

/-- A text is compiled to some formulas, which say the same in the same order. -/
def Restores (file : String) (fs : List Formula) (text : String) : Prop :=
  ∃ gs, compile { theories := {}, modules := true } (.ofText file text) = .ok gs ∧
    gs.map Formula.written = fs.map Formula.written ∧ (gs == fs) = true

/-- A text of blanks. -/
def IsBlankText (text : String) : Prop := ∀ c ∈ text.toList, TextClass.isBlank c = true

theorem restores_write {fs : List Formula} (h : ∀ f ∈ fs, f.IsPrintable) (file : String)
    (pretty : Bool) {between ending : String} (hne : between ≠ "") (hbetween : IsBlankText between)
    (hending : IsBlankText ending) :
    Restores file fs (between.intercalate (fs.map (·.write pretty)) ++ ending) := by
  have hchars : between.toList ≠ [] := fun hnil => hne (String.toList_eq_nil_iff.1 hnil)
  have htext : between.intercalate (fs.map (·.write pretty)) ++ ending =
      String.ofList (textOf (policyPieces pretty between.toList ending.toList fs)) := by
    apply String.toList_inj.1
    calc (between.intercalate (fs.map (·.write pretty)) ++ ending).toList
        = between.toList.intercalate (fs.map fun f => (f.write pretty).toList) ++
            ending.toList := by
          rw [String.toList_append, String.toList_intercalate, List.map_map]
          rfl
      _ = textOf (policyPieces pretty between.toList ending.toList fs) :=
        (textOf_policyPieces h).symm
      _ = (String.ofList (textOf (policyPieces pretty between.toList ending.toList fs))).toList :=
        String.toList_ofList.symm
  obtain ⟨sts, hstatements, hmeans⟩ := Source.statements_eq file
    (spelled_policyPieces hchars hbetween hending h) pretty h (wordsOf_policyPieces ..)
  obtain ⟨hwritten, herrors⟩ := formulas_eq
    (.ofText file (String.ofList (textOf (policyPieces pretty between.toList ending.toList fs))))
    hmeans h
  rw [htext]
  exact ⟨_, compile_eq_ok hstatements herrors, hwritten, Formula.list_beq_of_written hwritten⟩

theorem restores_joinTexts {fs : List Formula} (h : ∀ f ∈ fs, f.IsPrintable) (file : String) :
    Restores file fs (Formula.joinTexts fs) := by
  have hspace : Formula.joinTexts fs = " ".intercalate (fs.map (·.write false)) ++ "" :=
    String.append_empty.symm
  rw [hspace]
  exact restores_write h file false (by decide) (List.all_eq_true.1 (by decide)) nofun

/-- Written formulas are compiled to themselves: on one line, or each on a line of its own, with
the body literals of a rule on lines of their own or not. -/
theorem restores_written {fs : List Formula} (h : ∀ f ∈ fs, f.IsPrintable) (file : String) :
    Restores file fs (Formula.joinTexts fs) ∧
      ∀ write ∈ [Formula.text, Formula.prettyText], ∀ between ending : String,
        between ≠ "" → IsBlankText between → IsBlankText ending →
          Restores file fs (between.intercalate (fs.map write) ++ ending) := by
  refine ⟨restores_joinTexts h file, ?_⟩
  intro write hwrite between ending hne hbetween hending
  rcases List.mem_pair.1 hwrite with rfl | rfl
  · exact restores_write h file false hne hbetween hending
  · exact restores_write h file true hne hbetween hending

/-- A fact with constants of each kind, and a rule with parts of each kind. -/
def samplePolicy : List Formula :=
  [.literal {
      table := { table := "q+" }
      arguments := [⟨.const (.str "say \"hi\"\n"), none⟩, ⟨.const (.int (-5)), none⟩,
        ⟨.const (.float ⟨true, 0, by decide⟩), none⟩] },
    .rule {
      heads := [{
        table := { modal := some "insert", service := some "nova", table := "disk:use" }
        arguments := [⟨.var "x", none⟩] }]
      body := [{ table := { table := "q" }, arguments := [⟨.var "x", none⟩], negated := true }]
      heads_ne := List.cons_ne_nil _ _ }]

theorem restores_samplePolicy :
    (∀ f ∈ samplePolicy, f.IsPrintable) ∧
      Formula.joinTexts samplePolicy =
        "q+(\"say \\\"hi\\\"\\n\", -5, -0.0) insert[nova:disk:use(x)] :- not q(x)" ∧
      Restores "<input>" samplePolicy (Formula.joinTexts samplePolicy) := by
  have hfact : TableName.IsPrintable { table := "q+" } :=
    ⟨nofun, nofun, ["q"], "+", ⟨by decide, by decide, by decide, by decide⟩, by decide⟩
  have hquery : TableName.IsPrintable { table := "q" } :=
    ⟨nofun, nofun, ["q"], "", ⟨by decide, by decide, by decide, by decide⟩, by decide⟩
  have hhead : TableName.IsPrintable
      { modal := some "insert", service := some "nova", table := "disk:use" } :=
    ⟨by decide, by decide, ["disk", "use"], "",
      ⟨by decide, by decide, by decide, by decide⟩, by decide⟩
  have hvariable : Term.IsPrintable (.var "x") := (by decide : IsIdentifier "x")
  have h : ∀ f ∈ samplePolicy, f.IsPrintable := by
    refine List.forall_mem_cons.2 ⟨⟨hfact, ?_⟩, List.forall_mem_singleton.2
      ⟨List.cons_ne_nil _ _, List.forall_mem_cons.2 ⟨⟨hhead, ?_⟩, List.forall_mem_singleton.2
        ⟨hquery, ?_⟩⟩⟩⟩
    · refine List.forall_mem_cons.2 ⟨trivial, List.forall_mem_cons.2 ⟨trivial, ?_⟩⟩
      exact List.forall_mem_singleton.2 (by decide : Binary64.isFinite ⟨true, 0, _⟩ = true)
    · exact List.forall_mem_singleton.2 hvariable
    · exact List.forall_mem_singleton.2 hvariable
  exact ⟨h, by decide +kernel, (restores_written h "<input>").1⟩

end Formulas

end DatalogPolicy

import DatalogPolicy.Proofs.Compile.Arguments
import DatalogPolicy.Proofs.Compile.RoundTrip
import DatalogPolicy.Proofs.Compile.Stem
import DatalogPolicy.Proofs.Surface.Lexemes
import DatalogPolicy.Proofs.Token.Lexemes

/-!
# Compiled policies are printable

What a source is compiled to can be written and compiled again, as long as no word for
negation is read as a name and every numeral denotes a finite number. A numeral that is
out of range is read as an infinite number, whose written form is a variable.
-/

namespace DatalogPolicy

open Pattern TextClass

/-- A lexeme whose text names the same thing wherever it is written. -/
structure Lexeme.IsReadable (x : Lexeme) : Prop where
  name : x.terminal = .identifier → x.text ≠ "not" ∧ x.text ≠ "NOT"
  number : x.terminal ∈ [.integer, .float] →
    ∀ n ∈ Binary64.read? x.text, n.isFinite = true

instance (x : Lexeme) : Decidable x.IsReadable :=
  decidable_of_iff
    ((x.terminal = .identifier → x.text ≠ "not" ∧ x.text ≠ "NOT") ∧
      (x.terminal ∈ [.integer, .float] → ∀ n ∈ Binary64.read? x.text, n.isFinite = true))
    ⟨fun ⟨hname, hnumber⟩ => ⟨hname, hnumber⟩, fun ⟨hname, hnumber⟩ => ⟨hname, hnumber⟩⟩

/-- A readable lexeme of a text. -/
structure Lexeme.IsWritable (x : Lexeme) : Prop where
  accepted : x.IsAccepted
  readable : x.IsReadable

namespace Lexeme.IsWritable

variable {x : Lexeme}

theorem isIdentifier (h : x.IsWritable) (hterminal : x.terminal = .identifier) :
    IsIdentifier x.text := by
  obtain ⟨hnot, hupper⟩ := h.readable.name hterminal
  exact ⟨h.accepted.matches_pattern hterminal (by simp [all]), hnot, hupper⟩

theorem text_of_sign (h : x.IsWritable) (hterminal : x.terminal ∈ [.plus, .minus]) :
    x.text ∈ ["", "+", "-"] := by
  have hchar {c : Char} (hmatch : (char c).Matches x.text.toList) : x.text = String.ofList [c] :=
    String.toList_inj.1 ((matches_char.1 hmatch).trans String.toList_ofList.symm)
  rcases List.mem_pair.1 hterminal with hplus | hminus
  · have htext : x.text = "+" := hchar (h.accepted.matches_pattern hplus (by simp [all]))
    rw [htext]
    decide
  · have htext : x.text = "-" := hchar (h.accepted.matches_pattern hminus (by simp [all]))
    rw [htext]
    decide

end Lexeme.IsWritable

section Tables

/-- The text of a name is that of a table. -/
theorem Surface.Relation.MadeOf.isTableText {r : Surface.Relation}
    (h : r.MadeOf Lexeme.IsWritable) :
    IsTableText r.text (r.pieces.map (·.text)) (r.sign.elim "" (·.text)) where
  text_eq := rfl
  parts_ne := List.cons_ne_nil _ _
  identifier := List.forall_mem_map.2 fun x hx =>
    (h.pieces x hx).2.isIdentifier (h.pieces x hx).1
  sign_mem := by
    cases hsign : r.sign with
    | none => decide
    | some x =>
        obtain ⟨hterminal, hx⟩ := h.sign x hsign
        exact hx.text_of_sign hterminal

/-- The table that such a text names is printable. -/
theorem IsTableText.isPrintable_ofText {text sign : String} {parts : List String}
    (h : IsTableText text parts sign) {modal : Option String}
    (hmodal : ∀ m ∈ modal, IsIdentifier m) :
    TableName.IsPrintable { TableName.ofText true text with modal } := by
  obtain ⟨service, more, rfl⟩ := List.exists_cons_of_ne_nil h.parts_ne
  by_cases hmore : more = []
  · subst hmore
    rw [TableName.ofText, if_pos rfl, TableName.splitService_of_not_mem h.colon_not_mem]
    exact ⟨hmodal, fun s hs => absurd hs (Option.not_mem_none s), [service], sign, h, fun _ => rfl⟩
  · have hservice := h.identifier service List.mem_cons_self
    have htext : text = TableName.joinService service (":".intercalate more ++ sign) := by
      rw [h.text_eq, String.intercalate_cons_of_ne_nil hmore]
      exact String.append_assoc ..
    have hcolon : ':' ∉ service.toList := hservice.not_mem (by decide)
    rw [TableName.ofText, if_pos rfl, htext, TableName.splitService_joinService hcolon]
    refine ⟨hmodal, ?_, more, sign, ⟨rfl, hmore, ?_, h.sign_mem⟩, fun hnone => by cases hnone⟩
    · rintro s ⟨⟩
      exact hservice
    · exact fun s hs => h.identifier s (List.mem_cons_of_mem _ hs)

end Tables

section Fillers

theorem matches_identifierPattern {c : Char} {cs : List Char} (hc : isNameStart c = true)
    (hcs : ∀ d ∈ cs, isNamePart d = true) : identifierPattern.Matches (c :: cs) := by
  refine matches_sequence.2 ⟨c :: cs, [], (List.append_nil _).symm, ?_, .none⟩
  exact matches_sequence.2 ⟨[c], cs, rfl, matches_one.2 ⟨c, hc, rfl⟩, matches_many_one.2 hcs⟩

theorem isDigit_of_mem_toString {n : Nat} {d : Char} (h : d ∈ (toString n).toList) :
    d.isDigit = true :=
  isDigit_of_mem_toDigits n d (Nat.toList_repr (n := n) ▸ h)

theorem isNamePart_of_mem_toString (n : Nat) : ∀ d ∈ (toString n).toList, isNamePart d = true := by
  intro d hd
  simp only [isNamePart, Char.isAlphanum, isDigit_of_mem_toString hd, Bool.or_true, Bool.true_or]

/-- A fresh variable is an identifier, as it begins with an underscore. -/
theorem FreshName.isIdentifier_filler (names : List String) (index column : Nat) :
    IsIdentifier (filler (stem names) index column) := by
  obtain ⟨cs, hcs, hparts⟩ : ∃ cs, (filler (stem names) index column).toList = '_' :: cs ∧
      ∀ d ∈ cs, isNamePart d = true := by
    obtain ⟨n, hstem, ⟨hpos, -⟩, -⟩ := exists_stem_isLeast names
    obtain ⟨k, rfl⟩ := Nat.exists_eq_add_one_of_ne_zero (Nat.ne_of_gt hpos)
    refine ⟨List.replicate k '_' ++ "x_".toList ++ (toString index).toList ++ ['_'] ++
      (toString column).toList, ?_, ?_⟩
    · simp only [filler, hstem, String.toList_append, String.toList_ofList, List.replicate_succ,
        List.cons_append]
      rfl
    · simp only [List.forall_mem_append]
      refine ⟨⟨⟨⟨?_, ?_⟩, isNamePart_of_mem_toString index⟩, ?_⟩,
        isNamePart_of_mem_toString column⟩
      · intro d hd
        rw [List.eq_of_mem_replicate hd]
        decide
      · exact List.all_eq_true.1 (by decide)
      · exact List.all_eq_true.1 (by decide)
  have hne (s : String) (hs : s.toList.head? ≠ some '_') :
      filler (stem names) index column ≠ s := by
    rintro rfl
    exact hs (congrArg List.head? hcs)
  exact ⟨hcs ▸ matches_identifierPattern (by decide) hparts, hne _ (by decide), hne _ (by decide)⟩

end Fillers

namespace Compile

section Terms

variable {site : Site} {t : Located Term}

/-- The lexeme of a term. -/
abbrev IsTermLexeme (x : Lexeme) : Prop :=
  x.terminal ∈ [.identifier, .integer, .float, .string] ∧ x.IsWritable

/-- The term of a writable lexeme is printable. -/
theorem Site.isPrintable_term {x : Lexeme} (h : IsTermLexeme x)
    (ht : site.term x = .ok t) : t.item.IsPrintable := by
  obtain ⟨hterminal, hx⟩ := h
  cases hx' : x.terminal <;> simp only [hx', Site.term] at ht
  case identifier =>
    cases ht
    exact hx.isIdentifier hx'
  case integer =>
    split at ht
    · cases ht
      trivial
    · next hread =>
        cases ht
        exact hx.readable.number (by simp [hx']) _ hread
    · cases ht
  case float =>
    split at ht
    · next hread =>
        cases ht
        exact hx.readable.number (by simp [hx']) _ hread
    · cases ht
  case string =>
    split at ht
    · cases ht
      trivial
    · cases ht
  all_goals simp [hx'] at hterminal

end Terms

section Literals

variable {site : Site} {settings : Settings}

/-- The arguments of an atom of writable lexemes are printable. -/
theorem isPrintable_arguments {atom : Surface.Atom} (h : atom.MadeOf Lexeme.IsWritable)
    (hfiller : ∀ column, IsIdentifier (FreshName.filler site.stem site.index column))
    (table : TableName) (columns : Option (List String)) :
    ∀ a ∈ (arguments site atom table columns).value, a.item.IsPrintable := by
  intro a ha
  obtain ⟨k, hk⟩ := List.mem_iff_getElem?.1 ha
  obtain ⟨p, hp, hterm⟩ | rfl := getElem?_arguments hk
  · exact Site.isPrintable_term (h.params p hp) hterm
  · exact hfiller k

/-- A literal of writable lexemes is compiled to a printable one. -/
theorem isPrintable_literal {l : Surface.Literal} (h : l.MadeOf Lexeme.IsWritable)
    (hmodules : settings.modules = true)
    (hfiller : ∀ column, IsIdentifier (FreshName.filler site.stem site.index column)) :
    (literal settings site l).value.IsPrintable where
  table := by
    rw [literal, hmodules]
    apply h.atom.relation.isTableText.isPrintable_ofText
    intro m hm
    obtain ⟨modal, hmodal, rfl⟩ := Option.mem_map.1 hm
    obtain ⟨hterminal, hx⟩ := h.modal modal hmodal
    exact hx.isIdentifier hterminal
  arguments := isPrintable_arguments h.atom hfiller _ _

/-- A statement of writable lexemes is compiled to a printable formula. -/
theorem isPrintable_formula (source : Source) {st : Surface.Statement}
    (h : ∀ l ∈ st.literals, l.MadeOf Lexeme.IsWritable) (hmodules : settings.modules = true) :
    (formula settings source st).value.IsPrintable := by
  have hliteral {l : Surface.Literal} (hl : l ∈ st.literals) (index : Nat) :
      (literal settings ⟨source.lines, index, freshStem st⟩ l).value.IsPrintable :=
    isPrintable_literal (h l hl) hmodules (FreshName.isIdentifier_filler _ index)
  have hliterals {ls : List Surface.Literal} (hls : ∀ l ∈ ls, l ∈ st.literals) (index : Nat) :
      ∀ l ∈ (literals settings source (freshStem st) index ls).map (·.value), l.IsPrintable := by
    refine List.forall_mem_map.2 fun outcome houtcome => ?_
    obtain ⟨i, hi, rfl⟩ := List.mem_mapIdx.1 houtcome
    exact hliteral (hls _ (List.getElem_mem hi)) _
  cases st with
  | fact l =>
      have hfact := hliteral (List.mem_singleton_self l) 0
      exact ⟨hfact.table, hfact.arguments⟩
  | rule head heads first body =>
      refine ⟨?_, List.forall_mem_append.2 ⟨List.forall_mem_cons.2 ⟨?_, ?_⟩, ?_⟩⟩
      · simp [literals]
      · exact hliteral List.mem_cons_self 0
      · exact hliterals (fun l hl => List.mem_append_left _ (List.mem_cons_of_mem _ hl)) 1
      · exact hliterals (fun l hl => List.mem_append_right _ hl) (heads.length + 1)

end Literals

end Compile

/-- The statements of a source are those that the grammar derives from its lexemes. -/
theorem Source.program_of_statements {source : Source} {sts : List Surface.Statement}
    (h : source.statements = .ok sts) :
    Surface.Grammar.Program ((Token.scan source.chars).filterMap (·.lexeme?)) sts := by
  rw [statements] at h
  cases htokens : source.tokens with
  | error e =>
      rw [htokens] at h
      cases h
  | ok tokens =>
      have hscan : tokens = Token.scan source.chars := by
        rw [Source.tokens] at htokens
        split at htokens
        · cases htokens
        · exact (Except.ok.inj htokens).symm
      rw [htokens] at h
      exact hscan ▸ Surface.Grammar.parseTokens_eq_ok_iff.1 h

/-- A source is compiled when its statements are compiled without errors. -/
theorem compile_eq_ok_iff {settings : Settings} {source : Source} {fs : List Formula} :
    compile settings source = .ok fs ↔
      ∃ sts, source.statements = .ok sts ∧ (Compile.formulas settings source sts).errors = [] ∧
        fs = (Compile.formulas settings source sts).value := by
  rw [compile, Session.readSource]
  cases source.statements with
  | error e =>
      constructor
      · intro h
        cases h
      · rintro ⟨_, h, _⟩
        cases h
  | ok sts =>
      simp only [Session.raiseErrors, List.nil_append, List.isEmpty_iff]
      constructor
      · intro h
        split at h
        · next hempty => exact ⟨sts, rfl, hempty, (Except.ok.inj h).symm⟩
        · cases h
      · rintro ⟨_, ⟨⟩, hempty, rfl⟩
        rw [if_pos hempty]
        rfl

/-- What a readable source is compiled to is compiled to itself when it is written. -/
theorem restores_compiled (theories : Theories) (source : Source) {fs : List Formula}
    (hcompile : compile { theories, modules := true } source = .ok fs)
    (h : ∀ x ∈ (Token.scan source.chars).filterMap (·.lexeme?), x.IsReadable) (file : String) :
    Restores file fs (Formula.joinTexts fs) := by
  obtain ⟨sts, hstatements, -, rfl⟩ := compile_eq_ok_iff.1 hcompile
  have hmade := (Source.program_of_statements hstatements).madeOf fun x hx =>
    Lexeme.IsWritable.mk (Token.isAccepted_scan source.chars x hx) (h x hx)
  apply restores_joinTexts
  simp only [Compile.formulas, List.forall_mem_map]
  exact fun st hst => Compile.isPrintable_formula source (hmade st hst) rfl

/-- A theory with one table. -/
def sampleTheories : Theories :=
  Std.ExtTreeMap.insert {} "nova" (({} : Schema).insert "servers" ["id", "name"])

/-- A rule that leaves out a column, and a fact with an integer that is out of range. -/
def sampleText : String := "p(x) :- nova:servers(name=x), not nova:q(x) s(9223372036854775808, '\\t')"

theorem restores_sampleText :
    ∃ fs, compile { theories := sampleTheories, modules := true } (.ofText "<input>" sampleText) =
        .ok fs ∧
      (∀ x ∈ (Token.scan sampleText.toList).filterMap (·.lexeme?), x.IsReadable) ∧
      Formula.joinTexts fs = "p(x) :- nova:servers(_x_1_0, x), not nova:q(x) " ++
        "s(9.223372036854776e18, \"\\t\")" ∧
      Restores "<input>" fs (Formula.joinTexts fs) := by
  have hreadable : ∀ x ∈ (Token.scan sampleText.toList).filterMap (·.lexeme?), x.IsReadable := by
    decide +kernel
  have hwritten : (compile { theories := sampleTheories, modules := true }
      (.ofText "<input>" sampleText)).toOption.map Formula.joinTexts =
        some ("p(x) :- nova:servers(_x_1_0, x), not nova:q(x) " ++
          "s(9.223372036854776e18, \"\\t\")") := by
    decide +kernel
  obtain ⟨fs, hfs, htext⟩ := Option.map_eq_some_iff.1 hwritten
  have hcompile := Compile.eq_ok_of_toOption hfs
  exact ⟨fs, hcompile, hreadable, htext, restores_compiled _ _ hcompile hreadable _⟩

/-- A text is not restored when what it is compiled to is written as a text that is compiled to
something else or to nothing. -/
theorem exists_not_restores {text : String}
    (h : (compile { theories := {}, modules := true } (.ofText "<input>" text)).toOption.map
      (fun fs => (compile { theories := {}, modules := true }
        (.ofText "<input>" (Formula.joinTexts fs))).toOption.any (· == fs)) = some false) :
    ∃ fs, compile { theories := {}, modules := true } (.ofText "<input>" text) = .ok fs ∧
      ¬ Restores "<input>" fs (Formula.joinTexts fs) := by
  obtain ⟨fs, hfs, hany⟩ := Option.map_eq_some_iff.1 h
  refine ⟨fs, Compile.eq_ok_of_toOption hfs, ?_⟩
  rintro ⟨gs, hgs, -, heq⟩
  rw [hgs] at hany
  exact Bool.false_ne_true (hany.symm.trans heq)

/-- A numeral that is out of range is written as a variable. -/
theorem not_restores_infinite :
    ∃ fs, compile { theories := {}, modules := true } (.ofText "<input>" "p(1e999)") = .ok fs ∧
      ¬ Restores "<input>" fs (Formula.joinTexts fs) :=
  exists_not_restores (by decide +kernel)

/-- A word for negation that a point makes a name is written without the point. -/
example :
    ∃ fs, compile { theories := {}, modules := true } (.ofText "<input>" "not.") = .ok fs ∧
      ¬ Restores "<input>" fs (Formula.joinTexts fs) :=
  exists_not_restores (by decide +kernel)

end DatalogPolicy

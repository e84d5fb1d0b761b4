import DatalogPolicy.Proofs.Compile.ColumnFaults
import DatalogPolicy.Proofs.Compile.FreshVariables

/-!
# Arguments by column

The literal of an atom whose references have no faults has an argument for each column of its
table: a term that is written for the column, or a variable that the statement does not write.
With faults it has no arguments.
-/

namespace DatalogPolicy.Compile

open Surface (Param)

/-- An argument refers to the column with an index, by its name or by its number. -/
def Designates (columns : List String) (p : Param) (j : Nat) : Prop :=
  (∃ name, p.columnName? = some name ∧ columns[j]? = some name) ∨ p.columnNumber? = some j

/-- The arguments of an atom whose table has the given columns: positional ones come first, and
each later column has the term that is written for it, or else its fresh variable. -/
structure Expands (site : Site) (columns : List String) (atom : Surface.Atom)
    (arguments : List (Located Term)) : Prop where
  length : arguments.length = max atom.leading.length columns.length
  leading : ∀ (j : Nat) (p : Param), atom.leading[j]? = some p →
    ∃ t, site.term p.term = .ok t ∧ arguments[j]? = some t
  designated : ∀ p ∈ atom.params, p.isNamed = true →
    ∃ j, atom.leading.length ≤ j ∧ j < columns.length ∧ Designates columns p j
  referenced : ∀ p ∈ atom.params, ∀ j, Designates columns p j →
    ∃ t, site.term p.term = .ok t ∧ arguments[j]? = some t
  omitted : ∀ j, atom.leading.length ≤ j → j < columns.length →
    (∀ p ∈ atom.params, ¬ Designates columns p j) →
      arguments[j]? = some ⟨.var (FreshName.filler site.stem site.index j), none⟩

section Expansion

variable {site : Site} {columns : List String} {atom : Surface.Atom} {name : String} {j : Nat}
  {p : Param} {t : Located Term}

theorem Passes.length_value (h : Passes site columns atom) :
    (knownArguments site atom columns).value.length = max atom.leading.length columns.length := by
  have hfilled := congrArg List.length (eq_map_ok h.filled)
  rw [filling, length_fillColumns, List.length_drop, List.length_map] at hfilled
  rw [knownArguments_of_passes h, List.length_append, h.length_positional, filling, ← hfilled]
  omega

theorem Passes.getElem?_leading (h : Passes site columns atom) (hp : atom.leading[j]? = some p) :
    ∃ t, site.term p.term = .ok t ∧ (knownArguments site atom columns).value[j]? = some t := by
  have hterm := congrArg (·[j]?) (Site.map_term h.terms)
  simp only [List.getElem?_map, hp, Option.map_some] at hterm
  obtain ⟨t, ht, hok⟩ := Option.map_eq_some_iff.1 hterm.symm
  have hlt : j < (site.terms (atom.leading.map (·.term))).value.length :=
    (List.getElem?_eq_some_iff.1 ht).1
  rw [knownArguments_of_passes h, List.getElem?_append_left hlt]
  exact ⟨t, hok.symm, ht⟩

theorem Passes.getElem?_column (h : Passes site columns atom) (hcolumns : columns.Nodup)
    (hj : atom.leading.length ≤ j) (hname : columns[j]? = some name)
    (ht : columnArgument site (references site columns atom).value j name = .ok t) :
    (knownArguments site atom columns).value[j]? = some t := by
  have hfilled : (filling site columns atom)[j - atom.leading.length]? = some (.ok t) := by
    rw [getElem?_filling hcolumns, Nat.add_sub_cancel' hj, hname, Option.map_some, ht]
  rw [eq_map_ok h.filled, List.getElem?_map] at hfilled
  obtain ⟨_, hvalue, ⟨⟩⟩ := Option.map_eq_some_iff.1 hfilled
  rw [knownArguments_of_passes h, List.getElem?_append_right (h.length_positional.trans_le hj),
    h.length_positional]
  exact hvalue

/-- A name gives its column the term that stands with it. -/
theorem IsSound.argument_of_name (h : IsSound site columns atom) (hp : p ∈ atom.params)
    (hname : p.columnName? = some name) (hj : columns[j]? = some name)
    (hterm : site.term p.term = .ok t) :
    columnArgument site (references site columns atom).value j name = .ok t := by
  have hmem : name ∈ atom.columnNames := List.mem_filterMap.2 ⟨p, hp, hname⟩
  have hlookup := (lookup_entries_eq_some_iff h.terms h.names.nodup).2 ⟨p, hp, hname, hterm⟩
  have hnone := (lookup_entries_eq_none_iff h.terms).2 (h.once name j hmem hj)
  rw [columnArgument, references_value, hlookup, hnone]

/-- A number gives its column the term that stands with it. -/
theorem IsSound.argument_of_number (h : IsSound site columns atom) (hp : p ∈ atom.params)
    (hnumber : readNumber? p = some j) (hj : columns[j]? = some name)
    (hterm : site.term p.term = .ok t) :
    columnArgument site (references site columns atom).value j name = .ok t := by
  have hmem : j ∈ atom.params.filterMap readNumber? := List.mem_filterMap.2 ⟨p, hp, hnumber⟩
  have hlookup := (lookup_entries_eq_some_iff h.terms h.numbers.nodup).2 ⟨p, hp, hnumber, hterm⟩
  have hunnamed : name ∉ atom.params.filterMap Param.columnName? :=
    fun hname => h.once name j hname hj hmem
  have hnone := (lookup_entries_eq_none_iff h.terms).2 hunnamed
  rw [columnArgument, references_value, hlookup, hnone]

theorem columnName?_or_columnNumeral? (h : p.isNamed = true) :
    (∃ name, p.columnName? = some name) ∨ ∃ text, p.columnNumeral? = some text := by
  cases p with
  | positional x => cases h
  | named column x =>
      by_cases hname : column.terminal = .identifier
      · exact .inl ⟨column.text, if_pos hname⟩
      · exact .inr ⟨column.text, if_neg hname⟩

/-- Every reference is to a column that is left. -/
theorem IsSound.exists_designates (h : IsSound site columns atom) (hcolumns : columns.Nodup)
    (hintegers : atom.HasIntegers) (hp : p ∈ atom.params) (hnamed : p.isNamed = true) :
    ∃ j, atom.leading.length ≤ j ∧ j < columns.length ∧ Designates columns p j := by
  rcases columnName?_or_columnNumeral? hnamed with ⟨name, hname⟩ | ⟨text, htext⟩
  · have hfree := h.names.free name (List.mem_filterMap.2 ⟨p, hp, hname⟩)
    obtain ⟨j, hj, hle⟩ := (isFreeName_iff hcolumns).1 hfree
    exact ⟨j, hle, (List.getElem?_eq_some_iff.1 hj).1, .inl ⟨name, hname, hj⟩⟩
  · obtain ⟨n, hn⟩ := h.numerals text (List.mem_filterMap.2 ⟨p, hp, htext⟩)
    have hnumber : readNumber? p = some n := by rw [readNumber?, htext, Option.bind_some, hn]
    obtain ⟨hle, hlt⟩ := h.numbers.free n (List.mem_filterMap.2 ⟨p, hp, hnumber⟩)
    exact ⟨n, hle, hlt, .inr (readNumber?_eq hintegers h.numerals hp ▸ hnumber)⟩

/-- A column has the term of the argument that refers to it. -/
theorem IsSound.argument_of_designates (h : IsSound site columns atom) (hcolumns : columns.Nodup)
    (hintegers : atom.HasIntegers) (hp : p ∈ atom.params) (hdesignates : Designates columns p j)
    (hterm : site.term p.term = .ok t) :
    ∃ name, atom.leading.length ≤ j ∧ columns[j]? = some name ∧
      columnArgument site (references site columns atom).value j name = .ok t := by
  rcases hdesignates with ⟨name, hname, hj⟩ | hnumber
  · have hfree := h.names.free name (List.mem_filterMap.2 ⟨p, hp, hname⟩)
    exact ⟨name, hfree.le hcolumns hj, hj, h.argument_of_name hp hname hj hterm⟩
  · rw [← readNumber?_eq hintegers h.numerals hp] at hnumber
    obtain ⟨hle, hlt⟩ := h.numbers.free j (List.mem_filterMap.2 ⟨p, hp, hnumber⟩)
    have hj := List.getElem?_eq_getElem hlt
    exact ⟨columns[j], hle, hj, h.argument_of_number hp hnumber hj hterm⟩

/-- A column to which no argument refers has its fresh variable. -/
theorem IsSound.argument_of_not_designates (h : IsSound site columns atom)
    (hintegers : atom.HasIntegers) (hj : columns[j]? = some name)
    (hnot : ∀ p ∈ atom.params, ¬ Designates columns p j) :
    columnArgument site (references site columns atom).value j name =
      .ok ⟨.var (FreshName.filler site.stem site.index j), none⟩ := by
  have hname : name ∉ atom.params.filterMap Param.columnName? := by
    intro hmem
    obtain ⟨p, hp, hname⟩ := List.mem_filterMap.1 hmem
    exact hnot p hp (.inl ⟨name, hname, hj⟩)
  have hnumber : j ∉ atom.params.filterMap readNumber? := by
    intro hmem
    obtain ⟨p, hp, hnumber⟩ := List.mem_filterMap.1 hmem
    exact hnot p hp (.inr (readNumber?_eq hintegers h.numerals hp ▸ hnumber))
  rw [columnArgument, references_value, (lookup_entries_eq_none_iff h.terms).2 hname,
    (lookup_entries_eq_none_iff h.terms).2 hnumber]

/-- The arguments of an atom without faults stand where they are given. -/
theorem expands_knownArguments (hcolumns : columns.Nodup) (hintegers : atom.HasIntegers)
    (hpasses : Passes site columns atom) :
    Expands site columns atom (knownArguments site atom columns).value := by
  have hsound := (passes_iff_isSound hcolumns).1 hpasses
  refine ⟨hpasses.length_value, fun j p hp => hpasses.getElem?_leading hp,
    fun p hp hnamed => hsound.exists_designates hcolumns hintegers hp hnamed,
    fun p hp j hdesignates => ?_, fun j hle hlt hnot => ?_⟩
  · obtain ⟨t, ht⟩ := hsound.terms p hp
    obtain ⟨name, hle, hj, hargument⟩ :=
      hsound.argument_of_designates hcolumns hintegers hp hdesignates ht
    exact ⟨t, ht, hpasses.getElem?_column hcolumns hle hj hargument⟩
  · have hj := List.getElem?_eq_getElem hlt
    exact hpasses.getElem?_column hcolumns hle hj
      (hsound.argument_of_not_designates hintegers hj hnot)

end Expansion

section Literals

variable {source : Source} {sts : List Surface.Statement} {s : Surface.Statement}
  {l : Surface.Literal}

/-- What refers to a column by number in a source is an integer. -/
theorem hasIntegers_of_statements (hsource : source.statements = .ok sts) (hs : s ∈ sts)
    (hl : l ∈ s.literals) : l.atom.HasIntegers := by
  intro text htext
  obtain ⟨p, hp, hnumeral⟩ := List.mem_filterMap.1 htext
  obtain ⟨xs, hxs, hliteral⟩ := (Source.program_of_statements hsource).exists_literal s hs l hl
  obtain ⟨ys, hys, hparam⟩ := hliteral.exists_param p hp
  cases p with
  | positional x => cases hnumeral
  | named column x =>
      obtain ⟨hterminal, haccepted⟩ := hparam.column_madeOf fun y hy =>
        Token.isAccepted_scan source.chars y (hxs (hys hy))
      obtain ⟨hname, heq⟩ := Option.ite_none_left_eq_some.1 hnumeral
      cases heq
      have hinteger : column.terminal = .integer := by simpa [hname] using hterminal
      exact haccepted.matches_pattern hinteger (by simp [TextClass.all])

/-- No variable that a statement writes is the fresh variable of a column. -/
theorem not_writes_filler (s : Surface.Statement) (i j : Nat) :
    ¬ s.Writes (FreshName.filler (freshStem s) i j) := by
  intro hwrites
  obtain ⟨n, hstem, hleast⟩ := FreshName.exists_stem_isLeast (s.literals.flatMap (·.atom.vars))
  refine hleast.1.2 _ (Surface.Statement.writes_iff.1 hwrites) ?_
  rw [freshStem, hstem]
  exact FreshName.beginsWith_filler n i j

/-- A literal of a source whose table has distinct columns is compiled with errors just when its
arguments are faulty. Without faults it has an argument for each column, and for each positional
one beyond them: what is written for a column stands in it, and the others have variables that the
statement does not write. With faults it has no arguments. -/
theorem literal_expands (settings : Settings) {source : Source} {sts : List Surface.Statement}
    {s : Surface.Statement} {i : Nat} {l : Surface.Literal} {columns : List String}
    (hsource : source.statements = .ok sts) (hs : s ∈ sts) (hl : s.literals[i]? = some l)
    (hcolumns : columns? settings
      (literal settings ⟨source.lines, i, freshStem s⟩ l).value.table = some columns)
    (hdistinct : columns.Nodup) :
    let site : Site := ⟨source.lines, i, freshStem s⟩
    let compiled := literal settings site l
    (compiled.errors ≠ [] ↔ IsFaulty site columns l.atom) ∧
      (¬ IsFaulty site columns l.atom →
        Expands site columns l.atom compiled.value.arguments ∧
          ∀ j, ¬ s.Writes (FreshName.filler site.stem site.index j)) ∧
      (IsFaulty site columns l.atom → compiled.value.arguments = []) := by
  intro site compiled
  have hintegers := hasIntegers_of_statements hsource hs (List.mem_of_getElem? hl)
  have hfaulty : Passes site columns l.atom ↔ ¬ IsFaulty site columns l.atom :=
    (passes_iff_isSound hdistinct).trans (isSound_iff_not_isFaulty hdistinct hintegers)
  have hknown : arguments site l.atom compiled.value.table
      (columns? settings compiled.value.table) = knownArguments site l.atom columns := by
    rw [hcolumns, arguments]
  have herrors : compiled.errors = (knownArguments site l.atom columns).errors :=
    congrArg Outcome.errors hknown
  have hvalue : compiled.value.arguments = (knownArguments site l.atom columns).value :=
    congrArg Outcome.value hknown
  rw [herrors, hvalue]
  refine ⟨⟨fun h => ?_, fun h => ?_⟩, fun h => ⟨?_, not_writes_filler s i⟩, fun h => ?_⟩
  · by_contra hsound
    exact h (by rw [knownArguments_of_passes (hfaulty.2 hsound)])
  · exact (knownArguments_of_not_passes fun hpasses => hfaulty.1 hpasses h).1
  · exact expands_knownArguments hdistinct hintegers (hfaulty.2 h)
  · exact (knownArguments_of_not_passes fun hpasses => hfaulty.1 hpasses h).2

theorem literal_expands_sampleReference :
    ∃ sts, sampleReference.statements = .ok sts ∧ ∃ s ∈ sts, ∃ l, s.literals[1]? = some l ∧
      columns? { theories := sampleTheories } (literal { theories := sampleTheories }
        ⟨sampleReference.lines, 1, freshStem s⟩ l).value.table = some ["id", "name"] ∧
      ["id", "name"].Nodup ∧
      Expands ⟨sampleReference.lines, 1, freshStem s⟩ ["id", "name"] l.atom
        (literal { theories := sampleTheories }
          ⟨sampleReference.lines, 1, freshStem s⟩ l).value.arguments := by
  have hsample : sampleReference.statements.toOption.any (fun sts => sts.any fun s =>
      s.literals[1]?.any fun l =>
        let compiled := literal { theories := sampleTheories }
          ⟨sampleReference.lines, 1, freshStem s⟩ l
        columns? { theories := sampleTheories } compiled.value.table = some ["id", "name"] ∧
          compiled.errors.isEmpty) = true := by
    decide +kernel
  obtain ⟨sts, hsts, hany⟩ := (Option.any_eq_true _ _).1 hsample
  obtain ⟨s, hs, h⟩ := List.any_eq_true.1 hany
  obtain ⟨l, hl, hcompiled⟩ := (Option.any_eq_true _ _).1 h
  obtain ⟨hcolumns, herrors⟩ := of_decide_eq_true hcompiled
  have hstatements := eq_ok_of_toOption hsts
  have hdistinct : ["id", "name"].Nodup := by decide
  obtain ⟨hfaulty, hexpands, -⟩ := literal_expands _ hstatements hs hl hcolumns hdistinct
  refine ⟨sts, hstatements, s, hs, l, hl, hcolumns, hdistinct, (hexpands fun h => ?_).1⟩
  exact hfaulty.2 h (List.isEmpty_iff.1 herrors)

end Literals

end DatalogPolicy.Compile

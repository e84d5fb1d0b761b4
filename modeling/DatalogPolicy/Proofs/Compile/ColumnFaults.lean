import DatalogPolicy.Proofs.Compile.References
import DatalogPolicy.Proofs.Text.Pattern
import DatalogPolicy.Token.Scan
import Mathlib.Data.List.TakeWhile
import Std.Data.String.ToNat

/-!
# What may be wrong with references

An atom whose table has distinct columns passes all stages of its compilation just when each
of its arguments has a term, positional ones come first, and the others are to distinct
columns that are left.
-/

namespace DatalogPolicy

namespace Surface

/-- The number by which an argument refers to a column. -/
def Param.columnNumber? (p : Param) : Option Nat := p.columnNumeral?.bind String.toNat?

namespace Atom

/-- The names by which an atom refers to columns. -/
def columnNames (a : Atom) : List String := a.params.filterMap Param.columnName?

/-- The numerals by which an atom refers to columns. -/
def columnNumerals (a : Atom) : List String := a.params.filterMap Param.columnNumeral?

/-- The numbers by which an atom refers to columns. -/
def columnNumbers (a : Atom) : List Nat := a.params.filterMap Param.columnNumber?

/-- The numerals by which an atom refers to columns are integers. -/
def HasIntegers (a : Atom) : Prop :=
  ∀ text ∈ a.columnNumerals, TextClass.integerPattern.Matches text.toList

end Atom

end Surface

namespace Compile

open Surface (Param)

/-- What may be wrong with the arguments of an atom whose table has the given columns. -/
inductive IsFaulty (site : Site) (columns : List String) (atom : Surface.Atom) : Prop
  | term {p : Param} {e : PolicyError} (hp : p ∈ atom.params) (h : site.term p.term = .error e)
  | positionalAfterReference {p q : Param} (hpq : [p, q].Sublist atom.params)
      (hp : p.isNamed = true) (hq : q.isNamed = false)
  | repeatedName (h : ¬ atom.columnNames.Nodup)
  | unknownName {name : String} (hname : name ∈ atom.columnNames) (h : name ∉ columns)
  | filledName {name : String} {j : Nat} (hname : name ∈ atom.columnNames)
      (hj : columns[j]? = some name) (h : j < atom.leading.length)
  | signedNumber {text : String} (htext : text ∈ atom.columnNumerals) (h : '-' ∈ text.toList)
  | excessiveNumber {number : Nat} (hnumber : number ∈ atom.columnNumbers) (h : columnLimit ≤ number)
  | repeatedNumber (h : ¬ atom.columnNumbers.Nodup)
  | filledNumber {number : Nat} (hnumber : number ∈ atom.columnNumbers)
      (h : number < atom.leading.length)
  | numberOutside {number : Nat} (hnumber : number ∈ atom.columnNumbers)
      (h : columns.length ≤ number)
  | nameAndNumber {name : String} {j : Nat} (hname : name ∈ atom.columnNames)
      (hj : columns[j]? = some name) (h : j ∈ atom.columnNumbers)

section Numerals

variable {text : String} {n : Nat}

/-- The number of digits alone. -/
theorem toNat?_of_isDigit (hne : text ≠ "") (h : ∀ c ∈ text.toList, c.isDigit = true) :
    text.toNat? = some (Decimal.foldDigits 0 text.toList) := by
  have hfilter : text.toList.filter (· != '_') = text.toList :=
    List.filter_eq_self.2 fun c hc => bne_iff_ne.2 fun heq =>
      absurd (heq ▸ h c hc) (by decide)
  rw [String.toNat?_eq_some_ofDigitChars (String.isNat_of_isDigit hne h), hfilter]
  rfl

/-- An integer without a sign is made of digits. -/
theorem isDigit_of_matches (h : TextClass.integerPattern.Matches text.toList)
    (hminus : '-' ∉ text.toList) : text ≠ "" ∧ ∀ c ∈ text.toList, c.isDigit = true := by
  rw [TextClass.integerPattern, Pattern.matches_sequence] at h
  simp only [Pattern.matches_optional, Pattern.matches_char, Pattern.matches_repeated] at h
  obtain ⟨sign, digits, htext, rfl | rfl, hne, hdigits⟩ := h
  · exact absurd (htext ▸ List.mem_cons_self) hminus
  · rw [List.nil_append] at htext
    refine ⟨?_, htext ▸ hdigits⟩
    rintro rfl
    exact hne htext.symm

theorem exists_toNat? (h : TextClass.integerPattern.Matches text.toList)
    (hminus : '-' ∉ text.toList) : ∃ n, text.toNat? = some n :=
  have hdigits := isDigit_of_matches h hminus
  ⟨_, toNat?_of_isDigit hdigits.1 hdigits.2⟩

/-- An integer is read as the number of a column when it has no sign and is not too great. -/
theorem readColumn?_eq_some_iff (h : TextClass.integerPattern.Matches text.toList) :
    readColumn? text = some n ↔ '-' ∉ text.toList ∧ text.toNat? = some n ∧ n < columnLimit := by
  rw [readColumn?, Option.ite_none_right_eq_some, Option.some.injEq]
  constructor
  · rintro ⟨⟨hne, hall, hlimit⟩, rfl⟩
    have hdigits := List.all_eq_true.1 hall
    have hminus : '-' ∉ text.toList := fun hminus => absurd (hdigits _ hminus) (by decide)
    exact ⟨hminus, toNat?_of_isDigit hne hdigits, hlimit⟩
  · rintro ⟨hminus, hnumber, hlimit⟩
    obtain ⟨hne, hdigits⟩ := isDigit_of_matches h hminus
    rw [toNat?_of_isDigit hne hdigits, Option.some.injEq] at hnumber
    exact ⟨⟨hne, List.all_eq_true.2 hdigits, hnumber ▸ hlimit⟩, hnumber⟩

end Numerals

section Atoms

variable {α : Type} {atom : Surface.Atom} {p : Param}

theorem drop_leading :
    atom.params.drop atom.leading.length = atom.params.dropWhile (!·.isNamed) := by
  have hdrop : (atom.leading ++ atom.params.dropWhile (!·.isNamed)).drop atom.leading.length =
      atom.params.dropWhile (!·.isNamed) := List.drop_left
  rwa [Surface.Atom.leading, List.takeWhile_append_dropWhile] at hdrop

theorem leading_append_drop :
    atom.leading ++ atom.params.drop atom.leading.length = atom.params := by
  rw [drop_leading]
  exact List.takeWhile_append_dropWhile

theorem isNamed_of_mem_leading (h : p ∈ atom.leading) : p.isNamed = false := by
  simpa using List.mem_takeWhile_imp h

/-- The leading arguments say nothing that only references say. -/
theorem filterMap_drop_leading {key? : Param → Option α} (h : ∀ x, key? (.positional x) = none) :
    (atom.params.drop atom.leading.length).filterMap key? = atom.params.filterMap key? := by
  have hleading : atom.leading.filterMap key? = [] := by
    refine List.filterMap_eq_nil_iff.2 fun p hp => ?_
    cases p with
    | positional x => exact h x
    | named column x => cases isNamed_of_mem_leading hp
  conv_rhs => rw [← leading_append_drop, List.filterMap_append, hleading, List.nil_append]

/-- Only references follow the leading arguments unless a positional one follows a reference. -/
theorem forall_isNamed_iff :
    (∀ p ∈ atom.params.drop atom.leading.length, p.isNamed = true) ↔
      atom.params.Pairwise fun p q => p.isNamed = true → q.isNamed = true := by
  constructor
  · intro h
    rw [← leading_append_drop, List.pairwise_append]
    have hleading {p : Param} (hp : p ∈ atom.leading) : ¬ p.isNamed = true :=
      Bool.eq_false_iff.1 (isNamed_of_mem_leading hp)
    refine ⟨?_, ?_, fun p hp q _ hnamed => absurd hnamed (hleading hp)⟩
    · exact List.pairwise_of_forall_mem_list fun p hp q _ hnamed => absurd hnamed (hleading hp)
    · exact List.pairwise_of_forall_mem_list fun _ _ q hq _ => h q hq
  · intro h
    rw [← leading_append_drop, List.pairwise_append] at h
    have hrest := h.2.1
    have hfirst := List.head?_dropWhile_not (!·.isNamed) atom.params
    rw [← drop_leading] at hfirst
    -- what the leading arguments leave begins with a reference
    cases hdrop : atom.params.drop atom.leading.length with
    | nil => exact List.forall_mem_nil _
    | cons p rest =>
        rw [hdrop] at hrest hfirst
        have hp : p.isNamed = true := by simpa using hfirst
        exact List.forall_mem_cons.2 ⟨hp, fun q hq => (List.pairwise_cons.1 hrest).1 q hq hp⟩

end Atoms

section Stages

variable {site : Site} {columns : List String} {atom : Surface.Atom} {j : Nat}

/-- The values that references give, the last ones first. -/
theorem references_value :
    (references site columns atom).value =
      { names := (atom.params.filterMap (given? site Param.columnName?)).reverse
        numbers := (atom.params.filterMap (given? site readNumber?)).reverse } := by
  rw [references, collectReferences_value, filterMap_drop_leading fun _ => rfl,
    filterMap_drop_leading fun _ => rfl, List.append_nil, List.append_nil]

theorem getElem?_filling (hcolumns : columns.Nodup) :
    (filling site columns atom)[j]? =
      columns[atom.leading.length + j]?.map
        (columnArgument site (references site columns atom).value (atom.leading.length + j)) := by
  rw [filling, getElem?_fillColumns (hcolumns.sublist (List.drop_sublist _ _)), List.getElem?_drop]

end Stages

section Soundness

variable {site : Site} {columns : List String} {atom : Surface.Atom} {name : String} {j : Nat}
  {t : Located Term}

/-- The arguments of an atom have terms, and its references, which come last, are to distinct
columns that are left. -/
structure IsSound (site : Site) (columns : List String) (atom : Surface.Atom) : Prop where
  terms : ∀ p ∈ atom.params, ∃ t, site.term p.term = .ok t
  named : ∀ p ∈ atom.params.drop atom.leading.length, p.isNamed = true
  numerals : ∀ text ∈ atom.columnNumerals, ∃ n, readColumn? text = some n
  names : KeysFit (IsFreeName columns atom.leading.length) [] atom.columnNames
  numbers : KeysFit (IsFreeNumber columns atom.leading.length) []
    (atom.params.filterMap readNumber?)
  once : ∀ name j, name ∈ atom.columnNames → columns[j]? = some name →
    j ∉ atom.params.filterMap readNumber?

theorem isFreeName_iff (hcolumns : columns.Nodup) {filled : Nat} :
    IsFreeName columns filled name ↔ ∃ j, columns[j]? = some name ∧ filled ≤ j := by
  constructor
  · rintro ⟨j, hfind, hj⟩
    obtain ⟨hlt, hname, -⟩ := List.findIdx?_eq_some_iff_getElem.1 hfind
    exact ⟨j, List.getElem?_eq_some_iff.2 ⟨hlt, of_decide_eq_true hname⟩, hj⟩
  · rintro ⟨j, hname, hj⟩
    obtain ⟨hlt, hname⟩ := List.getElem?_eq_some_iff.1 hname
    refine ⟨j, List.findIdx?_eq_some_iff_getElem.2 ⟨hlt, decide_eq_true hname, ?_⟩, hj⟩
    intro i hi hsame
    have heq := of_decide_eq_true hsame
    rw [← hname, hcolumns.getElem_inj_iff] at heq
    exact absurd heq (Nat.ne_of_lt hi)

theorem IsFreeName.le (hcolumns : columns.Nodup) {filled : Nat} (h : IsFreeName columns filled name)
    (hj : columns[j]? = some name) : filled ≤ j := by
  obtain ⟨i, hi, hle⟩ := (isFreeName_iff hcolumns).1 h
  obtain ⟨hlt, -⟩ := List.getElem?_eq_some_iff.1 hi
  rwa [← (List.getElem?_inj hlt hcolumns).1 (hi.trans hj.symm)]

theorem forall_filling_iff (hcolumns : columns.Nodup) :
    (∀ r ∈ filling site columns atom, ∃ t, r = .ok t) ↔
      ∀ j name, atom.leading.length ≤ j → columns[j]? = some name →
        ∃ t, columnArgument site (references site columns atom).value j name = .ok t := by
  constructor
  · intro h j name hj hname
    have hfilled : (filling site columns atom)[j - atom.leading.length]? =
        some (columnArgument site (references site columns atom).value j name) := by
      rw [getElem?_filling hcolumns, Nat.add_sub_cancel' hj, hname, Option.map_some]
    exact h _ (List.mem_of_getElem? hfilled)
  · intro h r hr
    obtain ⟨i, hi⟩ := List.mem_iff_getElem?.1 hr
    rw [getElem?_filling hcolumns] at hi
    obtain ⟨name, hname, rfl⟩ := Option.map_eq_some_iff.1 hi
    exact h _ name (Nat.le_add_right _ _) hname

/-- The two references to a column are one by its name and one by its number. -/
theorem exists_argument_iff (hterms : ∀ p ∈ atom.params, ∃ t, site.term p.term = .ok t) :
    (∃ t, columnArgument site (references site columns atom).value j name = .ok t) ↔
      (name ∈ atom.columnNames → j ∉ atom.params.filterMap readNumber?) := by
  rw [exists_columnArgument_iff, references_value, lookup_entries_eq_none_iff hterms,
    lookup_entries_eq_none_iff hterms, Surface.Atom.columnNames, imp_iff_not_or]

theorem forall_terms_iff :
    (∀ p ∈ atom.params, ∃ t, site.term p.term = .ok t) ↔
      (site.terms (atom.leading.map (·.term))).errors = [] ∧
        ∀ p ∈ atom.params.drop atom.leading.length, ∃ t, site.term p.term = .ok t := by
  rw [Site.errors_terms_eq_nil_iff, List.forall_mem_map, ← List.forall_mem_append,
    leading_append_drop]

/-- The references of an atom fit when they are named and to columns that are left. -/
theorem errors_references_eq_nil_iff :
    (references site columns atom).errors = [] ↔
      Fit site columns atom.leading.length {} (atom.params.drop atom.leading.length) :=
  errors_collectReferences_eq_nil_iff

theorem passes_iff_isSound (hcolumns : columns.Nodup) :
    Passes site columns atom ↔ IsSound site columns atom := by
  have hnames : (atom.params.drop atom.leading.length).filterMap Param.columnName? =
      atom.columnNames := filterMap_drop_leading fun _ => rfl
  have hnumerals : (atom.params.drop atom.leading.length).filterMap Param.columnNumeral? =
      atom.columnNumerals := filterMap_drop_leading fun _ => rfl
  have hnumbers : (atom.params.drop atom.leading.length).filterMap readNumber? =
      atom.params.filterMap readNumber? := filterMap_drop_leading fun _ => rfl
  constructor
  · rintro ⟨hleading, hreferences, hfilling⟩
    have hfit := errors_references_eq_nil_iff.1 hreferences
    have hterms := forall_terms_iff.2 ⟨hleading, hfit.terms⟩
    rw [forall_filling_iff hcolumns] at hfilling
    have hfitnames : KeysFit (IsFreeName columns atom.leading.length) [] atom.columnNames :=
      hnames ▸ hfit.names
    refine ⟨hterms, hfit.named, hnumerals ▸ hfit.numerals, hfitnames, hnumbers ▸ hfit.numbers,
      fun name j hname hj => ?_⟩
    have hle := (hfitnames.free name hname).le hcolumns hj
    exact (exists_argument_iff hterms).1 (hfilling j name hle hj) hname
  · intro h
    obtain ⟨hleading, hrest⟩ := forall_terms_iff.1 h.terms
    refine ⟨hleading, errors_references_eq_nil_iff.2 ⟨h.named, hrest, ?_, ?_, ?_⟩, ?_⟩
    · exact hnumerals ▸ h.numerals
    · exact hnames ▸ h.names
    · exact hnumbers ▸ h.numbers
    · rw [forall_filling_iff hcolumns]
      intro j name _ hj
      exact (exists_argument_iff h.terms).2 fun hname => h.once name j hname hj

theorem mem_columnNumbers_iff :
    j ∈ atom.columnNumbers ↔ ∃ text ∈ atom.columnNumerals, text.toNat? = some j := by
  simp only [Surface.Atom.columnNumbers, Surface.Atom.columnNumerals, List.mem_filterMap,
    Param.columnNumber?, Option.bind_eq_some_iff]
  constructor
  · rintro ⟨p, hp, text, htext, hnumber⟩
    exact ⟨text, ⟨p, hp, htext⟩, hnumber⟩
  · rintro ⟨text, ⟨p, hp, htext⟩, hnumber⟩
    exact ⟨p, hp, text, htext, hnumber⟩

/-- A numeral that can be the number of a column has the number that it denotes. -/
theorem readNumber?_eq (hintegers : atom.HasIntegers)
    (h : ∀ text ∈ atom.columnNumerals, ∃ n, readColumn? text = some n) {p : Param}
    (hp : p ∈ atom.params) : readNumber? p = p.columnNumber? := by
  rw [readNumber?, Param.columnNumber?]
  cases hnumeral : p.columnNumeral? with
  | none => rfl
  | some text =>
      have htext : text ∈ atom.columnNumerals := List.mem_filterMap.2 ⟨p, hp, hnumeral⟩
      obtain ⟨n, hn⟩ := h text htext
      obtain ⟨-, hnumber, -⟩ := (readColumn?_eq_some_iff (hintegers text htext)).1 hn
      rw [Option.bind_some, Option.bind_some, hn, hnumber]

theorem filterMap_readNumber? (hintegers : atom.HasIntegers)
    (h : ∀ text ∈ atom.columnNumerals, ∃ n, readColumn? text = some n) :
    atom.params.filterMap readNumber? = atom.columnNumbers :=
  List.filterMap_congr fun _ hp => readNumber?_eq hintegers h hp

theorem isSound_iff_not_isFaulty (hcolumns : columns.Nodup) (hintegers : atom.HasIntegers) :
    IsSound site columns atom ↔ ¬ IsFaulty site columns atom := by
  constructor
  · intro h hfaulty
    have hnumbers := h.numbers
    have honce := h.once
    rw [filterMap_readNumber? hintegers h.numerals] at hnumbers honce
    cases hfaulty with
    | term hp he =>
        obtain ⟨t, ht⟩ := h.terms _ hp
        cases he.symm.trans ht
    | positionalAfterReference hpq hp hq =>
        have hnamed := List.pairwise_iff_forall_sublist.1 (forall_isNamed_iff.1 h.named) hpq hp
        exact Bool.false_ne_true (hq.symm.trans hnamed)
    | repeatedName hrepeated => exact hrepeated h.names.nodup
    | unknownName hname hunknown =>
        obtain ⟨j, hj, -⟩ := (isFreeName_iff hcolumns).1 (h.names.free _ hname)
        exact hunknown (List.mem_of_getElem? hj)
    | filledName hname hj hlt => exact Nat.not_le.2 hlt ((h.names.free _ hname).le hcolumns hj)
    | signedNumber htext hminus =>
        obtain ⟨n, hn⟩ := h.numerals _ htext
        exact ((readColumn?_eq_some_iff (hintegers _ htext)).1 hn).1 hminus
    | excessiveNumber hnumber hexcessive =>
        obtain ⟨text, htext, htoNat⟩ := mem_columnNumbers_iff.1 hnumber
        obtain ⟨n, hn⟩ := h.numerals text htext
        obtain ⟨-, hn, hlt⟩ := (readColumn?_eq_some_iff (hintegers text htext)).1 hn
        cases htoNat.symm.trans hn
        exact Nat.not_le.2 hlt hexcessive
    | repeatedNumber hrepeated => exact hrepeated hnumbers.nodup
    | filledNumber hnumber hlt => exact Nat.not_le.2 hlt (hnumbers.free _ hnumber).1
    | numberOutside hnumber hle => exact Nat.not_le.2 (hnumbers.free _ hnumber).2 hle
    | nameAndNumber hname hj hnumber => exact honce _ _ hname hj hnumber
  · intro h
    -- that all numerals are read comes first: only then the numbers that are read are all of them
    have hnumerals : ∀ text ∈ atom.columnNumerals, ∃ n, readColumn? text = some n := by
      intro text htext
      have hminus : '-' ∉ text.toList := fun hminus => h (.signedNumber htext hminus)
      obtain ⟨n, hn⟩ := exists_toNat? (hintegers text htext) hminus
      refine ⟨n, (readColumn?_eq_some_iff (hintegers text htext)).2 ⟨hminus, hn, ?_⟩⟩
      exact Nat.lt_of_not_le fun hle =>
        h (.excessiveNumber (mem_columnNumbers_iff.2 ⟨text, htext, hn⟩) hle)
    refine ⟨fun p hp => ?_, forall_isNamed_iff.2 (List.pairwise_iff_forall_sublist.2 ?_), hnumerals,
      ⟨?_, fun _ _ => List.not_mem_nil, fun name hname => (isFreeName_iff hcolumns).2 ?_⟩, ?_, ?_⟩
    · cases hterm : site.term p.term with
      | ok t => exact ⟨t, rfl⟩
      | error e => exact absurd (.term hp hterm) h
    · intro p q hpq hp
      exact Bool.of_not_eq_false fun hq => h (.positionalAfterReference hpq hp hq)
    · by_contra hrepeated
      exact h (.repeatedName hrepeated)
    · have hknown : name ∈ columns := by
        by_contra hunknown
        exact h (.unknownName hname hunknown)
      obtain ⟨j, hj⟩ := List.mem_iff_getElem?.1 hknown
      exact ⟨j, hj, Nat.le_of_not_lt fun hlt => h (.filledName hname hj hlt)⟩
    · rw [filterMap_readNumber? hintegers hnumerals]
      refine ⟨?_, fun _ _ => List.not_mem_nil, fun number hnumber => ⟨?_, ?_⟩⟩
      · by_contra hrepeated
        exact h (.repeatedNumber hrepeated)
      · exact Nat.le_of_not_lt fun hlt => h (.filledNumber hnumber hlt)
      · exact Nat.lt_of_not_le fun hle => h (.numberOutside hnumber hle)
    · rw [filterMap_readNumber? hintegers hnumerals]
      exact fun name j hname hj hnumber => h (.nameAndNumber hname hj hnumber)

end Soundness

end Compile

end DatalogPolicy

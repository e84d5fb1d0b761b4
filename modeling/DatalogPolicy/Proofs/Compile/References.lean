import DatalogPolicy.Proofs.Compile.Arguments
import Mathlib.Data.List.Nodup
import Mathlib.Tactic.MkIffOfInductiveProp

/-!
# What references give to columns

References are collected without faults just when each of them has a term and is to a column
that is free and that no other one names or numbers. Distinct columns are filled one by one,
each with the value that is given by its name or by its number.
-/

namespace DatalogPolicy

namespace Surface.Param

/-- The name by which an argument refers to a column. -/
def columnName? : Param → Option String
  | positional _ => none
  | named column _ => if column.terminal = .identifier then some column.text else none

/-- The numeral by which an argument refers to a column. -/
def columnNumeral? : Param → Option String
  | positional _ => none
  | named column _ => if column.terminal = .identifier then none else some column.text

end Surface.Param

namespace Compile

open Surface (Param)

section Keys

variable {α : Type} {key : α} {free : α → Prop} {used keys : List α}

/-- Keys that are free, that differ from each other, and that are not used yet. -/
structure KeysFit (free : α → Prop) (used keys : List α) : Prop where
  nodup : keys.Nodup
  unused : ∀ key ∈ keys, key ∉ used
  free : ∀ key ∈ keys, free key

theorem KeysFit.nil : KeysFit free used [] :=
  ⟨List.nodup_nil, List.forall_mem_nil _, List.forall_mem_nil _⟩

/-- The first key is used for those that follow. -/
theorem keysFit_cons :
    KeysFit free used (key :: keys) ↔
      (key ∉ used ∧ free key) ∧ KeysFit free (key :: used) keys := by
  constructor
  · rintro ⟨hnodup, hunused, hfree⟩
    rw [List.nodup_cons] at hnodup
    rw [List.forall_mem_cons] at hunused hfree
    refine ⟨⟨hunused.1, hfree.1⟩, hnodup.2, fun other hother => ?_, hfree.2⟩
    rw [List.mem_cons, not_or]
    exact ⟨ne_of_mem_of_not_mem hother hnodup.1, hunused.2 other hother⟩
  · rintro ⟨⟨hkey, hfree⟩, hrest⟩
    refine ⟨List.nodup_cons.2 ⟨fun hmem => ?_, hrest.nodup⟩, ?_, ?_⟩
    · exact hrest.unused key hmem List.mem_cons_self
    · exact List.forall_mem_cons.2
        ⟨hkey, fun other hother hused => hrest.unused other hother (List.mem_cons_of_mem key hused)⟩
    · exact List.forall_mem_cons.2 ⟨hfree, hrest.free⟩

end Keys

section Entries

variable {α : Type} {site : Site} {key? : Param → Option α} {key : α} {t : Located Term}
  {params : List Param}

/-- The value that an argument gives, under its key. -/
def given? (site : Site) (key? : Param → Option α) (p : Param) : Option (α × Located Term) :=
  (key? p).bind fun key => (site.term p.term).toOption.map (key, ·)

theorem given?_eq_some_iff {p : Param} :
    given? site key? p = some (key, t) ↔ key? p = some key ∧ site.term p.term = .ok t := by
  rw [given?, Option.bind_eq_some_iff]
  constructor
  · rintro ⟨_, hkey, hterm⟩
    obtain ⟨_, hterm, heq⟩ := Option.map_eq_some_iff.1 hterm
    cases heq
    exact ⟨hkey, eq_ok_of_toOption hterm⟩
  · rintro ⟨hkey, hterm⟩
    exact ⟨key, hkey, by rw [hterm]; rfl⟩

/-- Where all arguments have terms, each key has its value. -/
theorem map_fst_entries (h : ∀ p ∈ params, ∃ t, site.term p.term = .ok t) :
    (params.filterMap (given? site key?)).map Prod.fst = params.filterMap key? := by
  rw [List.map_filterMap]
  refine List.filterMap_congr fun p hp => ?_
  obtain ⟨t, ht⟩ := h p hp
  rw [given?, ht]
  cases key? p <;> rfl

theorem lookup_of_mem [BEq α] [LawfulBEq α] {entries : List (α × Located Term)}
    (h : (entries.map Prod.fst).Nodup) (hmem : (key, t) ∈ entries) :
    entries.lookup key = some t := by
  obtain ⟨front, back, rfl⟩ := List.append_of_mem hmem
  refine List.lookup_eq_some_iff.2 ⟨front, back, rfl, fun entry hentry => bne_iff_ne.2 ?_⟩
  rw [List.map_append, List.nodup_append] at h
  exact (h.2.2 _ (List.mem_map_of_mem hentry) _ List.mem_cons_self).symm

/-- A value is found under the key of the argument that gives it. -/
theorem lookup_entries_eq_some_iff [BEq α] [LawfulBEq α]
    (hterms : ∀ p ∈ params, ∃ t, site.term p.term = .ok t) (h : (params.filterMap key?).Nodup) :
    (params.filterMap (given? site key?)).reverse.lookup key = some t ↔
      ∃ p ∈ params, key? p = some key ∧ site.term p.term = .ok t := by
  have hmem : (key, t) ∈ (params.filterMap (given? site key?)).reverse ↔
      ∃ p ∈ params, key? p = some key ∧ site.term p.term = .ok t := by
    simp only [List.mem_reverse, List.mem_filterMap, given?_eq_some_iff]
  refine ⟨fun hlookup => hmem.1 (mem_of_lookup hlookup), fun hgiven => ?_⟩
  refine lookup_of_mem ?_ (hmem.2 hgiven)
  rwa [List.map_reverse, map_fst_entries hterms, List.nodup_reverse]

theorem lookup_entries_eq_none_iff [BEq α] [LawfulBEq α]
    (hterms : ∀ p ∈ params, ∃ t, site.term p.term = .ok t) :
    (params.filterMap (given? site key?)).reverse.lookup key = none ↔
      key ∉ params.filterMap key? := by
  have hkeys : (params.filterMap (given? site key?)).map Prod.fst = params.filterMap key? :=
    map_fst_entries hterms
  rw [List.lookup_eq_none_iff, ← hkeys, List.mem_map]
  constructor
  · rintro h ⟨entry, hentry, rfl⟩
    exact bne_iff_ne.1 (h entry (List.mem_reverse.2 hentry)) rfl
  · intro h entry hentry
    exact bne_iff_ne.2 fun heq => h ⟨entry, List.mem_reverse.1 hentry, heq.symm⟩

end Entries

section Collection

variable {site : Site} {fault : ReferenceFault → PolicyError} {columns : List String}
  {filled : Nat} {given : References} {params : List Param}

/-- The number by which an argument refers to a column, if there can be such a column. -/
def readNumber? (p : Param) : Option Nat := p.columnNumeral?.bind readColumn?

/-- A column that is not given by position has a name. -/
def IsFreeName (columns : List String) (filled : Nat) (name : String) : Prop :=
  ∃ column, columns.findIdx? (· = name) = some column ∧ filled ≤ column

/-- A column that is not given by position has a number. -/
def IsFreeNumber (columns : List String) (filled number : Nat) : Prop :=
  filled ≤ number ∧ number < columns.length

theorem nameFaults_eq_nil_iff {name : String} :
    nameFaults columns filled given name = [] ↔
      name ∉ given.names.map Prod.fst ∧ IsFreeName columns filled name := by
  rw [nameFaults, List.append_eq_nil_iff]
  refine and_congr ?_ ?_
  · simp
  · cases hfind : columns.findIdx? (· = name) with
    | none => simp [IsFreeName, hfind]
    | some column => simp [IsFreeName, hfind]

theorem numberFaults_eq_nil_iff {number : Nat} :
    numberFaults columns filled given number = [] ↔
      number ∉ given.numbers.map Prod.fst ∧ IsFreeNumber columns filled number := by
  rw [numberFaults, List.append_eq_nil_iff, List.append_eq_nil_iff, and_assoc]
  refine and_congr ?_ (and_congr ?_ ?_) <;> simp

/-- Values are collected in front of those that are given already. -/
theorem collectReferences_value :
    (collectReferences site fault columns filled given params).value =
      { names := (params.filterMap (given? site Param.columnName?)).reverse ++ given.names
        numbers := (params.filterMap (given? site readNumber?)).reverse ++ given.numbers } := by
  induction params generalizing given with
  | nil => rfl
  | cons p params ih =>
      cases p with
      | positional x => exact ih
      | named column x =>
          rw [collectReferences]
          cases hterm : site.term x with
          | error e =>
              have hnone {α : Type} (key? : Param → Option α) :
                  given? site key? (.named column x) = none := by
                rw [given?, Param.term, hterm]
                cases key? (.named column x) <;> rfl
              rw [List.filterMap_cons_none (hnone _), List.filterMap_cons_none (hnone _)]
              exact ih
          | ok t =>
              by_cases hname : column.terminal = .identifier
              · simp [addReference, given?, Param.columnName?, readNumber?, Param.columnNumeral?,
                  Param.term, hname, hterm, ih, Except.toOption]
              · cases hnumber : readColumn? column.text <;>
                  simp [addReference, given?, Param.columnName?, readNumber?, Param.columnNumeral?,
                    Param.term, hname, hterm, hnumber, ih, Except.toOption]

/-- References without faults: all have terms, and their names and numbers fit. -/
@[mk_iff]
structure Fit (site : Site) (columns : List String) (filled : Nat) (given : References)
    (params : List Param) : Prop where
  named : ∀ p ∈ params, p.isNamed = true
  terms : ∀ p ∈ params, ∃ t, site.term p.term = .ok t
  numerals : ∀ text ∈ params.filterMap Param.columnNumeral?, ∃ n, readColumn? text = some n
  names : KeysFit (IsFreeName columns filled) (given.names.map Prod.fst)
    (params.filterMap Param.columnName?)
  numbers : KeysFit (IsFreeNumber columns filled) (given.numbers.map Prod.fst)
    (params.filterMap readNumber?)

theorem fit_nil : Fit site columns filled given [] :=
  ⟨List.forall_mem_nil _, List.forall_mem_nil _, List.forall_mem_nil _, .nil, .nil⟩

section Cons

variable {column x : Lexeme} {t : Located Term}

theorem fit_cons_name (hterm : site.term x = .ok t) (hname : column.terminal = .identifier) :
    Fit site columns filled given (.named column x :: params) ↔
      (column.text ∉ given.names.map Prod.fst ∧ IsFreeName columns filled column.text) ∧
        Fit site columns filled { given with names := (column.text, t) :: given.names } params := by
  have hfirst : ∃ t, site.term (Param.named column x).term = .ok t := ⟨t, hterm⟩
  have hnamed : (Param.named column x).columnName? = some column.text := if_pos hname
  have hnumeral : (Param.named column x).columnNumeral? = none := if_pos hname
  have hnumber : readNumber? (.named column x) = none := by
    rw [readNumber?, hnumeral, Option.bind_none]
  simp only [fit_iff, List.forall_mem_cons, List.filterMap_cons_some hnamed,
    List.filterMap_cons_none hnumeral, List.filterMap_cons_none hnumber, keysFit_cons,
    List.map_cons]
  tauto

theorem fit_cons_number (hterm : site.term x = .ok t) (hname : column.terminal ≠ .identifier) :
    Fit site columns filled given (.named column x :: params) ↔
      ∃ n, readColumn? column.text = some n ∧
        (n ∉ given.numbers.map Prod.fst ∧ IsFreeNumber columns filled n) ∧
          Fit site columns filled { given with numbers := (n, t) :: given.numbers } params := by
  have hfirst : ∃ t, site.term (Param.named column x).term = .ok t := ⟨t, hterm⟩
  have hnamed : (Param.named column x).columnName? = none := if_neg hname
  have hnumeral : (Param.named column x).columnNumeral? = some column.text := if_neg hname
  cases hread : readColumn? column.text with
  | none =>
      refine iff_of_false (fun h => ?_) fun ⟨_, h, _⟩ => nomatch h
      have hnumerals := h.numerals
      rw [List.filterMap_cons_some hnumeral, List.forall_mem_cons, hread] at hnumerals
      exact nomatch hnumerals.1
  | some n =>
      have hnumber : readNumber? (.named column x) = some n := by
        rw [readNumber?, hnumeral, Option.bind_some, hread]
      have hsome : ∃ m, readColumn? column.text = some m := ⟨n, hread⟩
      simp only [fit_iff, List.forall_mem_cons, List.filterMap_cons_none hnamed,
        List.filterMap_cons_some hnumeral, List.filterMap_cons_some hnumber, keysFit_cons,
        List.map_cons, Option.some.injEq, exists_eq_left']
      tauto

end Cons

/-- References are collected without faults when they fit. -/
theorem errors_collectReferences_eq_nil_iff :
    (collectReferences site fault columns filled given params).errors = [] ↔
      Fit site columns filled given params := by
  -- a reference is checked against those before it, which the induction keeps in `given`
  induction params generalizing given with
  | nil => exact iff_of_true rfl fit_nil
  | cons p params ih =>
      cases p with
      | positional x =>
          refine iff_of_false (List.cons_ne_nil _ _) fun h => ?_
          exact Bool.false_ne_true (h.named _ List.mem_cons_self)
      | named column x =>
          rw [collectReferences]
          cases hterm : site.term x with
          | error e =>
              refine iff_of_false (List.cons_ne_nil _ _) fun h => ?_
              obtain ⟨t, ht⟩ := h.terms _ List.mem_cons_self
              cases hterm.symm.trans ht
          | ok t =>
              by_cases hname : column.terminal = .identifier
              · simp only [addReference, if_pos hname, List.append_eq_nil_iff,
                  List.map_eq_nil_iff, ih, nameFaults_eq_nil_iff, fit_cons_name hterm hname]
              · cases hread : readColumn? column.text <;>
                  simp [addReference, hname, hread, ih, numberFaults_eq_nil_iff,
                    fit_cons_number hterm hname]

end Collection

section Filling

variable {site : Site} {given : References} {number j : Nat} {columns : List String}

/-- The argument of a column that is not given by position. -/
def columnArgument (site : Site) (given : References) (number : Nat) (column : String) :
    Except ReferenceFault (Located Term) :=
  match given.names.lookup column, given.numbers.lookup number with
  | some _, some _ => .error (.nameAndNumber column number)
  | some term, none => .ok term
  | none, some term => .ok term
  | none, none => .ok ⟨.var (FreshName.filler site.stem site.index number), none⟩

/-- A column that is given one value at most has an argument. -/
theorem exists_columnArgument_iff {column : String} :
    (∃ t, columnArgument site given number column = .ok t) ↔
      given.names.lookup column = none ∨ given.numbers.lookup number = none := by
  rw [columnArgument]
  cases given.names.lookup column <;> cases given.numbers.lookup number <;> simp

theorem lookup_filter_ne {α : Type} {entries : List (String × α)} {name other : String}
    (h : name ≠ other) : (entries.filter (·.1 ≠ other)).lookup name = entries.lookup name := by
  induction entries with
  | nil => rfl
  | cons entry entries ih =>
      obtain ⟨key, a⟩ := entry
      by_cases hkey : key = other
      · have hne : (name == key) = false := beq_eq_false_iff_ne.2 (hkey ▸ h)
        rw [List.filter_cons_of_neg (by simpa using hkey), ih, List.lookup_cons, hne]
      · rw [List.filter_cons_of_pos (by simpa using hkey), List.lookup_cons, List.lookup_cons, ih]

theorem length_fillColumns : (fillColumns site given number columns).length = columns.length := by
  induction columns generalizing given number with
  | nil => rfl
  | cons column columns ih => exact congrArg Nat.succ ih

/-- Distinct columns are filled independently of each other. -/
theorem getElem?_fillColumns (h : columns.Nodup) :
    (fillColumns site given number columns)[j]? =
      columns[j]?.map (columnArgument site given (number + j)) := by
  induction columns generalizing given number j with
  | nil => rfl
  | cons column columns ih =>
      obtain ⟨hcolumn, hrest⟩ := List.nodup_cons.1 h
      rw [fillColumns]
      cases j with
      | zero => rfl
      | succ j =>
          rw [List.getElem?_cons_succ, List.getElem?_cons_succ, ih hrest, Nat.add_assoc,
            Nat.add_comm 1]
          refine Option.map_congr fun other hother => ?_
          have hne : other ≠ column := ne_of_mem_of_not_mem (List.mem_of_getElem? hother) hcolumn
          rw [columnArgument, columnArgument, lookup_filter_ne hne]

end Filling

end Compile

end DatalogPolicy

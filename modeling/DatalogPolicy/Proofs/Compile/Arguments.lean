import DatalogPolicy.Compile.Arguments
import Mathlib.Data.List.Basic

/-!
# Where arguments come from

Every argument of a compiled atom is the term of one of the arguments that are written, or
it is the fresh variable of the column in which it stands.
-/

namespace DatalogPolicy

/-- The positional arguments with which an atom begins. -/
def Surface.Atom.leading (a : Surface.Atom) : List Surface.Param := a.params.takeWhile (!·.isNamed)

namespace Compile

section Results

variable {ε α : Type}

theorem eq_ok_of_toOption {r : Except ε α} {a : α} (h : r.toOption = some a) : r = .ok a := by
  cases r with
  | ok b => exact congrArg Except.ok (Option.some.inj h)
  | error e => cases h

theorem exists_eq_ok {r : Except ε α} (h : r.toOption.isSome = true) : ∃ a, r = .ok a := by
  cases r with
  | ok a => exact ⟨a, rfl⟩
  | error e => cases h

theorem ne_ok {r : Except ε α} (h : r.toOption.isSome = false) (a : α) : r ≠ .ok a := by
  rintro rfl
  cases h

/-- Results none of which is an error are those of their values. -/
theorem eq_map_ok {rs : List (Except ε α)} (h : ∀ r ∈ rs, ∃ a, r = .ok a) :
    rs = (rs.filterMap (·.toOption)).map .ok := by
  induction rs with
  | nil => rfl
  | cons r rest ih =>
      obtain ⟨hfirst, hrest⟩ := List.forall_mem_cons.1 h
      obtain ⟨a, rfl⟩ := hfirst
      exact congrArg (Except.ok a :: ·) (ih hrest)

theorem mem_of_lookup {α β : Type} [BEq α] [LawfulBEq α] {entries : List (α × β)} {key : α}
    {b : β} (h : entries.lookup key = some b) : (key, b) ∈ entries := by
  obtain ⟨front, back, rfl, -⟩ := List.lookup_eq_some_iff.1 h
  exact List.mem_append_right _ List.mem_cons_self

end Results

section Terms

variable {site : Site} {xs : List Lexeme} {t : Located Term}

theorem Site.exists_of_mem_terms (h : t ∈ (site.terms xs).value) :
    ∃ x ∈ xs, site.term x = .ok t := by
  obtain ⟨x, hx, hterm⟩ := List.mem_filterMap.1 h
  exact ⟨x, hx, eq_ok_of_toOption hterm⟩

theorem Site.errors_terms_eq_nil_iff :
    (site.terms xs).errors = [] ↔ ∀ x ∈ xs, ∃ t, site.term x = .ok t := by
  refine List.filterMap_eq_nil_iff.trans (forall₂_congr fun x _ => ?_)
  cases site.term x with
  | ok t => exact iff_of_true rfl ⟨t, rfl⟩
  | error e => exact iff_of_false nofun fun ⟨_, h⟩ => by cases h

/-- Lexemes without faults have a term each. -/
theorem Site.map_term (h : (site.terms xs).errors = []) :
    xs.map site.term = (site.terms xs).value.map .ok := by
  have hok := eq_map_ok (List.forall_mem_map.2 (Site.errors_terms_eq_nil_iff.1 h))
  rwa [List.filterMap_map] at hok

theorem Site.length_terms (h : (site.terms xs).errors = []) :
    (site.terms xs).value.length = xs.length := by
  have hlength := congrArg List.length (Site.map_term h)
  rw [List.length_map, List.length_map] at hlength
  exact hlength.symm

end Terms

/-- All values that references give have a property. -/
structure References.AllGiven (P : Located Term → Prop) (given : References) : Prop where
  names : ∀ e ∈ given.names, P e.2
  numbers : ∀ e ∈ given.numbers, P e.2

namespace References.AllGiven

variable {P : Located Term → Prop} {given : References} {t : Located Term} {site : Site}

theorem empty : References.AllGiven P {} := ⟨List.forall_mem_nil _, List.forall_mem_nil _⟩

theorem addReference (h : given.AllGiven P) (columns : List String) (filled : Nat)
    (column : Lexeme) (ht : P t) : (addReference columns filled given column t).1.AllGiven P := by
  rw [Compile.addReference]
  split
  · exact ⟨List.forall_mem_cons.2 ⟨ht, h.names⟩, h.numbers⟩
  · split
    · exact h
    · exact ⟨h.names, List.forall_mem_cons.2 ⟨ht, h.numbers⟩⟩

theorem collectReferences (h : given.AllGiven P) (fault : ReferenceFault → PolicyError)
    (columns : List String) (filled : Nat) {params : List Surface.Param}
    (hparams : ∀ p ∈ params, ∀ t, site.term p.term = .ok t → P t) :
    (collectReferences site fault columns filled given params).value.AllGiven P := by
  induction params generalizing given with
  | nil => exact h
  | cons p params ih =>
      obtain ⟨hp, hrest⟩ := List.forall_mem_cons.1 hparams
      cases p with
      | positional x => exact ih h hrest
      | named column x =>
          rw [Compile.collectReferences]
          split
          · exact ih h hrest
          · next t ht => exact ih (h.addReference columns filled column (hp t ht)) hrest

/-- A column is filled with a value that is given or with its fresh variable. -/
theorem getElem?_fillColumns (h : given.AllGiven P) {number k : Nat} {columns : List String}
    (ht : (fillColumns site given number columns)[k]? = some (.ok t)) :
    P t ∨ t = ⟨.var (FreshName.filler site.stem site.index (number + k)), none⟩ := by
  induction columns generalizing given number k with
  | nil => cases ht
  | cons column columns ih =>
      rw [Compile.fillColumns] at ht
      cases k with
      | zero =>
          rw [List.getElem?_cons_zero, Option.some.injEq] at ht
          split at ht
          · cases ht
          · next hname _ =>
              cases ht
              exact .inl (h.names _ (mem_of_lookup hname))
          · next _ hnumber =>
              cases ht
              exact .inl (h.numbers _ (mem_of_lookup hnumber))
          · cases ht
            exact .inr rfl
      | succ k =>
          -- a name is used up by the first column that has it
          have hothers : References.AllGiven P
              { given with names := given.names.filter (·.1 ≠ column) } :=
            ⟨fun e he => h.names e (List.mem_filter.1 he).1, h.numbers⟩
          rw [List.getElem?_cons_succ] at ht
          rw [← Nat.add_assoc, Nat.add_right_comm]
          exact ih hothers ht

/-- Where no column has two values, the values and fresh variables stand in their columns. -/
theorem getElem?_filled (h : given.AllGiven P) {number k : Nat} {columns : List String}
    (hok : ∀ r ∈ fillColumns site given number columns, ∃ t, r = .ok t)
    (ht : ((fillColumns site given number columns).filterMap (·.toOption))[k]? = some t) :
    P t ∨ t = ⟨.var (FreshName.filler site.stem site.index (number + k)), none⟩ := by
  have hfilled : (fillColumns site given number columns)[k]? = some (.ok t) := by
    rw [eq_map_ok hok, List.getElem?_map, ht]
    rfl
  exact h.getElem?_fillColumns hfilled

end References.AllGiven

section Stages

variable {site : Site} {columns : List String} {atom : Surface.Atom}

/-- The references of an atom, with their faults. -/
def references (site : Site) (columns : List String) (atom : Surface.Atom) : Outcome References :=
  collectReferences site (fun f => .policy (.reference atom.text f) (site.locate atom.span)) columns
    atom.leading.length {} (atom.params.drop atom.leading.length)

/-- The arguments of the columns that are not given by position. -/
def filling (site : Site) (columns : List String) (atom : Surface.Atom) :
    List (Except ReferenceFault (Located Term)) :=
  fillColumns site (references site columns atom).value atom.leading.length
    (columns.drop atom.leading.length)

/-- No stage of the compilation of an atom finds a fault. -/
structure Passes (site : Site) (columns : List String) (atom : Surface.Atom) : Prop where
  terms : (site.terms (atom.leading.map (·.term))).errors = []
  collected : (references site columns atom).errors = []
  filled : ∀ r ∈ filling site columns atom, ∃ t, r = .ok t

theorem knownArguments_eq :
    knownArguments site atom columns =
      let fault := fun f => PolicyError.policy (.reference atom.text f) (site.locate atom.span)
      let positional := site.terms (atom.leading.map (·.term))
      let errors := positional.errors ++ (references site columns atom).errors
      let faults := (filling site columns atom).filterMap fun
        | .ok _ => none
        | .error f => some (fault f)
      if errors.isEmpty then
        if faults.isEmpty then
          { value := positional.value ++ (filling site columns atom).filterMap (·.toOption) }
        else { value := [], errors := faults }
      else { value := [], errors } := rfl

theorem errors_filling_eq_nil_iff {fault : ReferenceFault → PolicyError} :
    ((filling site columns atom).filterMap fun
      | .ok _ => none
      | .error f => some (fault f)) = [] ↔ ∀ r ∈ filling site columns atom, ∃ t, r = .ok t := by
  refine List.filterMap_eq_nil_iff.trans (forall₂_congr fun r _ => ?_)
  cases r with
  | ok t => exact iff_of_true rfl ⟨t, rfl⟩
  | error f => exact iff_of_false nofun fun ⟨_, h⟩ => nomatch h

theorem knownArguments_of_passes (h : Passes site columns atom) :
    knownArguments site atom columns =
      { value := (site.terms (atom.leading.map (·.term))).value ++
          (filling site columns atom).filterMap (·.toOption) } := by
  simp only [knownArguments_eq]
  rw [if_pos (by rw [h.terms, h.collected]; rfl),
    if_pos (List.isEmpty_iff.2 (errors_filling_eq_nil_iff.2 h.filled))]

theorem knownArguments_of_not_passes (h : ¬ Passes site columns atom) :
    (knownArguments site atom columns).errors ≠ [] ∧
      (knownArguments site atom columns).value = [] := by
  simp only [knownArguments_eq]
  split
  · next herrors =>
      rw [List.isEmpty_iff, List.append_eq_nil_iff] at herrors
      split
      · next hfaults =>
          rw [List.isEmpty_iff, errors_filling_eq_nil_iff] at hfaults
          exact absurd ⟨herrors.1, herrors.2, hfaults⟩ h
      · next hfaults => exact ⟨fun hnil => hfaults (List.isEmpty_iff.2 hnil), rfl⟩
  · next herrors => exact ⟨fun hnil => herrors (List.isEmpty_iff.2 hnil), rfl⟩

theorem Passes.length_positional (h : Passes site columns atom) :
    (site.terms (atom.leading.map (·.term))).value.length = atom.leading.length := by
  rw [Site.length_terms h.terms, List.length_map]

end Stages

section Arguments

variable {site : Site} {atom : Surface.Atom} {k : Nat} {t : Located Term}

/-- An argument is the term of one of those that are written. -/
def IsWritten (site : Site) (atom : Surface.Atom) (t : Located Term) : Prop :=
  ∃ p ∈ atom.params, site.term p.term = .ok t

theorem isWritten_of_mem_terms {params : List Surface.Param} (hsub : params ⊆ atom.params)
    (ht : t ∈ (site.terms (params.map (·.term))).value) : IsWritten site atom t := by
  obtain ⟨x, hx, hterm⟩ := Site.exists_of_mem_terms ht
  obtain ⟨p, hp, rfl⟩ := List.mem_map.1 hx
  exact ⟨p, hsub hp, hterm⟩

/-- An argument of an atom whose columns are known is written, or it fills its column. -/
theorem getElem?_knownArguments {columns : List String}
    (h : (knownArguments site atom columns).value[k]? = some t) :
    IsWritten site atom t ∨ t = ⟨.var (FreshName.filler site.stem site.index k), none⟩ := by
  by_cases hpasses : Passes site columns atom
  · rw [knownArguments_of_passes hpasses, List.getElem?_append, hpasses.length_positional] at h
    split at h
    · exact .inl (isWritten_of_mem_terms (List.takeWhile_sublist _).subset (List.mem_of_getElem? h))
    · next hk =>
        rw [← Nat.add_sub_cancel' (Nat.le_of_not_lt hk)]
        refine References.AllGiven.getElem?_filled ?_ hpasses.filled h
        exact References.AllGiven.empty.collectReferences _ _ _
          fun p hp t ht => ⟨p, (List.drop_sublist _ _).mem hp, ht⟩
  · rw [(knownArguments_of_not_passes hpasses).2] at h
    cases h

/-- An argument of an atom is written, or it fills its column. -/
theorem getElem?_arguments {table : TableName} {columns : Option (List String)}
    (h : (arguments site atom table columns).value[k]? = some t) :
    IsWritten site atom t ∨ t = ⟨.var (FreshName.filler site.stem site.index k), none⟩ := by
  cases columns with
  | none =>
      rw [arguments] at h
      split at h
      · cases h
      · exact .inl (isWritten_of_mem_terms (List.Subset.refl _) (List.mem_of_getElem? h))
  | some columns => exact getElem?_knownArguments h

end Arguments

end Compile

end DatalogPolicy

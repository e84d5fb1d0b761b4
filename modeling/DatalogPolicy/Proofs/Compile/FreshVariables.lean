import DatalogPolicy.Proofs.Compile.Printability
import Std.Data.String.ToNat

/-!
# Fresh variables capture nothing

The variables that fill the columns of a statement differ from each other and from every
variable that the statement writes. They begin with a run of underscores, the shortest one
with which no written variable begins; the search for it ends whatever variables there are.
-/

namespace DatalogPolicy

namespace FreshName

section Fillers

variable {stem : String} {i j c d : Nat}

theorem underscore_not_mem_toString (n : Nat) : '_' ∉ (toString n).toList :=
  fun h => absurd (isDigit_of_mem_toString h) (by decide)

/-- The numbers of the literal and of the column can be told from the name of the variable. -/
theorem filler_inj : filler stem i c = filler stem j d ↔ i = j ∧ c = d := by
  refine ⟨fun h => ?_, fun ⟨hi, hc⟩ => by rw [hi, hc]⟩
  simp only [filler, String.append_assoc, String.append_right_inj] at h
  have hchars := congrArg String.toList h
  simp only [String.toList_append] at hchars
  change (toString i).toList ++ '_' :: (toString c).toList =
    (toString j).toList ++ '_' :: (toString d).toList at hchars
  -- neither number has an underscore, so that the one between them can be found
  obtain ⟨hi, -, hc⟩ := (List.append_cons_inj_of_notMem (underscore_not_mem_toString i)
    (underscore_not_mem_toString c)).1 hchars
  exact ⟨Nat.repr_injective (String.toList_inj.1 hi), Nat.repr_injective (String.toList_inj.1 hc)⟩

theorem beginsWith_filler (n index column : Nat) :
    BeginsWith n (filler (String.ofList (List.replicate n '_')) index column) := by
  simp only [BeginsWith, filler, String.toList_append, String.toList_ofList, List.append_assoc]
  exact List.prefix_append ..

end Fillers

end FreshName

/-- A statement writes a variable, as an argument or as the value of a column. -/
def Surface.Statement.Writes (s : Surface.Statement) (x : String) : Prop :=
  ∃ l ∈ s.literals, ∃ p ∈ l.atom.params, p.term.terminal = .identifier ∧ p.term.text = x

instance (s : Surface.Statement) (x : String) : Decidable (s.Writes x) :=
  inferInstanceAs (Decidable (∃ l ∈ s.literals, ∃ p ∈ l.atom.params, _ ∧ _))

theorem Surface.Statement.writes_iff {s : Surface.Statement} {x : String} :
    s.Writes x ↔ x ∈ s.literals.flatMap (·.atom.vars) := by
  simp [Writes, Atom.vars, and_assoc]

namespace Formula

/-- The literals of a formula, heads first. -/
def literals : Formula → List Literal
  | .literal l => [l]
  | .rule r => r.literals

/-- An argument of a formula, by the number of its literal and its column. -/
def argument? (f : Formula) (index column : Nat) : Option (Located Term) :=
  f.literals[index]?.bind (·.arguments[column]?)

/-- An argument is a variable that is not written, and so has no place in a source. -/
def Introduces (f : Formula) (index column : Nat) (x : String) : Prop :=
  f.argument? index column = some ⟨.var x, none⟩

instance (f : Formula) (index column : Nat) (x : String) : Decidable (f.Introduces index column x) :=
  inferInstanceAs (Decidable (_ = _))

end Formula

namespace Compile

section Terms

variable {site : Site} {x : Lexeme} {t : Located Term}

/-- A term stands where its lexeme does. -/
theorem Site.location_of_term (h : site.term x = .ok t) : t.location = site.locate x.span := by
  cases hx : x.terminal <;> simp only [hx, Site.term] at h
  case integer | float | string => split at h <;> cases h <;> rfl
  all_goals
    cases h
    rfl

/-- A term that is a variable is that of an identifier. -/
theorem Site.text_of_term {y : String}
    (hterminal : x.terminal ∈ [.identifier, .integer, .float, .string])
    (h : site.term x = .ok t) (hvar : t.item = .var y) :
    x.terminal = .identifier ∧ x.text = y := by
  cases hx : x.terminal <;> simp only [hx, Site.term] at h
  case identifier =>
    cases h
    exact ⟨rfl, Term.var.inj hvar⟩
  case integer | float | string =>
    split at h <;> cases h <;> cases hvar
  all_goals simp [hx] at hterminal

end Terms

section Formulas

variable {settings : Settings} {source : Source} {s : Surface.Statement} {i c : Nat}

theorem arguments_literals (stem : String) (index : Nat) (ls : List Surface.Literal) :
    (literals settings source stem index ls).map (·.value.arguments) =
      ls.mapIdx fun i l =>
        (literal settings ⟨source.lines, index + i, stem⟩ l).value.arguments := by
  refine List.ext_getElem? fun i => ?_
  simp only [literals, List.getElem?_map, List.getElem?_mapIdx, Option.map_map, Function.comp_def]

/-- The literals of a statement are compiled one by one, each with its number. -/
theorem arguments_formula (settings : Settings) (source : Source) (s : Surface.Statement) :
    (formula settings source s).value.literals.map (·.arguments) =
      s.literals.mapIdx fun i l =>
        (literal settings ⟨source.lines, i, freshStem s⟩ l).value.arguments := by
  cases s with
  | fact l => rfl
  | rule head heads first body =>
      simp only [formula, Formula.literals, Rule.literals, Surface.Statement.literals,
        List.map_append, List.map_cons, List.map_map, Function.comp_def, arguments_literals,
        List.mapIdx_append, List.mapIdx_cons, List.length_cons, Nat.add_comm 1,
        Nat.add_comm (heads.length + 1)]

/-- An argument of a compiled statement is written in the statement, or it fills its column. -/
theorem argument?_formula {t : Located Term}
    (h : (formula settings source s).value.argument? i c = some t) :
    (∃ l ∈ s.literals, IsWritten ⟨source.lines, i, freshStem s⟩ l.atom t) ∨
      t = ⟨.var (FreshName.filler (freshStem s) i c), none⟩ := by
  obtain ⟨l, hl, ht⟩ := Option.bind_eq_some_iff.1 h
  have harguments := congrArg (·[i]?) (arguments_formula settings source s)
  simp only [List.getElem?_map, List.getElem?_mapIdx, hl, Option.map_some] at harguments
  obtain ⟨written, hwritten, heq⟩ := Option.map_eq_some_iff.1 harguments.symm
  rw [← heq] at ht
  exact (getElem?_arguments ht).imp_left fun ht => ⟨written, List.mem_of_getElem? hwritten, ht⟩

theorem introduces_eq {x : String} (h : (formula settings source s).value.Introduces i c x) :
    x = FreshName.filler (freshStem s) i c := by
  obtain ⟨l, -, p, -, hterm⟩ | heq := argument?_formula h
  · cases Site.location_of_term hterm
  · exact Term.var.inj (congrArg Located.item heq)

theorem writes_of_located {sts : List Surface.Statement} (hsource : source.statements = .ok sts)
    (hs : s ∈ sts) {x : String} {p : Position}
    (h : (formula settings source s).value.argument? i c = some ⟨.var x, some p⟩) :
    s.Writes x := by
  obtain ⟨l, hl, q, hq, hterm⟩ | heq := argument?_formula h
  · have hmade := (Source.program_of_statements hsource).madeOf (fun _ _ => trivial) s hs l hl
    exact ⟨l, hl, q, hq, Site.text_of_term (hmade.atom.params q hq).1 hterm rfl⟩
  · cases congrArg Located.location heq

end Formulas

/-- The variables that a compiled statement introduces differ from each other and from those that
the statement writes. They are named by their literal and their column behind the shortest run of
underscores, one at least, with which no written variable begins, and which a search finds that
ends for all variables; all other variables of the formula are written. -/
theorem introduces_fresh (settings : Settings) (source : Source) (s : Surface.Statement) :
    (∀ i c j d x, (formula settings source s).value.Introduces i c x →
      (formula settings source s).value.Introduces j d x → i = j ∧ c = d) ∧
    (∀ i c x, (formula settings source s).value.Introduces i c x → ¬ s.Writes x) ∧
    (∀ i c x, (formula settings source s).value.Introduces i c x →
      x = FreshName.filler (freshStem s) i c) ∧
    (∃ n, freshStem s = String.ofList (List.replicate n '_') ∧
      IsLeast {k | 0 < k ∧ ∀ x, s.Writes x → ¬ FreshName.BeginsWith k x} n) ∧
    (∀ names, FreshName.Run names "_" (FreshName.stem names)) ∧
    (∀ sts, source.statements = .ok sts → s ∈ sts → ∀ i c x p,
      (formula settings source s).value.argument? i c = some ⟨.var x, some p⟩ → s.Writes x) := by
  obtain ⟨n, hstem, hleast⟩ :=
    FreshName.exists_stem_isLeast (s.literals.flatMap (·.atom.vars))
  simp only [← Surface.Statement.writes_iff] at hleast
  refine ⟨fun i c j d x hx hy => ?_, fun i c x hx hwrites => ?_, fun i c x => introduces_eq,
    ⟨n, hstem, hleast⟩, fun names => FreshName.run_extend names "_", fun sts hsource hs i c x p => writes_of_located hsource hs⟩
  · exact FreshName.filler_inj.1 ((introduces_eq hx).symm.trans (introduces_eq hy))
  · have hbegins : FreshName.BeginsWith n x := by
      rw [introduces_eq hx, freshStem, hstem]
      exact FreshName.beginsWith_filler n i c
    exact hleast.1.2 x hwrites hbegins

/-- A rule whose variable begins as fresh variables would, given as the value of a column. -/
def sampleReference : Source := .ofText "<input>" "q(_x) :- nova:servers(id=_x)"

theorem introduces_sampleReference :
    ∃ sts, sampleReference.statements = .ok sts ∧ ∃ s ∈ sts,
      (formula { theories := sampleTheories } sampleReference s).value.Introduces 1 1 "__x_1_1" ∧
      s.Writes "_x" ∧ ¬ s.Writes "__x_1_1" := by
  have hsample : sampleReference.statements.toOption.any (fun sts => sts.any fun s =>
      (formula { theories := sampleTheories } sampleReference s).value.Introduces 1 1 "__x_1_1" ∧
      s.Writes "_x") = true := by
    decide +kernel
  obtain ⟨sts, hsts, hany⟩ := (Option.any_eq_true _ _).1 hsample
  obtain ⟨s, hs, h⟩ := List.any_eq_true.1 hany
  obtain ⟨hintroduces, hwrites⟩ := of_decide_eq_true h
  exact ⟨sts, eq_ok_of_toOption hsts, s, hs, hintroduces, hwrites,
    (introduces_fresh _ _ s).2.1 1 1 _ hintroduces⟩

end Compile

end DatalogPolicy

import DatalogPolicy.Proofs.Compile.RoundTrip
import DatalogPolicy.Proofs.Dependency.Stratification

/-!
# What a table name matches

A name and a query for a table are compared part by part, and once more with the service
split off the table text of the name. The second comparison is only about the table text:
it drops the service of a name that has one.
-/

namespace DatalogPolicy.TableName

/-- The full name of a queried table: behind its service and a colon, when there is a service. -/
def fullName (service : Option String) (table : String) : String :=
  match service with
  | some service => joinService service table
  | none => table

theorem globalName_eq_fullName (t : TableName) :
    t.globalName none = fullName t.service t.table := by
  rw [globalName_none, name, Option.or_none]
  rfl

/-- The two parts of a text, put together again, are the text. -/
theorem fullName_splitService (text : String) :
    fullName (splitService text).1 (splitService text).2 = text := by
  rw [splitService]
  split
  · rfl
  · next c rest hdrop =>
      have hnot := List.head?_dropWhile_not (· ≠ ':') text.toList
      rw [hdrop] at hnot
      obtain rfl : c = ':' := of_not_not (of_decide_eq_false hnot)
      apply String.toList_injective
      rw [fullName, toList_joinService, String.toList_ofList, String.toList_ofList, ← hdrop,
        List.takeWhile_append_dropWhile]

/-- A service adds at least its colon to the name of a table. -/
theorem joinService_ne (service table : String) : joinService service table ≠ table := by
  intro h
  have hlength := congrArg (fun text => text.toList.length) h
  simp only [toList_joinService, List.length_append, List.length_cons] at hlength
  omega

variable {t : TableName} {service : Option String} {table : String} {modal : Option String}

/-- A query that a name matches is under its modal. It names the same table when the name has no
service of its own, or the service and the table text are those of the name. Any other query that
is matched is for the table text alone, and so for another table. -/
theorem fullName_of_isNamed (h : t.isNamed service table modal = true) :
    modal = t.modal ∧
      (fullName service table = t.globalName none ↔
        t.service = none ∨ service = t.service ∧ table = t.table) ∧
      (¬ (t.service = none ∨ service = t.service ∧ table = t.table) →
        fullName service table = t.table ∧ t.table ≠ t.globalName none) := by
  obtain ⟨hmodal, hparts⟩ := of_decide_eq_true h
  have htext : ¬ (service = t.service ∧ table = t.table) → fullName service table = t.table := by
    intro hne
    have hsplit : (service, table) = splitService t.table := hparts.resolve_left hne
    rw [← fullName_splitService t.table, ← hsplit]
  have hother : t.service ≠ none → t.table ≠ t.globalName none := by
    intro hservice heq
    obtain ⟨s, hs⟩ := Option.ne_none_iff_exists'.1 hservice
    rw [globalName_eq_fullName, hs] at heq
    exact joinService_ne s t.table heq.symm
  refine ⟨hmodal, ⟨fun heq => ?_, ?_⟩, fun hne => ?_⟩
  · by_contra hne
    obtain ⟨hservice, hdirect⟩ := not_or.1 hne
    exact hother hservice ((htext hdirect).symm.trans heq)
  · rw [globalName_eq_fullName]
    rintro (hservice | ⟨rfl, rfl⟩)
    · by_cases hdirect : service = t.service ∧ table = t.table
      · rw [hdirect.1, hdirect.2]
      · rw [htext hdirect, hservice, fullName]
    · rfl
  · obtain ⟨hservice, hdirect⟩ := not_or.1 hne
    exact ⟨htext hdirect, hother hservice⟩

/-- The service of `nova:servers:cpu` is matched where it was split off, and where it was not. -/
theorem fullName_of_isNamed_servers :
    (ofText true "nova:servers:cpu").isNamed (some "nova") "servers:cpu" none = true ∧
    (ofText false "nova:servers:cpu").isNamed (some "nova") "servers:cpu" none = true ∧
    fullName (some "nova") "servers:cpu" = (ofText true "nova:servers:cpu").globalName none ∧
    fullName (some "nova") "servers:cpu" = (ofText false "nova:servers:cpu").globalName none := by
  have hsplit : (ofText true "nova:servers:cpu").isNamed (some "nova") "servers:cpu" none := by
    decide
  have hwhole : (ofText false "nova:servers:cpu").isNamed (some "nova") "servers:cpu" none := by
    decide
  exact ⟨hsplit, hwhole, (fullName_of_isNamed hsplit).2.1.2 (.inr (by decide)),
    (fullName_of_isNamed hwhole).2.1.2 (.inl rfl)⟩

/-- The name `nova:servers` matches a query for a table `servers` of no service. -/
theorem isNamed_withoutService :
    (ofText true "nova:servers").isNamed none "servers" none = true ∧
    fullName none "servers" ≠ (ofText true "nova:servers").globalName none := by
  decide

end DatalogPolicy.TableName

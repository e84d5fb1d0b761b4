import DatalogPolicy.Safety.Reorder
import DatalogPolicy.Schema

/-!
# Checks of formulas

Each check reports every fault that it finds. A formula without faults is a
ground fact or a rule whose variables are all bound by its body.
-/

namespace DatalogPolicy

/-- Equality of names up to the case of the letters from A to Z. -/
def sameLetters (a b : String) : Bool :=
  a.toList.map Char.toLower = b.toList.map Char.toLower

namespace Literal

/-- An error about a literal, at its place. -/
def error (l : Literal) (fault : Fault) : PolicyError := .policy fault l.location

/-- The faults of a literal against the schema of its service, or of `theory` if it has none.
Unknown theories have no schema, and a table without columns admits every width. -/
def schemaErrors (theories : Option Theories) (theory : Option String) (l : Literal) :
    List PolicyError :=
  match theories, l.table.service.or theory with
  | some theories, some active =>
      match theories[active]? with
      | none => []
      | some schema =>
          match schema.arity? l.table.table with
          | none => if schema.complete then [l.error (.unknownTable l active)] else []
          | some columns =>
              if 0 < columns ∧ l.arguments.length ≠ columns then
                [l.error (.wrongWidth l columns)]
              else []
  | _, _ => []

/-- The fault of a fact over a table with a service. -/
def theoryErrors (l : Literal) : List PolicyError :=
  match l.table.service with
  | none => []
  | some service => [l.error (.factOfTheory l service)]

/-- The faults of a fact. -/
def factErrors (theories : Option Theories) (theory : Option String) (l : Literal) :
    List PolicyError :=
  (if l.negated then [l.error (.negatedFact l)] else []) ++
    (if l.isGround then [] else [l.error (.openFact l)]) ++
    l.schemaErrors theories theory ++ l.theoryErrors

end Literal

namespace Rule

/-- The faults of head variables that the body does not have. -/
def headErrors (r : Rule) : List PolicyError :=
  let bound := r.body.flatMap (·.variableNames)
  ((variablesOf r.heads).filter (·.item ∉ bound)).map fun x =>
    .policy (.unboundHead x.item r) x.location

/-- The fault of a body that has no safe order. -/
def bodyErrors (r : Rule) : List PolicyError :=
  match r.reorder with
  | .ok _ => []
  | .error e => [e]

/-- The faults of the body against schemas. -/
def schemaErrors (theories : Option Theories) (theory : Option String) (r : Rule) :
    List PolicyError :=
  r.body.flatMap (·.schemaErrors theories theory)

/-- The faults of heads over tables with a service, unless they have a modal or are permitted. -/
def theoryErrors (permitted : Literal → Bool) (r : Rule) : List PolicyError :=
  (r.heads.filter fun l =>
    l.table.service.isSome && l.table.modal.isNone && !permitted l).map fun l =>
      l.error (.headOfTheory l r)

/-- The fault of a head whose modal is not permitted. -/
def modalErrors? (permitted : List String) (l : Literal) : Option PolicyError :=
  l.table.modal.bind fun modal =>
    if permitted.any (sameLetters · modal) then none
    else some (l.error (.forbiddenModal permitted modal l))

/-- The faults of modals: heads use permitted ones only, a head with a modal is the only head, and
bodies have none. -/
def modalErrors (permitted : List String) (r : Rule) : List PolicyError :=
  r.heads.filterMap (modalErrors? permitted) ++
    (if r.heads.any (·.table.modal.isSome) && 1 < r.heads.length then
      [.policy (.modalAmongHeads r.heads) r.location]
    else []) ++
    r.body.filterMap fun l => l.table.modal.map fun modal => l.error (.modalInBody modal l)

end Rule

/-- What formulas are checked against. -/
structure Checker where
  /-- The known schemas; without any, schemas are not checked. -/
  theories : Option Theories := none
  /-- The theory of tables without a service. -/
  theory : Option String := none
  /-- The modals that heads may use. -/
  modals : List String := ["execute"]

namespace Checker

/-- The faults of a rule. -/
def ruleErrors (c : Checker) (r : Rule) : List PolicyError :=
  r.headErrors ++ r.bodyErrors ++ r.schemaErrors c.theories c.theory ++
    r.theoryErrors (fun _ => false) ++ r.modalErrors c.modals

/-- The faults of a formula. -/
def formulaErrors (c : Checker) : Formula → List PolicyError
  | .literal l => l.factErrors c.theories c.theory
  | .rule r => c.ruleErrors r

end Checker

end DatalogPolicy

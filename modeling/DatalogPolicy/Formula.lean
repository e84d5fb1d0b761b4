import DatalogPolicy.Rule

/-!
# Formulas

A sentence of a policy is a literal or a rule. Facts are the rows of tables,
and events are changes of a policy.
-/

namespace DatalogPolicy

/-- A sentence of a policy. -/
inductive Formula
  | literal (literal : Literal)
  | rule (rule : Rule)
deriving Repr

namespace Formula

instance : BEq Formula where
  beq
    | .literal a, .literal b => a == b
    | .rule a, .rule b => a == b
    | _, _ => false

instance : Hashable Formula where
  hash
    | .literal l => mixHash 0 (hash l)
    | .rule r => mixHash 1 (hash r)

/-- The order of formulas: literals before rules. -/
def order : Formula → Formula → Ordering
  | .literal a, .literal b => compare a b
  | .rule a, .rule b => compare a b
  | .literal _, .rule _ => .lt
  | .rule _, .literal _ => .gt

instance : Ord Formula := ⟨order⟩

/-- Whether the formula is a literal without a negation. -/
def isAtom : Formula → Bool
  | .literal l => l.isAtom
  | .rule _ => false

/-- Whether the formula is a literal. -/
def isLiteral : Formula → Bool
  | .literal _ => true
  | .rule _ => false

/-- Whether the formula is a rule without negated heads. -/
def isRule : Formula → Bool
  | .literal _ => false
  | .rule r => r.heads.all (·.isAtom)

/-- Whether the formula is a rule with one head, which is not negated. -/
def isRegularRule : Formula → Bool
  | .literal _ => false
  | .rule r => r.heads.length = 1 ∧ r.heads.all (·.isAtom)

/-- Whether the formula is a rule with several heads, none of which is negated. -/
def isMultiRule : Formula → Bool
  | .literal _ => false
  | .rule r => r.heads.length ≠ 1 ∧ r.heads.all (·.isAtom)

/-- Whether the formula is an atom or a rule with one head. -/
def isDatalog (f : Formula) : Bool := f.isAtom || f.isRegularRule

/-- Whether the formula is an atom or a rule with any heads. -/
def isExtendedDatalog (f : Formula) : Bool := f.isAtom || f.isRule

/-- Whether the formula is an atom or a rule with one head over an update table. -/
def isUpdate : Formula → Bool
  | .literal l => l.isAtom && l.isUpdate
  | .rule r => (Formula.rule r).isRegularRule && r.isUpdate

/-- Whether the formula is an atom of the table of results, or a rule that first derives one. -/
def isResult : Formula → Bool
  | .literal l => l.isAtom && TableName.isResultText l.table.table
  | .rule r => (Formula.rule r).isRule && TableName.isResultText r.head.table.table

/-- The literal, or the first head of the rule. -/
def head : Formula → Literal
  | .literal l => l
  | .rule r => r.head

/-- The table of the head. -/
def tableName (theory : Option String) (f : Formula) : String := f.head.tableName theory

/-- The written form of a formula. -/
def text : Formula → String
  | .literal l => l.text
  | .rule r => r.text

/-- The written form of a formula with each body literal on a line of its own. -/
def prettyText : Formula → String
  | .literal l => l.text
  | .rule r => r.prettyText

/-- The written form of a policy. -/
def joinTexts (formulas : List Formula) : String :=
  String.intercalate " " (formulas.map text)

end Formula

/-- A row of a table. -/
structure Fact where
  table : String
  values : List Value
deriving DecidableEq, Hashable, Repr

namespace Fact

/-- The order of facts: by table, then by values. -/
instance : Ord Fact := ⟨compareLex (compareOn table) (compareOn values)⟩

/-- The literal that states a fact. -/
def toLiteral (f : Fact) : Literal := Literal.ofValues f.table f.values

/-- The written form of a fact. -/
def text (f : Fact) : String := f.toLiteral.text

end Fact

/-- The insertion of a formula into a policy or its deletion, with the rules that support it. -/
structure Event where
  formula : Formula
  insert : Bool
  target : Option String := none
  proofs : List Rule := []
deriving Repr

namespace Event

/-- Events are equal wherever they are aimed. -/
instance : BEq Event :=
  ⟨fun a b => a.formula == b.formula && a.proofs == b.proofs && a.insert == b.insert⟩

/-- The table of the formula. -/
def tableName (e : Event) : String := e.formula.tableName none

/-- The written form of an event. -/
def text (e : Event) : String :=
  let change := (if e.insert then "insert[" else "delete[") ++ e.formula.text ++ "]"
  match e.target with
  | some target => change ++ " for " ++ target
  | none => change

/-- The written form of an event with its support. -/
def longText (e : Event) : String :=
  e.text ++ " with proofs [" ++ String.intercalate ", " (e.proofs.map (·.text)) ++ "]"

end Event

end DatalogPolicy

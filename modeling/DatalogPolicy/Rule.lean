import DatalogPolicy.Literal

/-!
# Rules

A rule derives its heads, of which there is at least one, from its body. The
order in which heads or body literals are written takes no part in comparisons.
-/

namespace DatalogPolicy

/-- A rule with at least one head. -/
structure Rule where
  heads : List Literal
  body : List Literal
  location : Option Position := none
  notes : Annotations := {}
  heads_ne : heads ≠ []
deriving Repr

/-- What a rule says: its heads and its body, each in increasing order. -/
structure Rule.Content where
  heads : List Literal.Content
  body : List Literal.Content
deriving DecidableEq, Hashable, Repr

/-- The order of contents: by the number of heads, the length of the body, the heads, the body. -/
instance : Ord Rule.Content :=
  ⟨compareLex (compareOn (·.heads.length)) <| compareLex (compareOn (·.body.length)) <|
    compareLex (compareOn (·.heads)) (compareOn (·.body))⟩

namespace Rule

/-- The rule with the given heads and body; there is none without heads. -/
def ofHeads? (heads body : List Literal) : Option Rule :=
  if h : heads ≠ [] then some { heads, body, heads_ne := h } else none

/-- What a rule says. -/
def content (r : Rule) : Content :=
  ⟨OrderedList.sort compare (r.heads.map (·.content)),
    OrderedList.sort compare (r.body.map (·.content))⟩

instance : BEq Rule := ⟨fun a b => a.content == b.content⟩

instance : Hashable Rule := ⟨fun r => hash r.content⟩

instance : Ord Rule := ⟨compareOn content⟩

/-- The first head. -/
def head (r : Rule) : Literal := r.heads.head r.heads_ne

/-- The heads followed by the body. -/
def literals (r : Rule) : List Literal := r.heads ++ r.body

/-- The rule with every head changed. -/
def mapHeads (change : Literal → Literal) (r : Rule) : Rule where
  heads := r.heads.map change
  body := r.body
  location := r.location
  notes := r.notes
  heads_ne := by simpa using r.heads_ne

/-- The table of the first head. -/
def tableName (theory : Option String) (r : Rule) : String := r.head.tableName theory

/-- The service of the first head. -/
def theoryName (r : Rule) : Option String := r.head.theoryName

/-- The tables of some literals in increasing order. -/
def tablesOf (theory : Option String) (literals : List Literal) : List String :=
  OrderedList.ofTexts (literals.map (·.tableName theory))

/-- The tables of the rule. -/
def tableNames (theory : Option String) (r : Rule) : List String := tablesOf theory r.literals

/-- The tables of the body. -/
def bodyTableNames (theory : Option String) (r : Rule) : List String := tablesOf theory r.body

/-- The variables of some literals in increasing order, each with the place of its last
occurrence. -/
def variablesOf (literals : List Literal) : List (Located String) :=
  OrderedList.ofList (compareOn (·.item)) (literals.flatMap (·.vars))

/-- The variables of the rule. -/
def vars (r : Rule) : List (Located String) := variablesOf r.literals

/-- The names of the variables of the rule. -/
def variableNames (r : Rule) : List String :=
  OrderedList.ofTexts (r.literals.flatMap (·.variableNames))

/-- The body with its variables replaced. -/
def plugBody (binding : Binding) (r : Rule) : List Literal := r.body.map (·.plug binding)

/-- The heads with their variables replaced. -/
def plugHeads (binding : Binding) (r : Rule) : List Literal := r.heads.map (·.plug binding)

/-- A rule of its own, without place and annotations, with the variables replaced. -/
def plug (binding : Binding) (r : Rule) : Rule where
  heads := r.plugHeads binding
  body := r.plugBody binding
  heads_ne := by simpa [plugHeads] using r.heads_ne

/-- The rule that derives the updates of the other sign. -/
def invertUpdate (r : Rule) : Rule := r.mapHeads Literal.invertUpdate

/-- The rule that derives the updated tables. -/
def dropUpdate (r : Rule) : Rule := r.mapHeads Literal.dropUpdate

/-- The rule that derives insertions or deletions. -/
def makeUpdate (insert : Bool) (r : Rule) : Rule := r.mapHeads (Literal.makeUpdate insert)

/-- The rule without the services of its heads. -/
def dropTheory (r : Rule) : Rule := r.mapHeads Literal.dropTheory

/-- Whether the first head is over an update table. -/
def isUpdate (r : Rule) : Bool := r.head.isUpdate

/-- The written forms of literals with a text between them. -/
def joinTexts (between : String) (literals : List Literal) : String :=
  String.intercalate between (literals.map (·.text))

/-- The written form of a rule. Without a body, its heads are written as facts. -/
def text (r : Rule) : String :=
  if r.body.isEmpty then joinTexts " " r.heads
  else joinTexts ", " r.heads ++ " :- " ++ joinTexts ", " r.body

/-- The written form of a rule with each body literal on a line of its own. -/
def prettyText (r : Rule) : String :=
  if r.body.isEmpty then r.text
  else joinTexts ", " r.heads ++ " :- \n    " ++ joinTexts ",\n    " r.body

end Rule

end DatalogPolicy

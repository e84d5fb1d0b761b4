import DatalogPolicy.Token

/-!
# Surface trees

What the grammar makes of a sequence of lexemes, with every lexeme kept. Column
references and names of services are not looked at yet.
-/

namespace DatalogPolicy.Surface

/-- The name of a table: identifiers between colons and an optional sign. -/
structure Relation where
  first : Lexeme
  more : List Lexeme := []
  sign : Option Lexeme := none
deriving DecidableEq, Repr

namespace Relation

/-- The identifiers of a name. -/
def pieces (r : Relation) : List Lexeme := r.first :: r.more

/-- The name with one more identifier. -/
def push (r : Relation) (piece : Lexeme) : Relation := { r with more := r.more ++ [piece] }

/-- The text of a name, without the blanks that may stand around its colons. -/
def text (r : Relation) : String :=
  String.intercalate ":" (r.pieces.map (·.text)) ++ r.sign.elim "" (·.text)

/-- The last lexeme of a name. -/
def last (r : Relation) : Lexeme := r.sign.getD (r.more.getLastD r.first)

/-- The span of a name. -/
def span (r : Relation) : Span := ⟨r.first.span.start, r.last.span.stop⟩

end Relation

/-- An argument: a term alone, or a term for a column that is named or numbered. -/
inductive Param
  | positional (term : Lexeme)
  | named (column term : Lexeme)
deriving DecidableEq, Repr

namespace Param

/-- The term of an argument. -/
def term : Param → Lexeme
  | positional term => term
  | named _ term => term

/-- Whether an argument names or numbers its column. -/
def isNamed : Param → Bool
  | positional _ => false
  | named _ _ => true

/-- The text of an argument without blanks. -/
def text : Param → String
  | positional term => term.text
  | named column term => column.text ++ "=" ++ term.text

end Param

/-- A table with its arguments; the parentheses may be left out where there are none. -/
structure Atom where
  relation : Relation
  params : List Param := []
  closing : Option Lexeme := none
deriving DecidableEq, Repr

namespace Atom

/-- The span of an atom, from its name to its closing parenthesis. -/
def span (a : Atom) : Span :=
  ⟨a.relation.span.start, (a.closing.getD a.relation.last).span.stop⟩

/-- The text of an atom without blanks. -/
def text (a : Atom) : String :=
  a.relation.text ++ "(" ++ String.intercalate "," (a.params.map Param.text) ++ ")"

/-- The variables among the terms of an atom. -/
def vars (a : Atom) : List String :=
  (a.params.filter fun p => p.term.terminal = .identifier).map (·.term.text)

end Atom

/-- The modal of an atom and the bracket that closes it. -/
structure Modal where
  name : Lexeme
  closing : Lexeme
deriving DecidableEq, Repr

/-- An atom with an optional modal and an optional negation. -/
structure Literal where
  negation : Option Lexeme := none
  modal : Option Modal := none
  atom : Atom
deriving DecidableEq, Repr

namespace Literal

/-- The first lexeme of a literal. -/
def first (l : Literal) : Lexeme :=
  (l.negation.or (l.modal.map (·.name))).getD l.atom.relation.first

/-- The span of a literal. -/
def span (l : Literal) : Span :=
  ⟨l.first.span.start, l.modal.elim l.atom.span.stop (·.closing.span.stop)⟩

end Literal

/-- A literal alone, or heads and a body of at least one literal each. -/
inductive Statement
  | fact (literal : Literal)
  | rule (head : Literal) (heads : List Literal) (first : Literal) (body : List Literal)
deriving DecidableEq, Repr

namespace Statement

/-- The literals of a statement, heads first. -/
def literals : Statement → List Literal
  | fact l => [l]
  | rule head heads first body => head :: heads ++ first :: body

/-- The span of a statement without its terminator. -/
def span : Statement → Span
  | fact l => l.span
  | rule head _ first body => ⟨head.span.start, (body.getLastD first).span.stop⟩

end Statement

end DatalogPolicy.Surface

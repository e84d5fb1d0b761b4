import DatalogPolicy.Surface.Tree

/-!
# From lexemes to surface trees

No part of the grammar nests, so a parser needs no stack: its state is the part
of the current statement that has been read. `State.next` reads one lexeme and
may complete a statement. Where it fails, `State.expected` lists the terminals
that could have stood there instead.

## Implementation notes

A state that has read a whole literal can either go on with it or leave it. On a
terminal that may follow some literal, though not the present one, the literal
counts as left, and only what may follow it is listed.
-/

namespace DatalogPolicy.Surface

/-- The literals of a statement before the one that is being read. -/
inductive Before
  | nothing
  | heads (head : Literal) (heads : List Literal)
  | implies (head : Literal) (heads : List Literal)
  | body (head : Literal) (heads : List Literal) (first : Literal) (body : List Literal)
deriving DecidableEq, Repr

/-- The negation and the modal before an atom, the bracket of the modal being open. -/
structure Lead where
  negation : Option Lexeme := none
  modal : Option Lexeme := none
deriving DecidableEq, Repr

/-- How far an argument has been read. -/
inductive ParamState
  | first
  | next
  | reference (lexeme : Lexeme)
  | value (column : Lexeme)
  | whole (param : Param)
deriving DecidableEq, Repr

/-- How far a literal has been read. -/
inductive Reading
  | opening
  | negated (negation : Lexeme)
  | bracket (lead : Lead)
  | name (lead : Lead) (first : Lexeme)
  | colon (lead : Lead) (relation : Relation)
  | pieces (lead : Lead) (relation : Relation)
  | signed (lead : Lead) (relation : Relation)
  | params (lead : Lead) (relation : Relation) (read : List Param) (last : ParamState)
  | closed (lead : Lead) (atom : Atom)
  | whole (literal : Literal)
deriving DecidableEq, Repr

namespace ParamState

/-- The argument that ends where it has been read to. -/
def param? : ParamState → Option Param
  | reference lexeme => some (.positional lexeme)
  | whole param => some param
  | _ => none

/-- The argument after one more lexeme. -/
def next? (x : Lexeme) : ParamState → Option ParamState
  | first | next =>
      match x.terminal with
      | .identifier | .integer => some (reference x)
      | .float | .string => some (whole (.positional x))
      | _ => none
  | reference lexeme =>
      match x.terminal with
      | .equals => some (value lexeme)
      | _ => none
  | value column =>
      match x.terminal with
      | .identifier | .integer | .float | .string => some (whole (.named column x))
      | _ => none
  | whole _ => none

/-- The terminals that go on with an argument list. -/
def continuations : ParamState → List Terminal
  | first => [.identifier, .integer, .float, .string, .closeParen]
  | next | value _ => [.identifier, .integer, .float, .string]
  | reference _ => [.comma, .closeParen, .equals]
  | whole _ => [.comma, .closeParen]

end ParamState

namespace Reading

/-- The literal that ends with an atom, unless a bracket is open. -/
def endAtom? (lead : Lead) (atom : Atom) : Option Literal :=
  match lead.modal with
  | none => some ⟨lead.negation, none, atom⟩
  | some _ => none

/-- The atom that ends where it has been read to. -/
def atom? : Reading → Option (Lead × Atom)
  | name lead first => some (lead, { relation := { first } })
  | pieces lead relation => some (lead, { relation })
  | signed lead relation => some (lead, { relation })
  | closed lead atom => some (lead, atom)
  | _ => none

/-- The literal that ends where it has been read to. -/
def literal? : Reading → Option Literal
  | whole literal => some literal
  | r => r.atom?.bind fun (lead, atom) => endAtom? lead atom

/-- The reading after a name and one more lexeme. -/
def afterName? (lead : Lead) (relation : Relation) (x : Lexeme) : Option Reading :=
  match x.terminal with
  | .colon => some (colon lead relation)
  | .plus | .minus => some (signed lead { relation with sign := some x })
  | .openParen => some (params lead relation [] .first)
  | _ => none

/-- The reading after a bracket that closes a modal. -/
def closeBracket? (lead : Lead) (atom : Atom) (x : Lexeme) : Option Reading :=
  match lead.modal, x.terminal with
  | some modal, .closeBracket => some (whole ⟨lead.negation, some ⟨modal, x⟩, atom⟩)
  | _, _ => none

/-- The reading after one more lexeme of an argument list. -/
def nextParam? (lead : Lead) (relation : Relation) (read : List Param) (last : ParamState)
    (x : Lexeme) : Option Reading :=
  match x.terminal, last, last.param? with
  | .closeParen, .first, _ => some (closed lead ⟨relation, [], some x⟩)
  | .closeParen, _, some param => some (closed lead ⟨relation, read ++ [param], some x⟩)
  | .comma, _, some param => some (params lead relation (read ++ [param]) .next)
  | _, _, _ => (last.next? x).map (params lead relation read)

/-- The reading after one more lexeme of the same literal. -/
def next? (x : Lexeme) : Reading → Option Reading
  | opening =>
      match x.terminal with
      | .negation => some (negated x)
      | .identifier => some (name {} x)
      | _ => none
  | negated negation =>
      match x.terminal with
      | .identifier => some (name { negation := some negation } x)
      | _ => none
  | bracket lead =>
      match x.terminal with
      | .identifier => some (name lead x)
      | _ => none
  | name lead first =>
      match lead.modal, x.terminal with
      | none, .openBracket => some (bracket { lead with modal := some first })
      | _, _ => (afterName? lead { first } x).or (closeBracket? lead { relation := { first } } x)
  | colon lead relation =>
      match x.terminal with
      | .identifier => some (pieces lead (relation.push x))
      | _ => none
  | pieces lead relation =>
      (afterName? lead relation x).or (closeBracket? lead { relation } x)
  | signed lead relation =>
      match x.terminal with
      | .openParen => some (params lead relation [] .first)
      | _ => closeBracket? lead { relation } x
  | params lead relation read last => nextParam? lead relation read last x
  | closed lead atom => closeBracket? lead atom x
  | whole _ => none

/-- The terminals that go on with a literal, apart from the bracket that closes a modal. -/
def continuations : Reading → List Terminal
  | opening => [.identifier, .negation]
  | negated _ | bracket _ | colon _ _ => [.identifier]
  | name lead _ =>
      [.colon, .openParen, .plus, .minus] ++
        if lead.modal.isNone then [.openBracket] else []
  | pieces _ _ => [.colon, .openParen, .plus, .minus]
  | signed _ _ => [.openParen]
  | params _ _ _ last => last.continuations
  | closed _ _ | whole _ => []

/-- The terminals that may follow a literal in some statement. -/
def followsLiteral : List Terminal :=
  [.identifier, .negation, .implies, .comma, .semicolon, .period]

/-- Whether a terminal, or the end of the text, can only stand after the atom that has been read.
-/
def isLeftBy (found : Option Terminal) : Reading → Bool
  | name lead _ => lead.modal.isNone && found.all (· ∈ followsLiteral)
  | pieces _ _ | signed _ _ =>
      found.all fun t => t ∈ followsLiteral || t = .closeBracket
  | _ => false

end Reading

/-- The part of a statement that has been read. -/
structure State where
  before : Before := .nothing
  reading : Reading := .opening
deriving DecidableEq, Repr

/-- Why a sequence of lexemes is no policy. -/
structure Failure where
  /-- The first lexeme that cannot stand where it does; there is none at the end of the text. -/
  found : Option Lexeme
  /-- The terminals that could stand there. -/
  expected : List Terminal
deriving DecidableEq, Repr

namespace State

/-- The statement that ends with a literal. -/
def statement? (literal : Literal) : Before → Option Statement
  | .nothing => some (.fact literal)
  | .heads _ _ => none
  | .implies head heads => some (.rule head heads literal [])
  | .body head heads first body => some (.rule head heads first (body ++ [literal]))

/-- The state after a literal and a lexeme that goes on with its statement. -/
def separate? (literal : Literal) (terminal : Terminal) : Before → Option Before
  | .nothing =>
      match terminal with
      | .comma => some (.heads literal [])
      | .implies => some (.implies literal [])
      | _ => none
  | .heads head heads =>
      match terminal with
      | .comma => some (.heads head (heads ++ [literal]))
      | .implies => some (.implies head (heads ++ [literal]))
      | _ => none
  | .implies head heads =>
      match terminal with
      | .comma => some (.body head heads literal [])
      | _ => none
  | .body head heads first body =>
      match terminal with
      | .comma => some (.body head heads first (body ++ [literal]))
      | _ => none

/-- The state after a statement and one more lexeme, which terminates it or begins another. -/
def restart? (x : Lexeme) : Option State :=
  match x.terminal with
  | .semicolon | .period => some {}
  | _ => (Reading.opening.next? x).map ({ reading := · })

/-- The statement that a lexeme completes, if any, and the state after the lexeme. -/
def next? (s : State) (x : Lexeme) : Option (Option Statement × State) :=
  match s.reading.next? x with
  | some reading => some (none, { s with reading })
  | none =>
      s.reading.literal?.bind fun literal =>
        match separate? literal x.terminal s.before with
        | some before => some (none, { before })
        | none =>
            (statement? literal s.before).bind fun statement =>
              (restart? x).map (some statement, ·)

/-- The statement at the end of a text, if the text may end there. -/
def finish? (s : State) : Option (Option Statement) :=
  match s.before, s.reading with
  | .nothing, .opening => some none
  | before, reading => (reading.literal?.bind (statement? · before)).map some

/-- The terminals that may follow the literal that is being read. -/
def followers (s : State) : List Terminal :=
  match s.reading.atom? with
  | some ({ modal := some _, .. }, _) => [.closeBracket]
  | _ =>
      match s.reading.literal?, s.before with
      | none, _ => []
      | some _, .nothing => [.identifier, .negation, .implies, .comma, .semicolon, .period]
      | some _, .heads _ _ => [.implies, .comma]
      | some _, _ => [.identifier, .negation, .comma, .semicolon, .period]

/-- The terminals that could stand in place of the one that was found, or of the end. -/
def expected (s : State) (found : Option Terminal) : List Terminal :=
  Terminal.all.filter fun t =>
    t ∈ s.followers || !s.reading.isLeftBy found && t ∈ s.reading.continuations

/-- The statements in a sequence of lexemes after those that led to a state. -/
def run (s : State) : List Lexeme → Except Failure (List Statement)
  | [] =>
      match s.finish? with
      | some statement => .ok statement.toList
      | none => .error ⟨none, s.expected none⟩
  | x :: rest =>
      match s.next? x with
      | some (statement, s) => (s.run rest).map (statement.toList ++ ·)
      | none => .error ⟨some x, s.expected (some x.terminal)⟩

end State

/-- The statements of a policy. -/
def parse (lexemes : List Lexeme) : Except Failure (List Statement) := State.run {} lexemes

end DatalogPolicy.Surface

import DatalogPolicy.Surface.Tree

/-!
# The grammar of policies

The productions of the grammar, as relations between sequences of lexemes and the
trees that are made of them. They say which policies there are without saying how
one is read.
-/

namespace DatalogPolicy.Surface.Grammar

/-- A lexeme alone, with one of some terminals. -/
inductive OneOf (terminals : List Terminal) : List Lexeme → Lexeme → Prop
  | intro {x} (h : x.terminal ∈ terminals) : OneOf terminals [x] x

/-- Identifiers with colons between them. -/
inductive Relation : List Lexeme → Surface.Relation → Prop
  | first {xs x} (h : OneOf [.identifier] xs x) : Relation xs { first := x }
  | piece {xs ys zs r colon x} (hrelation : Relation xs r) (hcolon : OneOf [.colon] ys colon)
      (hpiece : OneOf [.identifier] zs x) : Relation (xs ++ ys ++ zs) (r.push x)

/-- A sign or nothing. -/
inductive Sign : List Lexeme → Option Lexeme → Prop
  | none : Sign [] none
  | some {xs x} (h : OneOf [.plus, .minus] xs x) : Sign xs (some x)

/-- A variable or a constant. -/
abbrev Term : List Lexeme → Lexeme → Prop := OneOf [.identifier, .integer, .float, .string]

/-- The name or the number of a column. -/
abbrev ColumnReference : List Lexeme → Lexeme → Prop := OneOf [.identifier, .integer]

/-- A term alone, or a term for a column. -/
inductive Param : List Lexeme → Surface.Param → Prop
  | positional {xs t} (h : Term xs t) : Param xs (.positional t)
  | named {xs ys zs c e t} (hcolumn : ColumnReference xs c) (hequals : OneOf [.equals] ys e)
      (hterm : Term zs t) : Param (xs ++ ys ++ zs) (.named c t)

/-- Arguments, each behind a comma. -/
inductive MoreParams : List Lexeme → List Surface.Param → Prop
  | nil : MoreParams [] []
  | cons {xs ys zs c p ps} (hcomma : OneOf [.comma] xs c) (hparam : Param ys p)
      (hmore : MoreParams zs ps) : MoreParams (xs ++ ys ++ zs) (p :: ps)

/-- Arguments with commas between them, of which there may be none. -/
inductive Params : List Lexeme → List Surface.Param → Prop
  | nil : Params [] []
  | cons {xs ys p ps} (hparam : Param xs p) (hmore : MoreParams ys ps) : Params (xs ++ ys) (p :: ps)

/-- The name of a table with its sign. -/
inductive Name : List Lexeme → Surface.Relation → Prop
  | intro {xs ys r s} (hrelation : Relation xs r) (hsign : Sign ys s) :
      Name (xs ++ ys) { r with sign := s }

/-- A table, with arguments between parentheses or without any. -/
inductive Atom : List Lexeme → Surface.Atom → Prop
  | bare {xs r} (hname : Name xs r) : Atom xs { relation := r }
  | applied {xs ys zs ws r o ps c} (hname : Name xs r) (hopen : OneOf [.openParen] ys o)
      (hparams : Params zs ps) (hclose : OneOf [.closeParen] ws c) :
      Atom (xs ++ ys ++ zs ++ ws) { relation := r, params := ps, closing := some c }

/-- An atom, between the brackets of a modal or without one. -/
inductive ModalAtom : List Lexeme → Option Modal → Surface.Atom → Prop
  | modal {xs ys zs ws m o a c} (hname : OneOf [.identifier] xs m)
      (hopen : OneOf [.openBracket] ys o) (hatom : Atom zs a)
      (hclose : OneOf [.closeBracket] ws c) :
      ModalAtom (xs ++ ys ++ zs ++ ws) (some ⟨m, c⟩) a
  | plain {xs a} (h : Atom xs a) : ModalAtom xs none a

/-- An atom that may have a modal, negated or not. -/
inductive Literal : List Lexeme → Surface.Literal → Prop
  | negated {xs ys n m a} (hnegation : OneOf [.negation] xs n) (hatom : ModalAtom ys m a) :
      Literal (xs ++ ys) ⟨some n, m, a⟩
  | positive {xs m a} (hatom : ModalAtom xs m a) : Literal xs ⟨none, m, a⟩

/-- Literals with commas between them. -/
inductive Literals : List Lexeme → List Surface.Literal → Prop
  | one {xs l} (h : Literal xs l) : Literals xs [l]
  | more {xs ys zs ls c l} (hliterals : Literals xs ls) (hcomma : OneOf [.comma] ys c)
      (hliteral : Literal zs l) : Literals (xs ++ ys ++ zs) (ls ++ [l])

/-- A literal, or heads and a body on the two sides of an arrow. -/
inductive Formula : List Lexeme → Surface.Statement → Prop
  | fact {xs l} (h : Literal xs l) : Formula xs (.fact l)
  | rule {xs ys zs head heads i first body} (hheads : Literals xs (head :: heads))
      (himplies : OneOf [.implies] ys i) (hbody : Literals zs (first :: body)) :
      Formula (xs ++ ys ++ zs) (.rule head heads first body)

/-- A formula with a terminator or without one. -/
inductive Statement : List Lexeme → Surface.Statement → Prop
  | unterminated {xs s} (h : Formula xs s) : Statement xs s
  | terminated {xs ys s t} (h : Formula xs s) (hend : OneOf [.semicolon, .period] ys t) :
      Statement (xs ++ ys) s

/-- Statements one after the other. -/
inductive Program : List Lexeme → List Surface.Statement → Prop
  | nil : Program [] []
  | cons {xs ys s ss} (h : Statement xs s) (hrest : Program ys ss) : Program (xs ++ ys) (s :: ss)

/-- Whether a token is one that the grammar sees. -/
def sees (t : Token) : Bool := t.kind ≠ .comment && t.kind ≠ .ending

/-- The token of a lexeme. -/
def token (x : Lexeme) : Token := ⟨.terminal x.terminal, x.span, x.text⟩

/-- Tokens make up a policy when those are left that the grammar sees. -/
def Derives (tokens : List Token) (program : List Surface.Statement) : Prop :=
  ∃ xs : List Lexeme, tokens.filter sees = xs.map token ∧ Program xs program

end DatalogPolicy.Surface.Grammar

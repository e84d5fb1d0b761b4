import DatalogPolicy.Text.Position

/-!
# Tokens

The terminals of the policy grammar, and the tokens into which a source text
is divided.
-/

namespace DatalogPolicy

/-- A terminal of the policy grammar. -/
inductive Terminal
  | identifier
  | integer
  | float
  | string
  | negation
  | implies
  | colon
  | comma
  | openParen
  | closeParen
  | openBracket
  | closeBracket
  | equals
  | plus
  | minus
  | semicolon
  | period
deriving DecidableEq, Repr

namespace Terminal

/-- All terminals, in the order in which messages list them. -/
def all : List Terminal :=
  [identifier, integer, float, string, negation, implies, colon, comma, openParen, closeParen,
    openBracket, closeBracket, equals, plus, minus, semicolon, period]

/-- What messages call a terminal. -/
def name : Terminal → String
  | identifier => "id"
  | integer => "int"
  | float => "float"
  | string => "string"
  | negation => "not"
  | implies => ":-"
  | colon => ":"
  | comma => ","
  | openParen => "("
  | closeParen => ")"
  | openBracket => "["
  | closeBracket => "]"
  | equals => "="
  | plus => "+"
  | minus => "-"
  | semicolon => ";"
  | period => "."

end Terminal

/-- A terminal as it stands in a source. -/
structure Lexeme where
  terminal : Terminal
  span : Span
  text : String
deriving DecidableEq, Repr

namespace Token

/-- What a token is: a terminal, a comment, text that is no token, or the end of the source. -/
inductive Kind
  | terminal (terminal : Terminal)
  | comment
  | unknown
  | ending
deriving DecidableEq, Repr

end Token

/-- A piece of a source text. -/
structure Token where
  kind : Token.Kind
  span : Span
  text : String
deriving DecidableEq, Repr

/-- The lexeme of a token that the grammar sees. -/
def Token.lexeme? (t : Token) : Option Lexeme :=
  match t.kind with
  | .terminal terminal => some ⟨terminal, t.span, t.text⟩
  | _ => none

end DatalogPolicy

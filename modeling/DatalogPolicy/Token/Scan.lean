import DatalogPolicy.Text.Pattern
import DatalogPolicy.Token

/-!
# From texts to tokens

At each place the class with the longest match supplies the next token, the
earlier class winning between equally long matches. A word for negation is an
identifier where a point follows it directly. Blanks are skipped. Where no class
matches there is an unknown token.
-/

namespace DatalogPolicy

/-- A class of text: a terminal, a comment, or blanks between tokens. -/
inductive TextClass
  | terminal (terminal : Terminal)
  | comment
  | blank
deriving DecidableEq, Repr

namespace TextClass

open Pattern

/-- A letter or an underscore. -/
def isNameStart (c : Char) : Bool := c.isAlpha || c = '_'

/-- A character of an identifier other than the point. -/
def isNamePart (c : Char) : Bool := c.isAlphanum || c = '_'

/-- Segments of name characters with points between them. -/
def identifierPattern : Pattern :=
  sequence (sequence (one isNameStart) (many (one isNamePart)))
    (many (sequence (char '.') (Pattern.repeated isNamePart)))

/-- Digits with an optional minus. -/
def integerPattern : Pattern := sequence (optional (char '-')) (Pattern.repeated Char.isDigit)

/-- A power of ten. -/
def exponentPattern : Pattern :=
  sequence (one fun c => c = 'e' || c = 'E')
    (sequence (optional (one fun c => c = '-' || c = '+')) (Pattern.repeated Char.isDigit))

/-- An integer with a fraction, a power of ten, or both. -/
def floatPattern : Pattern :=
  sequence integerPattern
    (either
      (sequence (sequence (char '.') (Pattern.repeated Char.isDigit)) (optional exponentPattern))
      exponentPattern)

/-- A character that stands for itself between the given quotes. -/
def isPlain (quote c : Char) : Bool := c ≠ quote && c ≠ '\\'

/-- Plain characters, and backslashes with the character after them, between quotes. -/
def quotedPattern (quote : Char) : Pattern :=
  sequence (char quote)
    (sequence
      (many (either (one (isPlain quote)) (sequence (char '\\') (one (· ≠ '\n')))))
      (char quote))

/-- The rest of a line after some characters. -/
def linePattern (opening : List Char) : Pattern :=
  sequence (exactly opening) (many (one (· ≠ '\n')))

/-- A character between tokens. -/
def isBlank (c : Char) : Bool :=
  c = ' ' || c = '\t' || c = '\r' || c = '\n' || c = '\x0c'

/-- The pattern of each class. Negation stands before the identifiers because its words match
both, and are negations unless a point follows them. -/
def all : List (TextClass × Pattern) := [
  (.terminal .negation,
    either (exactly ['n', 'o', 't']) (either (exactly ['N', 'O', 'T']) (char '!'))),
  (.terminal .identifier, identifierPattern),
  (.terminal .integer, integerPattern),
  (.terminal .float, floatPattern),
  (.terminal .string, either (quotedPattern '"') (quotedPattern '\x27')),
  (.terminal .implies, exactly [':', '-']),
  (.terminal .colon, char ':'),
  (.terminal .comma, char ','),
  (.terminal .openParen, char '('),
  (.terminal .closeParen, char ')'),
  (.terminal .openBracket, char '['),
  (.terminal .closeBracket, char ']'),
  (.terminal .equals, char '='),
  (.terminal .plus, char '+'),
  (.terminal .minus, char '-'),
  (.terminal .semicolon, char ';'),
  (.terminal .period, char '.'),
  (.comment, either (linePattern ['/', '/']) (linePattern ['#'])),
  (.blank, Pattern.repeated isBlank)]

/-- The better of two matches: the longer one, and the earlier of equally long ones. -/
def better (a b : TextClass × Nat) : TextClass × Nat := if a.2 < b.2 then b else a

/-- The best match at the front of the text `c :: rest`, with the number of its characters after
`c`. -/
def longest? (c : Char) (rest : List Char) : Option (TextClass × Nat) :=
  all.foldl
    (fun best entry =>
      match ((entry.2.derivative c).longest? rest).map (entry.1, ·), best with
      | none, best => best
      | some found, none => some found
      | some found, some best => some (better best found))
    none

/-- The class of the match `found` at the front of the text `c :: rest`. A point may stand inside
an identifier, so a word for negation with a point directly after it is an identifier. -/
def classify (c : Char) (rest : List Char) (found : TextClass × Nat) : TextClass :=
  if found.1 = .terminal .negation ∧ isNameStart c ∧ rest[found.2]? = some '.' then
    .terminal .identifier
  else found.1

/-- The match that supplies the token at the front of the text `c :: rest`, with the number of its
characters after `c`. -/
def match? (c : Char) (rest : List Char) : Option (TextClass × Nat) :=
  (longest? c rest).map fun found => (classify c rest found, found.2)

end TextClass

namespace Token

/-- The number of characters at the front of a text that could stand before the closing quote:
plain characters, and backslashes with the character after them. -/
def quotedLength (quote : Char) : List Char → Nat
  | [] => 0
  | '\\' :: c :: rest => if c = '\n' then 0 else quotedLength quote rest + 2
  | c :: rest => if TextClass.isPlain quote c then quotedLength quote rest + 1 else 0

/-- The number of characters after the first in an unknown token. It is a single character, or
a quote with all that could stand in the text that it opens. -/
def unknownLength (c : Char) (rest : List Char) : Nat :=
  if c = '"' ∨ c = '\x27' then quotedLength c rest else 0

/-- The tokens of a text whose first character stands at `offset`. -/
def scanFrom (offset : Nat) : List Char → List Token
  | [] => [⟨.ending, ⟨offset, offset⟩, ""⟩]
  | c :: rest =>
      let found := TextClass.match? c rest
      let length := found.elim (unknownLength c rest) (·.2)
      let text := c :: rest.take length
      let stop := offset + Text.byteLength text
      let tokens := scanFrom stop (rest.drop length)
      let token := fun kind => (⟨kind, ⟨offset, stop⟩, String.ofList text⟩ : Token)
      match found with
      | some (.terminal t, _) => token (.terminal t) :: tokens
      | some (.comment, _) => token .comment :: tokens
      | some (.blank, _) => tokens
      | none => token .unknown :: tokens
termination_by cs => cs.length
decreasing_by simp only [List.length_drop, List.length_cons]; omega

/-- The tokens of a source text, the last of which is its end. -/
def scan (cs : List Char) : List Token := scanFrom 0 cs

end Token

end DatalogPolicy

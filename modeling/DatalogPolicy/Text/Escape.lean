/-!
# Escapes in quoted texts

A backslash in a quoted text stands with the character after it for one
character.
-/

namespace DatalogPolicy

/-- Why a quoted text has no value. -/
inductive EscapeFault
  | unknown (escaped : Char)
  | unfinished
deriving DecidableEq, Repr

/-- The wording of a fault. -/
def EscapeFault.message : EscapeFault → String
  | unknown c => "unknown escape sequence \\" ++ String.singleton c
  | unfinished => "string literal ends with a lone backslash"

namespace Text

/-- Whether a character is one of the two quotes. -/
def isQuote (c : Char) : Bool := c = '"' || c = '\x27'

/-- The characters between two equal quotes; other texts are left as they are. -/
def unquote (cs : List Char) : List Char :=
  match cs with
  | opening :: rest =>
      if isQuote opening && rest.getLast? = some opening then rest.dropLast else cs
  | [] => []

/-- The character that a backslash and another character stand for. -/
def escaped? : Char → Option Char
  | '\\' => some '\\'
  | '"' => some '"'
  | '\x27' => some '\x27'
  | 'n' => some '\n'
  | 't' => some '\t'
  | 'r' => some '\r'
  | _ => none

/-- The characters that a text with escapes stands for. -/
def unescape : List Char → Except EscapeFault (List Char)
  | [] => .ok []
  | '\\' :: rest =>
      match rest with
      | [] => .error .unfinished
      | c :: rest =>
          match escaped? c with
          | some d => (unescape rest).map (d :: ·)
          | none => .error (.unknown c)
  | c :: rest => (unescape rest).map (c :: ·)

/-- The text that a quoted text with escapes stands for. -/
def quotedValue (text : String) : Except EscapeFault String :=
  (unescape (unquote text.toList)).map String.ofList

end Text

end DatalogPolicy

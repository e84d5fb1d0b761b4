import DatalogPolicy.Number.Layout

/-!
# JSON texts

A JSON value is written on one line, or with each item of an array and each
field of an object on a line of its own. Fields are written in the order in
which the value lists them.
-/

namespace DatalogPolicy

/-- A JSON value. -/
inductive Json
  | null
  | bool (value : Bool)
  | int (value : Int)
  | float (value : Binary64)
  | str (text : String)
  | array (items : List Json)
  | object (fields : List (String × Json))

namespace Json

/-- A hexadecimal digit. -/
def hexDigit (n : Nat) : Char := (Nat.toDigits 16 n).headD '0'

/-- The characters that stand for one character of a quoted text. -/
def escapeChar (c : Char) : List Char :=
  match c with
  | '"' => ['\\', '"']
  | '\\' => ['\\', '\\']
  | '\n' => ['\\', 'n']
  | '\t' => ['\\', 't']
  | '\r' => ['\\', 'r']
  | '\x08' => ['\\', 'b']
  | '\x0c' => ['\\', 'f']
  | c =>
      if c.toNat < 32 then
        ['\\', 'u', '0', '0', hexDigit (c.toNat / 16), hexDigit (c.toNat % 16)]
      else [c]

/-- A text between double quotes. -/
def quote (text : String) : String :=
  String.ofList ('"' :: (text.toList.flatMap escapeChar ++ ['"']))

/-- How the parts of arrays and objects are set apart. -/
inductive Layout
  | compact
  | indented
deriving DecidableEq, Repr

namespace Layout

/-- What stands before an item at a depth. -/
def lineBreak (layout : Layout) (depth : Nat) : String :=
  match layout with
  | .compact => ""
  | .indented => String.ofList ('\n' :: List.replicate (2 * depth) ' ')

/-- What stands between the name of a field and its value. -/
def colon : Layout → String
  | .compact => ":"
  | .indented => ": "

/-- Items at a depth between two brackets. No space is left between brackets without items. -/
def enclose (layout : Layout) (depth : Nat) (opening closing : String) (items : List String) :
    String :=
  if items.isEmpty then opening ++ closing
  else
    opening ++ layout.lineBreak (depth + 1) ++
      String.intercalate ("," ++ layout.lineBreak (depth + 1)) items ++
        layout.lineBreak depth ++ closing

end Layout

mutual

/-- The text of a value at a depth. -/
def textAt (layout : Layout) (depth : Nat) : Json → String
  | .null => "null"
  | .bool b => if b then "true" else "false"
  | .int i => toString i
  | .float x => x.text .json
  | .str s => quote s
  | .array items => layout.enclose depth "[" "]" (itemTexts layout (depth + 1) items)
  | .object fields => layout.enclose depth "\x7b" "\x7d" (fieldTexts layout (depth + 1) fields)

/-- The texts of the items of an array. -/
def itemTexts (layout : Layout) (depth : Nat) : List Json → List String
  | [] => []
  | item :: rest => textAt layout depth item :: itemTexts layout depth rest

/-- The texts of the fields of an object. -/
def fieldTexts (layout : Layout) (depth : Nat) : List (String × Json) → List String
  | [] => []
  | (name, value) :: rest =>
      (quote name ++ layout.colon ++ textAt layout depth value) :: fieldTexts layout depth rest

end

/-- The text of a value. -/
def text (layout : Layout) (value : Json) : String := value.textAt layout 0

end Json

end DatalogPolicy

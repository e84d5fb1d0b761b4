import DatalogPolicy.Number.Layout

/-!
# Constants

A constant of a policy is a text, an integer of 64 bits or a number of the
64-bit binary format. Numbers of either kind are compared by their value.
-/

namespace DatalogPolicy

/-- A constant. -/
inductive Value
  | str (text : String)
  | int (number : Int64)
  | float (number : Binary64)
deriving DecidableEq, Hashable, Repr

namespace Value

/-- The binary number nearest to a number. -/
def number? : Value → Option Binary64
  | .str _ => none
  | .int i => some (Binary64.ofInt i.toInt)
  | .float x => some x

/-- The place of a kind among the kinds. -/
def kindRank : Value → Nat
  | .float _ => 0
  | .int _ => 1
  | .str _ => 2

/-- The order of constants: numbers before texts, texts by their characters, integers among
themselves by value, other numbers by their nearest binary number and then by kind. -/
def order : Value → Value → Ordering
  | .str a, .str b => compare a b
  | .int a, .int b => compare a.toInt b.toInt
  | a, b =>
      match a.number?, b.number? with
      | some x, some y => (compare x y).then (compare a.kindRank b.kindRank)
      | _, _ => compare a.kindRank b.kindRank

instance : Ord Value := ⟨order⟩

/-- The characters that stand for one character of a quoted text. -/
def quoteChar (c : Char) : List Char :=
  if c = '"' then ['\\', '"']
  else if c = '\\' then ['\\', '\\']
  else if c = '\n' then ['\\', 'n']
  else if c = '\t' then ['\\', 't']
  else [c]

/-- A text between double quotes, as policies write it. -/
def quote (text : String) : String :=
  String.ofList ('"' :: (text.toList.flatMap quoteChar ++ ['"']))

/-- The written form of a constant. -/
def text : Value → String
  | .str s => quote s
  | .int i => toString i.toInt
  | .float x => x.text .formula

/-- The written form of a constant, a text standing for itself. -/
def name : Value → String
  | .str s => s
  | v => v.text

end Value

end DatalogPolicy

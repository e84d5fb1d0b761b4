import DatalogPolicy.Number.Shortest

/-!
# Written numbers

Formulas and JSON texts write the same digits and differ in a few decisions,
which a `NumberStyle` collects.
-/

namespace DatalogPolicy

/-- The decisions of a format for numbers. -/
structure NumberStyle where
  /-- The least power of ten of a first digit that is written without an exponent. -/
  lowestPlain : Int
  /-- The power of ten of a first digit from which on an exponent is written. -/
  firstScientific : Int
  /-- Whether a positive exponent has a sign. -/
  signedExponent : Bool
  /-- Which of two equally near digits is written. -/
  tie : TieRule
  /-- The text of positive infinity; a minus goes before it for the negative one. -/
  infinityText : String
  /-- The text of a value that is no number. -/
  nanText : String
  /-- Whether the two texts above carry the sign of the value. -/
  signedWords : Bool

namespace NumberStyle

/-- Numbers in formulas. -/
def formula : NumberStyle where
  lowestPlain := -4
  firstScientific := 16
  signedExponent := false
  tie := .upper
  infinityText := "inf"
  nanText := "NaN"
  signedWords := true

/-- Numbers in JSON texts, which have no infinities. -/
def json : NumberStyle where
  lowestPlain := -5
  firstScientific := 16
  signedExponent := true
  tie := .even
  infinityText := "null"
  nanText := "null"
  signedWords := false

end NumberStyle

namespace Decimal

/-- The digits with a point and at least one digit on either side of it. -/
def plainText (d : Decimal) : List Char :=
  let ds := Nat.toDigits 10 d.digits
  if 0 ≤ d.exponent then ds ++ List.replicate d.exponent.toNat '0' ++ ['.', '0']
  else
    let places := (-d.exponent).toNat
    if places < ds.length then
      ds.take (ds.length - places) ++ '.' :: ds.drop (ds.length - places)
    else '0' :: '.' :: (List.replicate (places - ds.length) '0' ++ ds)

/-- The power of ten of the first digit. -/
def leadingPower (d : Decimal) : Int :=
  ((Nat.toDigits 10 d.digits).length : Int) - 1 + d.exponent

/-- The digits with a point after the first of several, then the power of ten of the first. -/
def scientificText (signed : Bool) (d : Decimal) : List Char :=
  let mantissa :=
    match Nat.toDigits 10 d.digits with
    | first :: second :: rest => first :: '.' :: second :: rest
    | ds => ds
  let power := d.leadingPower
  let sign := if power < 0 then ['-'] else if signed then ['+'] else []
  mantissa ++ 'e' :: (sign ++ Nat.toDigits 10 power.natAbs)

/-- A decimal without zeros at the end of its digits in a number style. -/
def text (style : NumberStyle) (d : Decimal) : List Char :=
  let power := d.leadingPower
  if d.digits = 0 ∨ style.lowestPlain ≤ power ∧ power < style.firstScientific then d.plainText
  else d.scientificText style.signedExponent

end Decimal

/-- A number in a number style. -/
def Binary64.text (style : NumberStyle) (x : Binary64) : String :=
  let minus := if x.negative then ['-'] else []
  if x.isNaN then style.nanText
  else if x.isFinite then
    String.ofList (minus ++ (Binary64.shortest style.tie x.magnitude).text style)
  else if style.signedWords then String.ofList minus ++ style.infinityText
  else style.infinityText

end DatalogPolicy

import DatalogPolicy.Number.Binary64

/-!
# Decimal numerals

A decimal stands for `digits * 10 ^ exponent`. `Binary64.read?` reads every
decimal numeral, and the words for infinity and for no number, to the nearest
number of the 64-bit format.
-/

namespace DatalogPolicy

/-- The number `digits * 10 ^ exponent`. -/
structure Decimal where
  digits : Nat
  exponent : Int
deriving DecidableEq, Repr

namespace Decimal

/-- The number that a list of decimal digits denotes, read after the number `n`. -/
def foldDigits (n : Nat) (cs : List Char) : Nat :=
  cs.foldl (fun n c => 10 * n + (c.toNat - '0'.toNat)) n

/-- The digits at the front of a text and the rest of it. -/
def splitDigits (cs : List Char) : List Char × List Char :=
  (cs.takeWhile Char.isDigit, cs.dropWhile Char.isDigit)

/-- An optional sign at the front of a text, as whether it is a minus, and the rest. -/
def splitSign : List Char → Bool × List Char
  | '-' :: rest => (true, rest)
  | '+' :: rest => (false, rest)
  | cs => (false, cs)

/-- The exponent part of a numeral, which may be absent but must be the whole text. -/
def readExponent? : List Char → Option Int
  | [] => some 0
  | c :: rest =>
      if c = 'e' ∨ c = 'E' then
        let (negative, ds) := splitSign rest
        if ds ≠ [] ∧ ds.all Char.isDigit then
          let n : Int := foldDigits 0 ds
          some (if negative then -n else n)
        else none
      else none

/-- An unsigned numeral: digits, with a point anywhere around them, and an optional exponent. -/
def readUnsigned? (cs : List Char) : Option Decimal :=
  let (whole, rest) := splitDigits cs
  let (fraction, tail) :=
    match rest with
    | '.' :: more => splitDigits more
    | _ => ([], rest)
  if whole.isEmpty && fraction.isEmpty then none
  else (readExponent? tail).map fun e =>
    ⟨foldDigits (foldDigits 0 whole) fraction, e - fraction.length⟩

/-- The decimal without the zeros at the end of its digits, at most `fuel` of them. -/
def dropZeros : Nat → Decimal → Decimal
  | 0, d => d
  | fuel + 1, d =>
      if d.digits ≠ 0 ∧ d.digits % 10 = 0 then dropZeros fuel ⟨d.digits / 10, d.exponent + 1⟩
      else d

/-- The same number with no zeros at the end of its digits. -/
def trim (d : Decimal) : Decimal := dropZeros (Nat.log2 d.digits + 1) d

/-- Numbers of at least ten to this power are read as infinite without further work, and numbers
below its reciprocal as zero. -/
def exponentLimit : Nat := 400

/-- The magnitude nearest to a decimal. The digits number at most one more than their binary
logarithm, so the two outer cases are out of the finite range on either side. -/
def nearestMagnitude (d : Decimal) : Nat :=
  if d.digits = 0 then 0
  else if (exponentLimit : Int) < d.exponent then Binary64.infinity
  else if d.exponent < -((Nat.log2 d.digits + 1 + exponentLimit : Nat) : Int) then 0
  else
    Binary64.nearestMagnitude (d.digits * Nat.pow 10 d.exponent.toNat)
      (Nat.pow 10 (-d.exponent).toNat)

end Decimal

namespace Binary64

/-- The number nearest to a decimal with the given sign. -/
def ofDecimal (negative : Bool) (d : Decimal) : Binary64 :=
  ofMagnitude negative d.nearestMagnitude

/-- Reads a numeral with an optional sign; letters of the words may have either case. -/
def read? (text : String) : Option Binary64 :=
  let (negative, cs) := Decimal.splitSign text.toList
  let word := cs.map Char.toLower
  if word = "inf".toList ∨ word = "infinity".toList then some (infinite negative)
  else if word = "nan".toList then some (nan negative)
  else (Decimal.readUnsigned? cs).map (ofDecimal negative)

end Binary64

end DatalogPolicy

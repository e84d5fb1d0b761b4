import DatalogPolicy.Number.Decimal

/-!
# The fewest digits that read back

For one digit, two digits and so on, the two neighbours of a value on the grid
of decimals with that many digits are read back. The first grid with a neighbour
that reads back to the value supplies its digits.
-/

namespace DatalogPolicy

/-- What is chosen of two neighbours at the same distance. -/
inductive TieRule
  | upper
  | even
deriving DecidableEq, Repr

/-- The number of decimal digits of a natural number, zero having one. -/
def decimalLength (n : Nat) : Nat :=
  if n < 10 then 1 else decimalLength (n / 10) + 1
decreasing_by omega

namespace Binary64

/-- The exponent `p` with `10 ^ (p - 1) ≤ num / den < 10 ^ p`, both numbers being positive. -/
def leadingExponent (num den : Nat) : Int :=
  if den ≤ num then decimalLength (num / den)
  else 1 - (decimalLength ((den - 1) / num) : Int)

/-- The digits of a quotient above the place `10 ^ place`, and whether the rest is less than,
equal to or more than a half. -/
def truncateAt (num den : Nat) (place : Int) : Nat × Ordering :=
  let n := num * Nat.pow 10 (-place).toNat
  let d := den * Nat.pow 10 place.toNat
  (n / d, compare (2 * (n % d)) d)

/-- The nearer of the two neighbours of a quotient at a place of those that read back to the
magnitude. -/
def neighbour? (tie : TieRule) (magnitude : Nat) (place : Int) : Option Decimal :=
  let (floor, rest) := truncateAt (units magnitude) (Nat.pow 2 1074) place
  let lower : Decimal := ⟨floor, place⟩
  let upper : Decimal := ⟨floor + 1, place⟩
  let lowerReads := lower.nearestMagnitude = magnitude
  let upperReads := upper.nearestMagnitude = magnitude
  if lowerReads ∧ upperReads then
    match rest with
    | .lt => some lower
    | .gt => some upper
    | .eq => if tie = .even ∧ floor % 2 = 0 then some lower else some upper
  else if lowerReads then some lower
  else if upperReads then some upper
  else none

/-- The exact value of a finite magnitude. -/
def exactDecimal (magnitude : Nat) : Decimal := ⟨units magnitude * Nat.pow 5 1074, -1074⟩

/-- Seventeen digits tell any two finite numbers of the format apart. -/
def digitLimit : Nat := 17

/-- A decimal with the fewest digits that reads back to a finite magnitude. -/
def shortest (tie : TieRule) (magnitude : Nat) : Decimal :=
  if magnitude = 0 then ⟨0, 0⟩
  else
    let lead := leadingExponent (units magnitude) (Nat.pow 2 1074)
    let found := (List.range digitLimit).findSome? fun n =>
      neighbour? tie magnitude (lead - (n + 1 : Nat))
    (found.getD (exactDecimal magnitude)).trim

end Binary64

end DatalogPolicy

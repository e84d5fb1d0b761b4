/-!
# Numbers of the 64-bit binary floating-point format

A number is its sign and the 63 bits below the sign read as one natural number,
its *magnitude*. Finite magnitudes grow with the values that they stand for, so
rounding to nearest is rounding to a magnitude, and the total order of the
format is the order of signed magnitudes.
-/

namespace DatalogPolicy

/-- A number of the 64-bit binary format: a sign and 63 bits of magnitude. -/
structure Binary64 where
  negative : Bool
  magnitude : Nat
  magnitude_lt : magnitude < Nat.pow 2 63
deriving DecidableEq, Hashable, Repr

namespace Binary64

/-- The magnitude of the infinities; larger magnitudes are no numbers. -/
def infinity : Nat := 2047 * Nat.pow 2 52

/-- The magnitude written for a result that is no number. -/
def quietNaN : Nat := infinity + Nat.pow 2 51

/-- The infinities are numbers of the format. -/
theorem infinity_lt : infinity < Nat.pow 2 63 := by decide

/-- The number of the given sign whose magnitude is the given one, cut off at infinity. -/
def ofMagnitude (negative : Bool) (magnitude : Nat) : Binary64 where
  negative := negative
  magnitude := min magnitude infinity
  magnitude_lt := Nat.lt_of_le_of_lt (Nat.min_le_right _ _) infinity_lt

/-- An infinity. -/
def infinite (negative : Bool) : Binary64 := ⟨negative, infinity, infinity_lt⟩

/-- A value that is no number. -/
def nan (negative : Bool) : Binary64 := ⟨negative, quietNaN, by decide⟩

/-- Whether a number is neither infinite nor no number. -/
def isFinite (x : Binary64) : Bool := x.magnitude < infinity

/-- Whether a value is no number. -/
def isNaN (x : Binary64) : Bool := infinity < x.magnitude

/-- The exponent field of a magnitude less one, the two lowest fields both counting as zero. -/
def scale (magnitude : Nat) : Nat := magnitude / Nat.pow 2 52 - 1

/-- The significand of a magnitude, with its leading bit. -/
def significand (magnitude : Nat) : Nat :=
  if magnitude < Nat.pow 2 52 then magnitude else magnitude % Nat.pow 2 52 + Nat.pow 2 52

/-- A finite magnitude stands for this natural number divided by `2 ^ 1074`. -/
def units (magnitude : Nat) : Nat := significand magnitude * Nat.pow 2 (scale magnitude)

/-- The nearest integer to a quotient, a half going to the even neighbour. -/
def roundQuotient (num den : Nat) : Nat :=
  let floor := num / den
  let twice := 2 * (num % den)
  if twice < den then floor
  else if den < twice then floor + 1
  else floor + floor % 2

/-- The magnitude nearest to a quotient, of two equally near ones the even one. Quotients above
the finite range give infinity. -/
def nearestMagnitude (num den : Nat) : Nat :=
  let scaled := num * Nat.pow 2 1074
  let shift := Nat.log2 (scaled / den) - 52
  min (shift * Nat.pow 2 52 + roundQuotient scaled (den * Nat.pow 2 shift)) infinity

/-- The number nearest to a quotient with the given sign. -/
def nearest (negative : Bool) (num den : Nat) : Binary64 :=
  ofMagnitude negative (nearestMagnitude num den)

/-- The number nearest to an integer. -/
def ofInt (i : Int) : Binary64 := nearest (decide (i < 0)) i.natAbs 1

/-- The place of a number in the total order of the format. -/
def rank (x : Binary64) : Int :=
  if x.negative then -1 - (x.magnitude : Int) else x.magnitude

/-- The total order: negative before positive, zeros of either sign apart, and values that are no
numbers at the two ends. -/
instance : Ord Binary64 := ⟨compareOn rank⟩

end Binary64

end DatalogPolicy

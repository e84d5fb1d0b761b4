import DatalogPolicy.Number.Shortest
import Mathlib.Algebra.Order.Ring.Nat

/-!
# Nearest numbers

The number nearest to a quotient depends on the value of the quotient only, and a
quotient that is a number of the format is nearest to itself. The cases in which
decimals are read without further work are no exceptions, so the digits that are
chosen for a number read back to it.
-/

namespace DatalogPolicy

namespace Binary64

theorem roundQuotient_mul_left {k : Nat} (hk : 0 < k) (num den : Nat) :
    roundQuotient (k * num) (k * den) = roundQuotient num den := by
  have hdouble : 2 * (k * (num % den)) = k * (2 * (num % den)) := Nat.mul_left_comm 2 k _
  simp only [roundQuotient, Nat.mul_div_mul_left _ _ hk, Nat.mul_mod_mul_left, hdouble,
    Nat.mul_lt_mul_left hk]

theorem roundQuotient_mul_self (n : Nat) {den : Nat} (hden : 0 < den) :
    roundQuotient (n * den) den = n := by
  simp only [roundQuotient, Nat.mul_div_cancel n hden, Nat.mul_mod_left, Nat.mul_zero, if_pos hden]

theorem roundQuotient_of_small {num den : Nat} (h : 2 * num < den) : roundQuotient num den = 0 := by
  have hlt : num < den := by omega
  simp only [roundQuotient, Nat.div_eq_of_lt hlt, Nat.mod_eq_of_lt hlt, if_pos h]

/-- Common factors of a quotient make no difference. -/
theorem nearestMagnitude_mul_left {k : Nat} (hk : 0 < k) (num den : Nat) :
    nearestMagnitude (k * num) (k * den) = nearestMagnitude num den := by
  simp only [nearestMagnitude, Nat.mul_assoc, Nat.mul_div_mul_left _ _ hk,
    roundQuotient_mul_left hk]

/-- Equal quotients have the same nearest magnitude. -/
theorem nearestMagnitude_congr {num den num' den' : Nat} (hden : 0 < den) (hden' : 0 < den')
    (h : num * den' = num' * den) : nearestMagnitude num den = nearestMagnitude num' den' :=
  calc nearestMagnitude num den
      = nearestMagnitude (den' * num) (den' * den) := (nearestMagnitude_mul_left hden' _ _).symm
    _ = nearestMagnitude (den * num') (den * den') := by
        rw [Nat.mul_comm den' num, h, Nat.mul_comm num' den, Nat.mul_comm den' den]
    _ = nearestMagnitude num' den' := nearestMagnitude_mul_left hden _ _

theorem two_pow_pos (n : Nat) : 0 < Nat.pow 2 n := Nat.two_pow_pos n

theorem log2_mul_two_pow {n : Nat} (hn : n ≠ 0) (k : Nat) :
    Nat.log2 (n * Nat.pow 2 k) = Nat.log2 n + k := by
  refine (Nat.log2_eq_iff (Nat.mul_ne_zero hn (two_pow_pos k).ne')).2 ⟨?_, ?_⟩
  · rw [Nat.pow_add]
    exact Nat.mul_le_mul_right _ (Nat.log2_self_le hn)
  · rw [Nat.add_right_comm, Nat.pow_add]
    exact Nat.mul_lt_mul_of_pos_right Nat.lt_log2_self (two_pow_pos k)

theorem scale_of_lt {m : Nat} (h : m < Nat.pow 2 52) : scale m = 0 := by
  rw [scale, Nat.div_eq_of_lt h]

theorem significand_of_lt {m : Nat} (h : m < Nat.pow 2 52) : significand m = m := if_pos h

/-- A magnitude is its significand above as many full fields as its scale. -/
theorem scale_add_significand (m : Nat) : scale m * Nat.pow 2 52 + significand m = m := by
  by_cases h : m < Nat.pow 2 52
  · rw [scale_of_lt h, significand_of_lt h, Nat.zero_mul, Nat.zero_add]
  · have hdiv : 1 ≤ m / Nat.pow 2 52 :=
      (Nat.one_le_div_iff (two_pow_pos 52)).2 (Nat.le_of_not_lt h)
    rw [scale, significand, if_neg h, Nat.add_left_comm, ← Nat.succ_mul, Nat.succ_eq_add_one,
      Nat.sub_add_cancel hdiv, Nat.mul_comm, Nat.mod_add_div]

/-- The leading bit of the units of a magnitude tells its scale. -/
theorem log2_units (m : Nat) : Nat.log2 (units m) - 52 = scale m := by
  by_cases h : m < Nat.pow 2 52
  · have hunits : units m = m := by
      rw [units, scale_of_lt h, significand_of_lt h]
      exact Nat.mul_one m
    rw [hunits, scale_of_lt h]
    by_cases hzero : m = 0
    · rw [hzero]
      rfl
    · exact Nat.sub_eq_zero_of_le ((Nat.log2_lt hzero).2 h).le
  · have hlow : Nat.pow 2 52 ≤ m % Nat.pow 2 52 + Nat.pow 2 52 := Nat.le_add_left _ _
    have hhigh : m % Nat.pow 2 52 + Nat.pow 2 52 < Nat.pow 2 53 :=
      Nat.add_lt_add_right (Nat.mod_lt m (two_pow_pos 52)) _
    have hne : m % Nat.pow 2 52 + Nat.pow 2 52 ≠ 0 :=
      (Nat.lt_of_lt_of_le (two_pow_pos 52) hlow).ne'
    rw [units, significand, if_neg h, log2_mul_two_pow hne,
      (Nat.log2_eq_iff hne).2 ⟨hlow, hhigh⟩, Nat.add_sub_cancel_left]

/-- The number of binary places of a unit. -/
@[irreducible] def unitPlaces : Nat := 1074

/-- The number of units in one. -/
def unitsOfOne : Nat := Nat.pow 2 unitPlaces

theorem unitPlaces_eq : unitPlaces = 1074 := by rw [unitPlaces]

theorem unitsOfOne_pos : 0 < unitsOfOne := two_pow_pos unitPlaces

theorem log2_mul_unitsOfOne {n : Nat} (hn : n ≠ 0) :
    Nat.log2 (n * unitsOfOne) = Nat.log2 n + unitPlaces :=
  log2_mul_two_pow hn unitPlaces

theorem nearestMagnitude_of_shift {num den shift : Nat}
    (h : Nat.log2 (num * unitsOfOne / den) - 52 = shift) :
    nearestMagnitude num den =
      min (shift * Nat.pow 2 52 + roundQuotient (num * unitsOfOne) (den * Nat.pow 2 shift))
        infinity := by
  subst h
  have hplaces : Nat.pow 2 1074 = unitsOfOne := congrArg (Nat.pow 2) unitPlaces_eq.symm
  simp only [nearestMagnitude, hplaces]

/-- A magnitude is nearest to the quotient that it stands for. -/
theorem nearestMagnitude_units {m : Nat} (hm : m < infinity) :
    nearestMagnitude (units m) (unitsOfOne) = m := by
  have hround (scaling : Nat) (hpos : 0 < scaling) : roundQuotient (units m * scaling)
      (scaling * Nat.pow 2 (scale m)) = significand m := by
    rw [Nat.mul_comm (units m), roundQuotient_mul_left hpos, units]
    exact roundQuotient_mul_self _ (two_pow_pos _)
  have hpos := unitsOfOne_pos
  have hshift : Nat.log2 (units m * unitsOfOne / unitsOfOne) - 52 = scale m := by
    rw [Nat.mul_div_cancel _ hpos, log2_units]
  calc nearestMagnitude (units m) unitsOfOne
      = min (scale m * Nat.pow 2 52 +
          roundQuotient (units m * unitsOfOne) (unitsOfOne * Nat.pow 2 (scale m))) infinity :=
        nearestMagnitude_of_shift hshift
    _ = min m infinity := by rw [hround _ hpos, scale_add_significand]
    _ = m := Nat.min_eq_left hm.le

/-- What is too large for the format is read as infinite. -/
theorem nearestMagnitude_of_large {num : Nat} (hnum : num ≠ 0) (h : 1025 ≤ Nat.log2 num) :
    nearestMagnitude num 1 = infinity := by
  have hlog : Nat.log2 (num * unitsOfOne / 1) = Nat.log2 num + 1074 := by
    rw [Nat.div_one, log2_mul_unitsOfOne hnum, unitPlaces_eq]
  have hshift : 2047 ≤ Nat.log2 (num * unitsOfOne / 1) - 52 := by omega
  rw [nearestMagnitude_of_shift rfl]
  exact Nat.min_eq_right (Nat.le_add_right_of_le (Nat.mul_le_mul_right _ hshift))

/-- What is too small for the format is read as zero. -/
theorem nearestMagnitude_of_small {num den : Nat} (h : 2 * (num * unitsOfOne) < den) :
    nearestMagnitude num den = 0 := by
  have hfloor : num * unitsOfOne / den = 0 := Nat.div_eq_of_lt (by omega)
  have hshift : Nat.log2 (num * unitsOfOne / den) - 52 = 0 := by
    rw [hfloor]
    rfl
  have hden : den * Nat.pow 2 0 = den := Nat.mul_one den
  rw [nearestMagnitude_of_shift hshift, hden, roundQuotient_of_small h]
  exact Nat.zero_min _

end Binary64

namespace Decimal

open Binary64

theorem two_pow_le_ten_pow (n : Nat) : 2 ^ (3 * n) ≤ Nat.pow 10 n := by
  rw [Nat.pow_mul]
  exact Nat.pow_le_pow_left (by decide) n

theorem double_lt_two_pow (n k : Nat) :
    2 * (n * Nat.pow 2 k) < 2 ^ (Nat.log2 n + 1 + k + 1) := by
  rw [Nat.pow_succ, Nat.mul_comm 2, Nat.pow_add]
  exact Nat.mul_lt_mul_of_pos_right
    (Nat.mul_lt_mul_of_pos_right Nat.lt_log2_self (two_pow_pos k)) (by decide)

theorem ten_pow_pos (n : Nat) : 0 < Nat.pow 10 n := Nat.pow_pos (by decide)

/-- The cases that are read without further work are no exceptions. -/
theorem nearestMagnitude_eq (d : Decimal) :
    d.nearestMagnitude =
      Binary64.nearestMagnitude (d.digits * Nat.pow 10 d.exponent.toNat)
        (Nat.pow 10 (-d.exponent).toNat) := by
  rw [nearestMagnitude]
  split
  · next hzero =>
      have hsmall : 2 * (0 * unitsOfOne) < Nat.pow 10 (-d.exponent).toNat := by
        rw [Nat.zero_mul, Nat.mul_zero]
        exact ten_pow_pos _
      rw [hzero, Nat.zero_mul, nearestMagnitude_of_small hsmall]
  · next hdigits =>
      split
      · next hlarge =>
          have hexp : 400 < d.exponent.toNat := by
            rw [exponentLimit] at hlarge
            omega
          have hden : Nat.pow 10 (-d.exponent).toNat = 1 := by
            have hneg : (-d.exponent).toNat = 0 := by omega
            rw [hneg, Nat.pow_eq, Nat.pow_zero]
          have hnum : d.digits * Nat.pow 10 d.exponent.toNat ≠ 0 :=
            Nat.mul_ne_zero hdigits (ten_pow_pos _).ne'
          have hlog : 3 * d.exponent.toNat ≤
              Nat.log2 (d.digits * Nat.pow 10 d.exponent.toNat) :=
            (Nat.le_log2 hnum).2 ((two_pow_le_ten_pow _).trans
              (Nat.le_mul_of_pos_left _ (Nat.pos_of_ne_zero hdigits)))
          rw [hden, nearestMagnitude_of_large hnum (by omega)]
      · split
        · next hsmall =>
            rw [exponentLimit] at hsmall
            have hnum : d.digits * Nat.pow 10 d.exponent.toNat = d.digits := by
              have hpos : d.exponent.toNat = 0 := by omega
              rw [hpos]
              exact Nat.mul_one _
            have hexp : Nat.log2 d.digits + 1 + unitPlaces + 1 ≤ 3 * (-d.exponent).toNat := by
              rw [unitPlaces_eq]
              omega
            have hsmall : 2 * (d.digits * unitsOfOne) < Nat.pow 10 (-d.exponent).toNat :=
              Nat.lt_of_lt_of_le (double_lt_two_pow d.digits unitPlaces)
                ((Nat.pow_le_pow_right (by decide) hexp).trans (two_pow_le_ten_pow _))
            rw [hnum, nearestMagnitude_of_small hsmall]
        · rfl

/-- Zeros may be appended to the digits of a decimal. -/
theorem nearestMagnitude_scale (n : Nat) (e : Int) (k : Nat) :
    nearestMagnitude ⟨n * Nat.pow 10 k, e - k⟩ = nearestMagnitude ⟨n, e⟩ := by
  have hexp : k + (e - k).toNat + (-e).toNat = e.toNat + (-(e - k)).toNat := by omega
  rw [nearestMagnitude_eq, nearestMagnitude_eq]
  apply nearestMagnitude_congr (ten_pow_pos _) (ten_pow_pos _)
  calc n * Nat.pow 10 k * Nat.pow 10 (e - k).toNat * Nat.pow 10 (-e).toNat
      = n * 10 ^ (k + (e - k).toNat + (-e).toNat) := by
        rw [Nat.pow_add, Nat.pow_add, ← Nat.mul_assoc, ← Nat.mul_assoc]
        rfl
    _ = n * Nat.pow 10 e.toNat * Nat.pow 10 (-(e - k)).toNat := by
        rw [hexp, Nat.pow_add, ← Nat.mul_assoc]
        rfl

/-- Dropping zeros at the end of the digits makes no difference. -/
theorem nearestMagnitude_dropZeros (fuel : Nat) (d : Decimal) :
    (dropZeros fuel d).nearestMagnitude = d.nearestMagnitude := by
  induction fuel generalizing d with
  | zero => rfl
  | succ fuel ih =>
      rw [dropZeros]
      split
      · next h =>
          have hdigits : d.digits / 10 * Nat.pow 10 1 = d.digits :=
            Nat.div_mul_cancel (Nat.dvd_of_mod_eq_zero h.2)
          have hexponent : d.exponent + 1 - (1 : Nat) = d.exponent := by omega
          rw [ih, ← nearestMagnitude_scale _ _ 1, hdigits, hexponent]
      · rfl

end Decimal

namespace Binary64

/-- The exact value of a magnitude reads back to it. -/
theorem nearestMagnitude_exactDecimal {m : Nat} (hm : m < infinity) :
    (exactDecimal m).nearestMagnitude = m := by
  have hscale (n k : Nat) : nearestMagnitude (n * Nat.pow 5 k * Nat.pow 10 0) (Nat.pow 10 k) =
      nearestMagnitude n (Nat.pow 2 k) := by
    have hfive : 0 < Nat.pow 5 k := Nat.pow_pos (by decide)
    have hten : Nat.pow 10 k = Nat.pow 5 k * Nat.pow 2 k := Nat.mul_pow 5 2 k
    have hone : n * Nat.pow 5 k * Nat.pow 10 0 = Nat.pow 5 k * n := by
      rw [Nat.mul_comm n]
      exact Nat.mul_one _
    rw [hten, hone, nearestMagnitude_mul_left hfive]
  have hexact : exactDecimal m = ⟨units m * Nat.pow 5 unitPlaces, -(unitPlaces : Int)⟩ := by
    simp only [exactDecimal, unitPlaces_eq, Int.reduceNeg, Nat.cast_ofNat]
  have hnum : (-(unitPlaces : Int)).toNat = 0 := by omega
  have hden : (-(-(unitPlaces : Int))).toNat = unitPlaces := by omega
  calc (exactDecimal m).nearestMagnitude
      = nearestMagnitude (units m * Nat.pow 5 unitPlaces * Nat.pow 10 0)
          (Nat.pow 10 unitPlaces) := by
        rw [Decimal.nearestMagnitude_eq, hexact, hnum, hden]
    _ = nearestMagnitude (units m) unitsOfOne := hscale _ _
    _ = m := nearestMagnitude_units hm

theorem nearestMagnitude_neighbour {tie : TieRule} {m : Nat} {place : Int} {d : Decimal}
    (h : neighbour? tie m place = some d) : d.nearestMagnitude = m := by
  rw [neighbour?] at h
  generalize truncateAt (units m) (Nat.pow 2 1074) place = floor at h
  obtain ⟨floor, rest⟩ := floor
  simp only at h
  split at h
  · next hboth =>
      split at h
      · cases h
        exact hboth.1
      · cases h
        exact hboth.2
      · split at h
        · cases h
          exact hboth.1
        · cases h
          exact hboth.2
  · split at h
    · next hlower =>
        cases h
        exact hlower
    · split at h
      · next hupper =>
          cases h
          exact hupper
      · cases h

/-- The digits that are chosen for a magnitude read back to it. -/
theorem nearestMagnitude_shortest (tie : TieRule) {m : Nat} (hm : m < infinity) :
    (shortest tie m).nearestMagnitude = m := by
  rw [shortest]
  split
  · next h => 
    rw [h]
    rfl
  · rw [Decimal.trim, Decimal.nearestMagnitude_dropZeros]
    cases hfound : (List.range digitLimit).findSome? fun n =>
        neighbour? tie m (leadingExponent (units m) (Nat.pow 2 1074) - (n + 1 : Nat)) with
    | none => exact nearestMagnitude_exactDecimal hm
    | some d =>
        obtain ⟨n, -, hn⟩ := List.exists_of_findSome?_eq_some hfound
        exact nearestMagnitude_neighbour hn

end Binary64

end DatalogPolicy

import DatalogPolicy.Proofs.Formula.Order
import Mathlib.Algebra.Order.Field.Basic
import Mathlib.Algebra.Order.Field.Rat
import Mathlib.Order.WithBot

/-!
# Comparing integers with other numbers

An integer is compared with another number by its nearest number. Rounding to nearest does not
carry an integer past a number, so a larger integer always compares as greater. A smaller one
compares as less unless it is rounded up to the very number, which then counts as the smaller one
of the two by its kind. That only happens to integers above `2 ^ 53` in absolute value.
-/

namespace DatalogPolicy

/-- The rational numbers between two infinities. -/
abbrev ExtendedRat := WithBot (WithTop ℚ)

/-- A rational number among the extended ones. -/
def ExtendedRat.ofRat (q : ℚ) : ExtendedRat := ((q : WithTop ℚ) : WithBot (WithTop ℚ))

theorem ExtendedRat.ofRat_lt_ofRat {p q : ℚ} : ofRat p < ofRat q ↔ p < q :=
  WithBot.coe_lt_coe.trans WithTop.coe_lt_coe

theorem ExtendedRat.ofRat_lt_top (q : ℚ) : ofRat q < ⊤ :=
  WithBot.coe_lt_coe.2 (WithTop.coe_lt_top q)

namespace Binary64

/-- The units that a finite number stands for, with its sign. -/
def signedUnits (x : Binary64) : Int :=
  if x.negative then -(units x.magnitude : Int) else units x.magnitude

/-- The exact value of a number. -/
def value (x : Binary64) : ExtendedRat :=
  if x.isFinite then ExtendedRat.ofRat (x.signedUnits / unitsOfOne)
  else if x.negative then ⊥ else ⊤

section Magnitudes

variable {n : Nat}

theorem nearestMagnitude_mul_unitsOfOne (n : Nat) :
    nearestMagnitude (n * unitsOfOne) unitsOfOne = nearestMagnitude n 1 :=
  nearestMagnitude_congr unitsOfOne_pos Nat.one_pos (Nat.mul_one _)

theorem two_pow_mul_two_pow (j k : Nat) : Nat.pow 2 j * Nat.pow 2 k = Nat.pow 2 (j + k) :=
  (Nat.pow_add 2 j k).symm

/-- A significand with its leading bit stands above the fields of its scale. -/
theorem units_of_significand {a : Nat} (hlow : Nat.pow 2 52 ≤ a) (hhigh : a < Nat.pow 2 53)
    (k : Nat) : units (k * Nat.pow 2 52 + a) = a * Nat.pow 2 k := by
  have hfields : a / Nat.pow 2 52 = 1 :=
    Nat.div_eq_of_lt_le ((Nat.one_mul _).trans_le hlow) hhigh
  have hscale : scale (k * Nat.pow 2 52 + a) = k := by
    rw [scale, Nat.add_comm, Nat.add_mul_div_right _ _ (two_pow_pos 52), hfields,
      Nat.add_sub_cancel_left]
  have hsum := scale_add_significand (k * Nat.pow 2 52 + a)
  rw [hscale] at hsum
  rw [units, hscale, Nat.add_left_cancel hsum]

/-- Doubling brings the leading bit of a natural number to its place in a significand. -/
theorem exists_significand (hpos : 0 < n) (h : n < Nat.pow 2 53) :
    ∃ j ≤ 52, Nat.pow 2 52 ≤ n * Nat.pow 2 j ∧ n * Nat.pow 2 j < Nat.pow 2 53 := by
  have hlog : Nat.log2 n ≤ 52 := Nat.le_of_lt_succ ((Nat.log2_lt hpos.ne').2 h)
  refine ⟨52 - Nat.log2 n, Nat.sub_le _ _, ?_, ?_⟩
  · calc Nat.pow 2 52 = Nat.pow 2 (Nat.log2 n) * Nat.pow 2 (52 - Nat.log2 n) := by
          rw [two_pow_mul_two_pow, Nat.add_sub_cancel' hlog]
      _ ≤ n * Nat.pow 2 (52 - Nat.log2 n) := Nat.mul_le_mul_right _ (Nat.log2_self_le hpos.ne')
  · calc n * Nat.pow 2 (52 - Nat.log2 n)
        < Nat.pow 2 (Nat.log2 n + 1) * Nat.pow 2 (52 - Nat.log2 n) :=
          Nat.mul_lt_mul_of_pos_right Nat.lt_log2_self (two_pow_pos _)
      _ = Nat.pow 2 53 := by
          rw [two_pow_mul_two_pow, Nat.add_right_comm, Nat.add_sub_cancel' hlog]

/-- A natural number with at most 53 binary places is a number of the format. -/
theorem exists_units_eq (h : n ≤ Nat.pow 2 53) : ∃ m < infinity, units m = n * unitsOfOne := by
  -- with its leading bit in place the number is a significand, of a scale below that of infinity
  have hsignificand {a k : Nat} (hlow : Nat.pow 2 52 ≤ a) (hhigh : a < Nat.pow 2 53)
      (hk : k ≤ unitPlaces + 1) : ∃ m < infinity, units m = a * Nat.pow 2 k := by
    refine ⟨k * Nat.pow 2 52 + a, ?_, units_of_significand hlow hhigh k⟩
    rw [unitPlaces_eq] at hk
    have hfields : k * Nat.pow 2 52 ≤ 1075 * Nat.pow 2 52 := Nat.mul_le_mul_right _ hk
    exact (Nat.add_lt_add_of_le_of_lt hfields hhigh).trans (by decide)
  rcases Nat.lt_or_eq_of_le h with hlt | rfl
  · rcases Nat.eq_zero_or_pos n with rfl | hpos
    · exact ⟨0, by decide, by rw [Nat.zero_mul]; decide⟩
    · obtain ⟨j, hj, hlow, hhigh⟩ := exists_significand hpos hlt
      have hplaces : j ≤ unitPlaces := by
        rw [unitPlaces_eq]
        omega
      have hunits : n * Nat.pow 2 j * Nat.pow 2 (unitPlaces - j) = n * unitsOfOne := by
        rw [Nat.mul_assoc, two_pow_mul_two_pow, Nat.add_sub_cancel' hplaces, unitsOfOne]
      rw [← hunits]
      exact hsignificand hlow hhigh (by omega)
  · have hunits : Nat.pow 2 52 * Nat.pow 2 (unitPlaces + 1) = Nat.pow 2 53 * unitsOfOne := by
      rw [unitsOfOne, two_pow_mul_two_pow, two_pow_mul_two_pow, Nat.add_left_comm, Nat.add_comm]
    rw [← hunits]
    exact hsignificand le_rfl (by decide) le_rfl

end Magnitudes

section Numbers

variable {i : Int} {x : Binary64}

/-- The number nearest to so many units. -/
def ofUnits (s : Int) : Binary64 := nearest (decide (s < 0)) s.natAbs unitsOfOne

theorem ofUnits_mul_unitsOfOne (i : Int) : ofUnits (i * unitsOfOne) = ofInt i := by
  have hpos : (0 : Int) < unitsOfOne := Int.natCast_pos.2 unitsOfOne_pos
  have hsign : i * unitsOfOne < 0 ↔ i < 0 := by
    rw [← Int.zero_mul unitsOfOne, mul_lt_mul_iff_left₀ hpos, Int.zero_mul]
  simp only [ofUnits, ofInt, nearest, hsign, Int.natAbs_mul, Int.natAbs_natCast,
    nearestMagnitude_mul_unitsOfOne]

/-- A finite number is nearest to its units, unless it is the negative zero. -/
theorem ofUnits_signedUnits (hx : x.isFinite = true)
    (hsign : x.negative = decide (x.signedUnits < 0)) : ofUnits x.signedUnits = x := by
  have hm : x.magnitude < infinity := of_decide_eq_true hx
  have hunits : x.signedUnits.natAbs = units x.magnitude := by
    rw [signedUnits]
    split
    · rw [Int.natAbs_neg, Int.natAbs_natCast]
    · exact Int.natAbs_natCast _
  simp only [ofUnits, nearest, ofMagnitude, ← hsign, hunits, nearestMagnitude_units hm,
    Nat.min_eq_left hm.le]

/-- The negative zero is the last of the negative numbers. -/
theorem rank_of_negative_zero (hx : x.isFinite = true)
    (hsign : x.negative ≠ decide (x.signedUnits < 0)) : x.signedUnits = 0 ∧ rank x = -1 := by
  have hm : x.magnitude < infinity := of_decide_eq_true hx
  rw [signedUnits] at hsign ⊢
  cases hnegative : x.negative with
  | false =>
      rw [hnegative, if_neg Bool.false_ne_true] at hsign
      exact absurd (decide_eq_false (Int.not_lt.2 (Int.natCast_nonneg _))).symm hsign
  | true =>
      rw [hnegative, if_pos rfl] at hsign
      have hunits : units x.magnitude = 0 := by
        have hnot := of_decide_eq_false (Bool.eq_false_iff.2 hsign.symm)
        omega
      have hsmall : 2 * (0 * unitsOfOne) < unitsOfOne := by
        rw [Nat.zero_mul]
        exact unitsOfOne_pos
      have hmagnitude : x.magnitude = 0 := by
        rw [← nearestMagnitude_units hm, hunits, nearestMagnitude_of_small hsmall]
      rw [if_pos rfl, hunits, rank, if_pos hnegative, hmagnitude]
      exact ⟨rfl, rfl⟩

theorem ofRat_lt_value_iff (hx : x.isFinite = true) :
    ExtendedRat.ofRat i < x.value ↔ i * unitsOfOne < x.signedUnits := by
  have hpos : (0 : ℚ) < unitsOfOne := Nat.cast_pos.2 unitsOfOne_pos
  rw [value, if_pos hx, ExtendedRat.ofRat_lt_ofRat, lt_div_iff₀ hpos]
  norm_cast

/-- A number that is not finite is the first or the last one, by its sign. -/
theorem rank_of_not_finite (hx : x.isNaN = false) (hinfinite : ¬ x.isFinite = true) :
    rank x = if x.negative then -1 - (infinity : Int) else infinity := by
  have hm : x.magnitude = infinity :=
    Nat.le_antisymm (Nat.not_lt.1 (of_decide_eq_false hx))
      (Nat.not_lt.1 (of_decide_eq_false (Bool.eq_false_iff.2 hinfinite)))
  rw [rank, hm]

/-- Nearest numbers stand between the two infinities. -/
theorem rank_ofUnits_bounds (s : Int) :
    -1 - (infinity : Int) ≤ rank (ofUnits s) ∧ rank (ofUnits s) ≤ infinity := by
  have hm : (ofUnits s).magnitude ≤ infinity := Nat.min_le_right _ _
  rw [rank]
  split <;> omega

theorem rank_ofUnits_neg_iff (s : Int) : rank (ofUnits s) < 0 ↔ s < 0 := by
  have hsign : (ofUnits s).negative = decide (s < 0) := rfl
  rw [rank, hsign]
  split
  · next h => exact iff_of_true (by omega) (of_decide_eq_true h)
  · next h => exact iff_of_false (by omega) (by simpa using h)

/-- An integer is not rounded past a larger number. -/
theorem rank_ofInt_le (hx : x.isNaN = false) (h : ExtendedRat.ofRat i < x.value) :
    rank (ofInt i) ≤ rank x := by
  rw [← ofUnits_mul_unitsOfOne]
  by_cases hfinite : x.isFinite = true
  · rw [ofRat_lt_value_iff hfinite] at h
    by_cases hsign : x.negative = decide (x.signedUnits < 0)
    · rw [← ofUnits_signedUnits hfinite hsign]
      exact rank_nearest_mono _ h.le
    · obtain ⟨hzero, hrank⟩ := rank_of_negative_zero hfinite hsign
      rw [hzero, ← rank_ofUnits_neg_iff] at h
      omega
  · have hbound := (rank_ofUnits_bounds (i * unitsOfOne)).2
    rw [value, if_neg hfinite] at h
    rw [rank_of_not_finite hx hfinite]
    split
    · next hnegative =>
        rw [if_pos hnegative] at h
        exact absurd h not_lt_bot
    · exact hbound

/-- An integer is not rounded past a smaller number. -/
theorem le_rank_ofInt (hx : x.isNaN = false) (h : x.value ≤ ExtendedRat.ofRat i) :
    rank x ≤ rank (ofInt i) := by
  rw [← ofUnits_mul_unitsOfOne]
  by_cases hfinite : x.isFinite = true
  · rw [← not_lt, ofRat_lt_value_iff hfinite, not_lt] at h
    by_cases hsign : x.negative = decide (x.signedUnits < 0)
    · calc rank x = rank (ofUnits x.signedUnits) := by rw [ofUnits_signedUnits hfinite hsign]
        _ ≤ rank (ofUnits (i * unitsOfOne)) := rank_nearest_mono _ h
    · obtain ⟨hzero, hrank⟩ := rank_of_negative_zero hfinite hsign
      rw [hzero, ← not_lt, ← rank_ofUnits_neg_iff] at h
      omega
  · have hbound := (rank_ofUnits_bounds (i * unitsOfOne)).1
    rw [value, if_neg hfinite] at h
    rw [rank_of_not_finite hx hfinite]
    split
    · exact hbound
    · next hnegative =>
        rw [if_neg hnegative] at h
        exact absurd h (ExtendedRat.ofRat_lt_top _).not_ge

/-- An integer with at most 53 binary places is a number of the format. -/
theorem value_ofInt (h : i.natAbs ≤ Nat.pow 2 53) : (ofInt i).value = ExtendedRat.ofRat i := by
  obtain ⟨m, hm, hunits⟩ := exists_units_eq h
  have hmagnitude : (ofInt i).magnitude = m :=
    calc min (nearestMagnitude i.natAbs 1) infinity
        = min m infinity := by
          rw [← nearestMagnitude_mul_unitsOfOne, ← hunits, nearestMagnitude_units hm]
      _ = m := Nat.min_eq_left hm.le
  have hsigned : (ofInt i).signedUnits = i * unitsOfOne := by
    have hsign : (ofInt i).negative = decide (i < 0) := rfl
    rw [signedUnits, hmagnitude, hunits, hsign, Nat.cast_mul]
    split
    · next hneg =>
        rw [← Int.neg_mul, Int.ofNat_natAbs_of_nonpos (of_decide_eq_true hneg).le, Int.neg_neg]
    · next hneg =>
        rw [Int.natAbs_of_nonneg (by simpa using hneg)]
  have hfinite : (ofInt i).isFinite = true := decide_eq_true (hmagnitude ▸ hm)
  have hne : (unitsOfOne : ℚ) ≠ 0 := Nat.cast_ne_zero.2 unitsOfOne_pos.ne'
  rw [value, if_pos hfinite, hsigned, Int.cast_mul, Int.cast_natCast,
    mul_div_cancel_right₀ _ hne]

end Numbers

end Binary64

namespace Value

theorem compare_int_float_eq (i : Int64) (x : Binary64) :
    compare (int i) (float x) = (compare (Binary64.ofInt i.toInt).rank x.rank).then .gt := rfl

/-- An integer that is not below a number is the greater one. A smaller integer is the smaller one
unless the number is the one that the integer is rounded to, which takes more than 53 places. -/
theorem compare_int_float (i : Int64) {x : Binary64} (hx : x.isNaN = false) :
    (x.value ≤ ExtendedRat.ofRat i.toInt → compare (int i) (float x) = .gt) ∧
      (ExtendedRat.ofRat i.toInt < x.value → x ≠ Binary64.ofInt i.toInt →
        compare (int i) (float x) = .lt) ∧
      (ExtendedRat.ofRat i.toInt < x.value → x = Binary64.ofInt i.toInt →
        compare (int i) (float x) = .gt ∧ Nat.pow 2 53 < i.toInt.natAbs) := by
  rw [compare_int_float_eq]
  refine ⟨fun hle => ?_, fun hlt hne => ?_, fun hlt heq => ⟨?_, ?_⟩⟩
  · rcases (Binary64.le_rank_ofInt hx hle).lt_or_eq with hrank | hrank
    · rw [Int.compare_eq_gt.2 hrank, Ordering.gt_then]
    · rw [hrank, Std.ReflOrd.compare_self, Ordering.eq_then]
  · have hrank : (Binary64.ofInt i.toInt).rank ≠ x.rank := fun h =>
      hne (Binary64.rank_injective h.symm)
    have hless := lt_of_le_of_ne (Binary64.rank_ofInt_le hx hlt) hrank
    rw [Int.compare_eq_lt.2 hless, Ordering.lt_then]
  · rw [heq, Std.ReflOrd.compare_self, Ordering.eq_then]
  · by_contra hsmall
    rw [heq, Binary64.value_ofInt (Nat.not_lt.1 hsmall)] at hlt
    exact lt_irrefl _ hlt

/-- The integer below `-2 ^ 53` is rounded up to it. -/
theorem lt_value_roundedUp : ExtendedRat.ofRat (-9007199254740993 : Int64).toInt <
    (Binary64.ofInt (-9007199254740992)).value := by
  have hinteger : (-9007199254740993 : Int64).toInt = -9007199254740993 := by decide
  rw [Binary64.value_ofInt (by decide), ExtendedRat.ofRat_lt_ofRat, Int.cast_lt, hinteger]
  decide

theorem compare_int_float_cases : compare (int 2) (float (Binary64.ofInt 1)) = .gt ∧
    compare (int 2) (float (Binary64.infinite false)) = .lt ∧
    compare (int (-9007199254740993)) (float (Binary64.ofInt (-9007199254740992))) = .gt := by
  have hone : (Binary64.ofInt 1).value ≤ ExtendedRat.ofRat (2 : Int64).toInt := by
    have hinteger : (2 : Int64).toInt = 2 := by decide
    rw [Binary64.value_ofInt (by decide), hinteger, ← not_lt, ExtendedRat.ofRat_lt_ofRat,
      Int.cast_lt]
    decide
  have hinfinite : ExtendedRat.ofRat (2 : Int64).toInt < (Binary64.infinite false).value :=
    ExtendedRat.ofRat_lt_top _
  exact ⟨(compare_int_float 2 (by decide +kernel)).1 hone,
    (compare_int_float 2 (by decide +kernel)).2.1 hinfinite (by decide +kernel),
    ((compare_int_float (-9007199254740993) (by decide +kernel)).2.2 lt_value_roundedUp
      (by decide +kernel)).1⟩

/-- An integer below the number that it is rounded to compares as the greater one. -/
theorem compare_int_float_roundedUp :
    (Binary64.ofInt (-9007199254740992)).isNaN = false ∧
      ExtendedRat.ofRat (-9007199254740993 : Int64).toInt <
        (Binary64.ofInt (-9007199254740992)).value ∧
      compare (int (-9007199254740993)) (float (Binary64.ofInt (-9007199254740992))) ≠ .lt :=
  ⟨by decide +kernel, lt_value_roundedUp, by decide +kernel⟩

end Value

end DatalogPolicy

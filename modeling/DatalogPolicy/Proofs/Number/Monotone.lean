import DatalogPolicy.Proofs.Number.Nearest

/-!
# Rounding keeps the order

A larger quotient is not rounded to a smaller magnitude, so integers stand in the order
of numbers as they do among themselves, apart from those with the same nearest number.
-/

namespace DatalogPolicy.Binary64

section Quotients

variable {num num' den : Nat}

theorem div_le_roundQuotient (num den : Nat) : num / den ≤ roundQuotient num den := by
  simp only [roundQuotient]
  split
  · exact Nat.le_refl _
  · split <;> exact Nat.le_add_right _ _

theorem roundQuotient_le (num den : Nat) : roundQuotient num den ≤ num / den + 1 := by
  simp only [roundQuotient]
  split
  · exact Nat.le_succ _
  · split
    · exact Nat.le_refl _
    · omega

theorem roundQuotient_mono (h : num ≤ num') : roundQuotient num den ≤ roundQuotient num' den := by
  have hfloor : num / den ≤ num' / den := Nat.div_le_div_right h
  rcases Nat.lt_or_eq_of_le hfloor with hlt | heq
  · exact (roundQuotient_le num den).trans (Nat.le_trans hlt (div_le_roundQuotient num' den))
  · -- the same floor, from which the smaller quotient is not farther away
    have hrest : num % den ≤ num' % den := by
      have hnum := Nat.div_add_mod num den
      have hnum' := Nat.div_add_mod num' den
      rw [heq] at hnum
      omega
    simp only [roundQuotient, heq]
    split_ifs <;> omega

/-- A shift leaves fewer than 53 bits before a quotient is rounded. -/
theorem roundQuotient_le_of_log2 {shift : Nat} (h : Nat.log2 (num / den) ≤ shift + 52) :
    roundQuotient num (den * Nat.pow 2 shift) ≤ 2 * Nat.pow 2 52 := by
  have hbits : num / den < 2 ^ (shift + 52 + 1) :=
    Nat.lt_of_lt_of_le Nat.lt_log2_self (Nat.pow_le_pow_right (by decide) (Nat.succ_le_succ h))
  have hfloor : num / (den * Nat.pow 2 shift) < 2 ^ 53 := by
    rw [← Nat.div_div_eq_div_mul]
    apply Nat.div_lt_of_lt_mul
    rwa [Nat.pow_eq, ← Nat.pow_add]
  exact (roundQuotient_le _ _).trans hfloor

/-- A shift by the leading bit leaves 53 bits before a quotient is rounded. -/
theorem le_roundQuotient_of_log2 {shift : Nat} (hpos : num / den ≠ 0)
    (h : shift + 52 ≤ Nat.log2 (num / den)) :
    Nat.pow 2 52 ≤ roundQuotient num (den * Nat.pow 2 shift) := by
  have hbits : 2 ^ (52 + shift) ≤ num / den := (Nat.le_log2 hpos).1 (by omega)
  refine Nat.le_trans ?_ (div_le_roundQuotient _ _)
  rw [← Nat.div_div_eq_div_mul, Nat.le_div_iff_mul_le (two_pow_pos shift)]
  rwa [Nat.pow_eq, Nat.pow_eq, ← Nat.pow_add]

theorem log2_mono {a b : Nat} (h : a ≤ b) : Nat.log2 a ≤ Nat.log2 b := by
  rcases Nat.eq_zero_or_pos a with rfl | ha
  · exact Nat.zero_le _
  · exact (Nat.le_log2 (Nat.lt_of_lt_of_le ha h).ne').2 ((Nat.log2_self_le ha.ne').trans h)

/-- A larger quotient has no smaller nearest magnitude. -/
theorem nearestMagnitude_mono (h : num ≤ num') :
    nearestMagnitude num den ≤ nearestMagnitude num' den := by
  have hscaled : num * unitsOfOne ≤ num' * unitsOfOne := Nat.mul_le_mul_right _ h
  rw [nearestMagnitude_of_shift rfl, nearestMagnitude_of_shift rfl]
  apply min_le_min_right
  generalize num * unitsOfOne = a at *
  generalize num' * unitsOfOne = b at *
  have hlog : Nat.log2 (a / den) ≤ Nat.log2 (b / den) := log2_mono (Nat.div_le_div_right hscaled)
  rcases Nat.lt_or_eq_of_le (Nat.sub_le_sub_right hlog 52) with hlt | heq
  · -- the smaller quotient rounds at most to the first magnitude with the next shift
    have hb : b / den ≠ 0 := by
      intro hzero
      rw [hzero] at hlt
      exact absurd hlt (Nat.not_lt_zero _)
    have hlow : roundQuotient a (den * Nat.pow 2 (Nat.log2 (a / den) - 52)) ≤ 2 * Nat.pow 2 52 :=
      roundQuotient_le_of_log2 (by omega)
    have hhigh : Nat.pow 2 52 ≤ roundQuotient b (den * Nat.pow 2 (Nat.log2 (b / den) - 52)) :=
      le_roundQuotient_of_log2 hb (by omega)
    have hshift := Nat.mul_le_mul_right (Nat.pow 2 52) (Nat.succ_le_of_lt hlt)
    rw [Nat.succ_mul] at hshift
    omega
  · rw [heq]
    exact Nat.add_le_add_left (roundQuotient_mono hscaled) _

end Quotients

/-- A larger signed quotient has no smaller nearest number. -/
theorem rank_nearest_mono (den : Nat) {i j : Int} (h : i ≤ j) :
    rank (nearest (decide (i < 0)) i.natAbs den) ≤
      rank (nearest (decide (j < 0)) j.natAbs den) := by
  simp only [rank, nearest, ofMagnitude, decide_eq_true_eq]
  split
  · next hi =>
      split
      · have hmagnitude : nearestMagnitude j.natAbs den ≤ nearestMagnitude i.natAbs den :=
          nearestMagnitude_mono (by omega)
        have hcut := min_le_min_right infinity hmagnitude
        omega
      · omega
  · next hi =>
      have hj : ¬ j < 0 := by omega
      rw [if_neg hj]
      have hmagnitude : nearestMagnitude i.natAbs den ≤ nearestMagnitude j.natAbs den :=
        nearestMagnitude_mono (by omega)
      exact Int.ofNat_le.2 (min_le_min_right infinity hmagnitude)

/-- A larger integer has no smaller nearest number. -/
theorem rank_ofInt_mono {i j : Int} (h : i ≤ j) : rank (ofInt i) ≤ rank (ofInt j) :=
  rank_nearest_mono 1 h

end DatalogPolicy.Binary64

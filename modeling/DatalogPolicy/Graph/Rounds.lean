/-!
# Rounds

A step is repeated until it changes nothing, or as often as is allowed. What it
leaves is the same as if the step had been repeated as often as is allowed.
-/

namespace DatalogPolicy

/-- Repeats a step until it changes nothing, at most `n` times. -/
def rounds [DecidableEq α] (step : α → α) : Nat → α → α
  | 0, x => x
  | n + 1, x =>
      let next := step x
      if next = x then x else rounds step n next

/-- The first of several repetitions may be made in front. -/
theorem repeat_succ_front (step : α → α) (n : Nat) (x : α) :
    Nat.repeat step (n + 1) x = Nat.repeat step n (step x) := by
  induction n with
  | zero => rfl
  | succ n ih =>
      show step (Nat.repeat step (n + 1) x) = step (Nat.repeat step n (step x))
      rw [ih]

/-- Repeating a step that changes nothing changes nothing. -/
theorem repeat_fixed {step : α → α} {x : α} (h : step x = x) (n : Nat) :
    Nat.repeat step n x = x := by
  induction n with
  | zero => rfl
  | succ n ih =>
      show step (Nat.repeat step n x) = x
      rw [ih, h]

/-- Stopping early makes no difference. -/
theorem rounds_eq_repeat [DecidableEq α] (step : α → α) (n : Nat) (x : α) :
    rounds step n x = Nat.repeat step n x := by
  induction n generalizing x with
  | zero => rfl
  | succ n ih =>
      simp only [rounds]
      split
      · next h => exact (repeat_fixed h (n + 1)).symm
      · rw [ih, repeat_succ_front]

end DatalogPolicy

import Mathlib.Data.Nat.Notation
import Mathlib.Logic.Function.Basic
import Mathlib.Tactic.Common

/-!
# Copies of ranges that may overlap

## Main definitions

* `memmove` — the copy, in the direction that does not overwrite what is still to be read

## Main results

* `memmove_apply` — every element of the range holds what its source held before
-/

namespace KyroOS.Strings

variable {β : Type*}

/-- The loop of `memmove` that copies forwards, from the index `i` on and for a number of turns. -/
def copyForwards (d s : ℕ) (m : ℕ → β) (i : ℕ) : ℕ → ℕ → β
  | 0 => m
  | turns + 1 => copyForwards d s (Function.update m (d + i) (m (s + i))) (i + 1) turns

/-- The loop of `memmove` that copies backwards. -/
def copyBackwards (d s : ℕ) (m : ℕ → β) : ℕ → ℕ → β
  | 0 => m
  | i + 1 => copyBackwards d s (Function.update m (d + i) (m (s + i))) i

/-- `memmove` -/
def memmove (m : ℕ → β) (d s n : ℕ) : ℕ → β :=
  if d = s then m
  else if d < s then copyForwards d s m 0 n
  else copyBackwards d s m n

variable {m : ℕ → β} {d s x : ℕ}

/-- Forwards, what is stored lies in front of what is still to be read, or behind all of it. -/
theorem copyForwards_apply (turns i : ℕ) (hreads : d < s ∨ s + i + turns ≤ d + i) (m : ℕ → β)
    (x : ℕ) :
    copyForwards d s m i turns x =
      if d + i ≤ x ∧ x < d + i + turns then m (s + (x - d)) else m x := by
  induction turns generalizing i m with
  | zero => exact (if_neg (by omega)).symm
  | succ turns ih =>
    rw [copyForwards, ih (i + 1) (by omega)]
    by_cases hlater : d + (i + 1) ≤ x ∧ x < d + (i + 1) + turns
    · rw [if_pos hlater, if_pos (by omega), Function.update_of_ne (by omega)]
    · rw [if_neg hlater]
      by_cases hnow : x = d + i
      · rw [if_pos (by omega), hnow, Function.update_self, Nat.add_sub_cancel_left]
      · rw [if_neg (by omega), Function.update_of_ne hnow]

/-- Backwards, it lies behind. -/
theorem copyBackwards_apply (hlt : s < d) (n : ℕ) (m : ℕ → β) (x : ℕ) :
    copyBackwards d s m n x = if d ≤ x ∧ x < d + n then m (s + (x - d)) else m x := by
  induction n generalizing m with
  | zero => exact (if_neg (by omega)).symm
  | succ n ih =>
    rw [copyBackwards, ih]
    by_cases hlater : d ≤ x ∧ x < d + n
    · rw [if_pos hlater, if_pos (by omega), Function.update_of_ne (by omega)]
    · rw [if_neg hlater]
      by_cases hnow : x = d + n
      · rw [if_pos (by omega), hnow, Function.update_self, Nat.add_sub_cancel_left]
      · rw [if_neg (by omega), Function.update_of_ne hnow]

/-- Every element of the range holds what its source held before, and the others are as before. -/
theorem memmove_apply (m : ℕ → β) (d s n x : ℕ) :
    memmove m d s n x = if d ≤ x ∧ x < d + n then m (s + (x - d)) else m x := by
  unfold memmove
  by_cases heq : d = s
  · rw [if_pos heq, heq]
    split
    · next hin => rw [Nat.add_sub_cancel' hin.1]
    · rfl
  · rw [if_neg heq]
    by_cases hlt : d < s
    · rw [if_pos hlt, copyForwards_apply n 0 (.inl hlt), Nat.add_zero]
    · rw [if_neg hlt, copyBackwards_apply (by omega)]

end KyroOS.Strings

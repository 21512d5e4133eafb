import Mathlib.Data.List.Basic
import Mathlib.Data.List.TakeWhile
import Mathlib.Logic.Function.Basic

/-!
# Strings in arrays

A string in an array goes up to the first zero. It is copied to another array one character after
the other.

## Main definitions

* `chars` — the characters in front of the first zero
* `strncpy` — the copy of a string into a field that is filled up with zeros

## Main results

* `chars_eq_take` — the string of an array that a text was written to
* `strncpy_of_lt`, `strncpy_of_outside` — what the copy leaves in the field, and elsewhere
-/

namespace CharArray

variable {β : Type*} [Zero β] [DecidableEq β]

/-- The characters in front of the first zero, among the first `n` cells. -/
def chars (a : ℕ → β) (n : ℕ) : List β := ((List.range n).map a).takeWhile (· ≠ 0)

/-- The loop that copies characters up to a zero, from the index `i` on and for a number of turns:
the array and the index at its end. -/
def copyChars (p : ℕ) (src : ℕ → β) (dest : ℕ → β) (i : ℕ) : ℕ → (ℕ → β) × ℕ
  | 0 => (dest, i)
  | turns + 1 =>
    if src i ≠ 0 then copyChars p src (Function.update dest (p + i) (src i)) (i + 1) turns
    else (dest, i)

/-- The loop that stores zeros. -/
def fillZeros (p : ℕ) (dest : ℕ → β) (i : ℕ) : ℕ → ℕ → β
  | 0 => dest
  | turns + 1 => fillZeros p (Function.update dest (p + i) 0) (i + 1) turns

/-- `strncpy` to the cells from `p` on. -/
def strncpy (dest : ℕ → β) (p : ℕ) (src : ℕ → β) (n : ℕ) : ℕ → β :=
  let (dest, i) := copyChars p src dest 0 n
  fillZeros p dest i (n - i)

variable {a b src dest : ℕ → β} {n p i : ℕ}

@[simp] theorem chars_zero : chars a 0 = [] := rfl

theorem chars_succ : chars a (n + 1) = if a 0 = 0 then [] else a 0 :: chars (fun i => a (i + 1)) n := by
  rw [chars, List.range_succ_eq_map, List.map_cons, List.map_map, List.takeWhile_cons]
  by_cases h : a 0 = 0
  · simp [h]
  · simp [h, chars, Function.comp_def]

theorem length_chars_le : (chars a n).length ≤ n := by
  have h := (List.takeWhile_sublist (fun x : β => decide (x ≠ 0)) (l := (List.range n).map a)).length_le
  rwa [List.length_map, List.length_range] at h

/-- A character of the string is where it stands in the array. -/
theorem chars_getElem? (hi : i < (chars a n).length) : (chars a n)[i]? = some (a i) := by
  have hprefix := List.takeWhile_prefix (fun x : β => decide (x ≠ 0)) (l := (List.range n).map a)
  have hlt : i < n := hi.trans_le length_chars_le
  have hsame := List.prefix_iff_getElem?.mp hprefix i hi
  rw [List.getElem?_map, List.getElem?_range hlt] at hsame
  rw [List.getElem?_eq_getElem hi]
  exact hsame.symm

/-- The string of an array that starts with a text and a zero behind it. -/
theorem chars_eq_take {text : List β} (ha : ∀ i < n, i ≤ text.length → a i = text.getD i 0) :
    chars a n = (text.takeWhile (· ≠ 0)).take n := by
  induction text generalizing a n with
  | nil =>
    cases n with
    | zero => rfl
    | succ n =>
      have hzero : a 0 = 0 := ha 0 (Nat.succ_pos n) le_rfl
      rw [chars_succ, if_pos hzero]
      rfl
  | cons c text ih =>
    cases n with
    | zero => simp
    | succ n =>
      have hc : a 0 = c := ha 0 (Nat.succ_pos n) (Nat.zero_le _)
      have hrest := @ih (fun i => a (i + 1)) n fun i hi hle =>
        ha (i + 1) (Nat.succ_lt_succ hi) (Nat.succ_le_succ hle)
      rw [chars_succ, hc, hrest]
      by_cases hzero : c = 0
      · simp [hzero]
      · simp [hzero]

/-! ### The copy -/

theorem copyChars_eq (turns i : ℕ) (dest : ℕ → β) :
    copyChars p src dest i turns =
      (fun x => if p + i ≤ x ∧ x < p + i + (chars (fun k => src (i + k)) turns).length
        then src (x - p) else dest x,
      i + (chars (fun k => src (i + k)) turns).length) := by
  induction turns generalizing i dest with
  | zero =>
    refine Prod.ext (funext fun x => ?_) rfl
    exact (if_neg (by simp)).symm
  | succ turns ih =>
    rw [copyChars, chars_succ]
    by_cases hzero : src i = 0
    · rw [if_neg (not_not.mpr hzero), if_pos (by simpa using hzero)]
      refine Prod.ext (funext fun x => ?_) rfl
      exact (if_neg (by simp)).symm
    · have hshift : (fun k => src (i + 1 + k)) = fun k => src (i + (k + 1)) :=
        funext fun k => congrArg src (by omega)
      rw [if_pos hzero, ih, if_neg (by simpa using hzero), hshift, List.length_cons]
      refine Prod.ext (funext fun x => ?_) (by simp only; omega)
      simp only [Function.update_apply]
      by_cases hx : x = p + i
      · subst hx
        simp
      · by_cases hin : p + i ≤ x
        · simp only [hx, if_false, show p + (i + 1) ≤ x by omega, hin, true_and]
          congr 1
          exact propext (by omega)
        · simp only [hx, if_false, show ¬ p + (i + 1) ≤ x by omega, hin, false_and]

omit [DecidableEq β] in
theorem fillZeros_eq (turns i : ℕ) (dest : ℕ → β) :
    fillZeros p dest i turns = fun x => if p + i ≤ x ∧ x < p + i + turns then 0 else dest x := by
  induction turns generalizing i dest with
  | zero =>
    funext x
    exact (if_neg (by omega)).symm
  | succ turns ih =>
    funext x
    rw [fillZeros, ih]
    simp only [Function.update_apply]
    by_cases hx : x = p + i
    · subst hx
      rw [if_pos rfl, if_pos (by omega : p + i ≤ p + i ∧ p + i < p + i + (turns + 1)), ite_id]
    · rw [if_neg hx]
      congr 1
      exact propext (by omega)

/-- The whole copy. -/
theorem strncpy_eq : strncpy dest p src n = fun x =>
    if p + (chars src n).length ≤ x ∧ x < p + n then 0
    else if p ≤ x ∧ x < p + (chars src n).length then src (x - p) else dest x := by
  have hcopy : copyChars p src dest 0 n =
      (fun x => if p ≤ x ∧ x < p + (chars src n).length then src (x - p) else dest x,
        (chars src n).length) := by
    simpa using copyChars_eq (p := p) n 0 dest
  have hle := length_chars_le (a := src) (n := n)
  rw [strncpy, hcopy]
  dsimp only
  rw [fillZeros_eq]
  funext x
  congr 1
  exact propext (by omega)

/-- The field holds the string, filled up with zeros. -/
theorem strncpy_of_lt (hi : i < n) :
    strncpy dest p src n (p + i) = (chars src n).getD i 0 := by
  have hle := length_chars_le (a := src) (n := n)
  rw [strncpy_eq, List.getD_eq_getElem?_getD]
  dsimp only
  by_cases hin : i < (chars src n).length
  · rw [if_neg (by omega), if_pos (by omega), chars_getElem? hin, Nat.add_sub_cancel_left]
    rfl
  · rw [if_pos (by omega), List.getElem?_eq_none (by omega)]
    rfl

/-- Nothing else is changed. -/
theorem strncpy_of_outside (hi : i < p ∨ p + n ≤ i) : strncpy dest p src n i = dest i := by
  have hle := length_chars_le (a := src) (n := n)
  rw [strncpy_eq]
  dsimp only
  rw [if_neg (by omega), if_neg (by omega)]

end CharArray

import Mathlib.Logic.Function.Basic
import Mathlib.Data.List.Range
import Mathlib.Tactic

/-!
# Ring buffers

A ring buffer of capacity `cap` keeps its elements in the slots `head`, `head + 1`, …
taken modulo `cap`. Its contents, read from the head, behave as a queue.

## Main definitions

* `contents` — the elements from the head on

## Main results

* `contents_pop` — the element at the head is the first one
* `contents_push` — an element stored behind the last one is appended
-/

namespace RingBuffer

variable {α : Type*} {cap head size : ℕ} {buf : ℕ → α}

/-- The `size` elements of a ring buffer, from slot `head` on. -/
def contents (cap : ℕ) (buf : ℕ → α) (head size : ℕ) : List α :=
  (List.range size).map fun i => buf ((head + i) % cap)

@[simp] theorem contents_zero : contents cap buf head 0 = [] := rfl

@[simp] theorem length_contents : (contents cap buf head size).length = size := by
  simp [contents]

/-- Reading at the head takes the first element off. -/
theorem contents_pop (hhead : head < cap) :
    contents cap buf head (size + 1) =
      buf head :: contents cap buf ((head + 1) % cap) size := by
  rw [contents, List.range_succ_eq_map, List.map_cons, List.map_map]
  congr 1
  · rw [Nat.add_zero, Nat.mod_eq_of_lt hhead]
  · refine List.map_congr_left fun i _ => ?_
    simp only [Function.comp_apply, Nat.mod_add_mod]
    congr 2
    omega

/-- Two slots within one turn of the ring differ. -/
theorem slot_ne {i : ℕ} (hi : i < size) (hsize : size < cap) :
    (head + i) % cap ≠ (head + size) % cap := by
  intro h
  have hmod : i % cap = size % cap := Nat.ModEq.add_left_cancel' head h
  rw [Nat.mod_eq_of_lt (hi.trans hsize), Nat.mod_eq_of_lt hsize] at hmod
  omega

/-- Writing behind the last element appends. -/
theorem contents_push (hsize : size < cap) (a : α) :
    contents cap (Function.update buf ((head + size) % cap) a) head (size + 1) =
      contents cap buf head size ++ [a] := by
  rw [contents, List.range_succ, List.map_append]
  congr 1
  · refine List.map_congr_left fun i hi => ?_
    rw [Function.update_of_ne (slot_ne (List.mem_range.mp hi) hsize)]
  · simp

/-- The slot behind the last element stays where it is when the head moves on. -/
theorem tail_pop : ((head + 1) % cap + size) % cap = (head + (size + 1)) % cap := by
  rw [Nat.mod_add_mod]
  congr 1
  omega

/-- The slot behind the last element moves on when an element is appended. -/
theorem tail_push : ((head + size) % cap + 1) % cap = (head + (size + 1)) % cap := by
  rw [Nat.mod_add_mod]
  congr 1

end RingBuffer

import Mathlib.Data.List.Basic
import Mathlib.Data.List.TakeWhile

/-!
# Arrays with bounds

A store to an array of `n` cells is a failure when it goes beyond the last cell. A string in an
array ends at the first zero, and an array without a zero has none.

## Main definitions

* `storeAt` — a store of some values from an index on
* `str` — the string of an array
* `strcpy`, `strcat` — the copy of a string, and the one behind another

## Main results

* `storeAt_append` — a long store is two short ones
* `storeAt_restore` — a value that is put back
* `str_eq_some_iff` — the string of an array
* `strcpy_of_lt`, `strcat_of_lt` — a copy that fits
-/

namespace BoundedArray

variable {β : Type*} {n i : ℕ}

/-- The array with some values in the cells from `i` on, when there are as many. -/
def storeAt (a : Vector β n) (i : ℕ) (xs : List β) : Option (Vector β n) :=
  if h : i + xs.length ≤ n then
    some ⟨(a.toList.take i ++ (xs ++ a.toList.drop (i + xs.length))).toArray, by
      simp only [List.size_toArray, List.length_append, List.length_take, List.length_drop,
        Vector.length_toList]
      omega⟩
  else none

section Store

variable {a b : Vector β n} {x y : β} {xs ys : List β}

theorem storeAt_eq_none (h : n < i + xs.length) : storeAt a i xs = none :=
  dif_neg (Nat.not_le.mpr h)

/-- What a store leaves. -/
theorem storeAt_eq_some_iff : storeAt a i xs = some b ↔ i + xs.length ≤ n ∧
    b.toList = a.toList.take i ++ (xs ++ a.toList.drop (i + xs.length)) := by
  unfold storeAt
  split
  · next h =>
    rw [Option.some.injEq]
    constructor
    · rintro rfl
      exact ⟨h, rfl⟩
    · exact fun hb => Vector.toList_inj.mp hb.2.symm
  · next h => simp [h]

theorem storeAt_of_le (a : Vector β n) (i : ℕ) (xs : List β) (h : i + xs.length ≤ n) :
    ∃ b, storeAt a i xs = some b := ⟨_, dif_pos h⟩

/-- The cells up to the end of a store, and those behind it. -/
theorem take_drop_of_storeAt (h : storeAt a i xs = some b) :
    b.toList.take (i + xs.length) = a.toList.take i ++ xs ∧
      b.toList.drop (i + xs.length) = a.toList.drop (i + xs.length) := by
  obtain ⟨hle, hcells⟩ := storeAt_eq_some_iff.mp h
  have hfront : (a.toList.take i ++ xs).length = i + xs.length := by
    rw [List.length_append, List.length_take, a.length_toList]
    omega
  rw [hcells, ← List.append_assoc]
  exact ⟨List.take_left' hfront, List.drop_left' hfront⟩

/-- A long store is two short ones. -/
theorem storeAt_append :
    storeAt a i (xs ++ ys) = (storeAt a i xs).bind fun b => storeAt b (i + xs.length) ys := by
  by_cases hxs : i + xs.length ≤ n
  · obtain ⟨b, hb⟩ := storeAt_of_le a i xs hxs
    rw [hb, Option.bind_some]
    by_cases hys : i + xs.length + ys.length ≤ n
    · -- the second store begins where the first one ends
      obtain ⟨c, hc⟩ := storeAt_of_le b _ ys hys
      obtain ⟨hsame, hbehind⟩ := take_drop_of_storeAt hb
      rw [hc, storeAt_eq_some_iff, (storeAt_eq_some_iff.mp hc).2, hsame, ← List.drop_drop, hbehind,
        List.drop_drop, List.length_append, ← Nat.add_assoc]
      exact ⟨hys, by simp only [List.append_assoc]⟩
    · have hlong : n < i + (xs ++ ys).length := by
        rw [List.length_append]
        omega
      rw [storeAt_eq_none hlong, storeAt_eq_none (Nat.lt_of_not_le hys)]
  · have hlong : n < i + (xs ++ ys).length := by
      rw [List.length_append]
      omega
    rw [storeAt_eq_none hlong, storeAt_eq_none (Nat.lt_of_not_le hxs)]
    rfl

/-- A value that was replaced is put back. -/
theorem storeAt_restore (hb : storeAt a i [x] = some b) (hy : a.toList[i]? = some y) :
    storeAt b i [y] = some a := by
  obtain ⟨hi, hget⟩ := List.getElem?_eq_some_iff.mp hy
  obtain ⟨hsame, hbehind⟩ := take_drop_of_storeAt hb
  rw [List.length_singleton] at hsame hbehind
  rw [storeAt_eq_some_iff, List.length_singleton, hbehind]
  refine ⟨(storeAt_eq_some_iff.mp hb).1, ?_⟩
  have hfront : b.toList.take i = a.toList.take i := by
    have htake := congrArg (List.take i) hsame
    rwa [List.take_take, Nat.min_eq_left (Nat.le_succ i),
      List.take_left' (List.length_take_of_le hi.le)] at htake
  rw [hfront, ← hget, List.singleton_append, List.getElem_cons_drop, List.take_append_drop]

end Store

/-! ### Strings -/

section Strings

variable [Zero β] [DecidableEq β] {a b : Vector β n} {s t : List β}

/-- The string of an array, when it has an end. -/
def str (a : Vector β n) : Option (List β) :=
  if 0 ∈ a.toList then some (a.toList.takeWhile (· ≠ 0)) else none

/-- `strcpy` to the beginning of an array. -/
def strcpy (a : Vector β n) (s : List β) : Option (Vector β n) := storeAt a 0 (s ++ [0])

/-- `strcat` to the string of an array. -/
def strcat (a : Vector β n) (s : List β) : Option (Vector β n) :=
  (str a).bind fun t => storeAt a t.length (s ++ [0])

theorem str_eq_none_iff : str a = none ↔ 0 ∉ a.toList := by
  simp [str]

/-- The string stands in front of the first zero. -/
theorem str_eq_some_iff : str a = some s ↔ 0 ∉ s ∧ ∃ rest, a.toList = s ++ 0 :: rest := by
  constructor
  · intro h
    obtain ⟨hmem, hs⟩ := Option.ite_none_right_eq_some.mp h
    obtain rfl := Option.some.inj hs
    refine ⟨fun hzero => by simpa using List.mem_takeWhile_imp hzero, ?_⟩
    cases hdrop : a.toList.dropWhile (· ≠ 0) with
    | nil =>
      have hall := List.dropWhile_eq_nil_iff.mp hdrop 0 hmem
      simp at hall
    | cons x rest =>
      have hx := List.head?_dropWhile_not (fun x : β => decide (x ≠ 0)) a.toList
      rw [hdrop] at hx
      obtain rfl : x = 0 := by simpa using hx
      refine ⟨rest, ?_⟩
      rw [← hdrop, List.takeWhile_append_dropWhile]
  · rintro ⟨hs, rest, hcells⟩
    have hall : ∀ x ∈ s, decide (x ≠ 0) = true := fun x hx =>
      decide_eq_true fun hzero => hs (hzero ▸ hx)
    rw [str, if_pos (by simp [hcells]), hcells, List.takeWhile_append_of_pos hall,
      List.takeWhile_cons_of_neg (by simp), List.append_nil]

theorem length_lt_of_str (h : str a = some s) : s.length < n := by
  obtain ⟨-, rest, hcells⟩ := str_eq_some_iff.mp h
  have hlength := a.length_toList
  rw [hcells, List.length_append, List.length_cons] at hlength
  omega

/-- A string ends at a zero, if not before. -/
theorem takeWhile_append_zero (front rest : List β) :
    (front ++ 0 :: rest).takeWhile (· ≠ 0) = front.takeWhile (· ≠ 0) := by
  induction front with
  | nil => exact List.takeWhile_cons_of_neg (by simp)
  | cons c front ih => rw [List.cons_append, List.takeWhile_cons, List.takeWhile_cons, ih]

/-- The string of an array that a zero was stored to. -/
theorem str_storeAt (h : storeAt a i (s ++ [0]) = some b) :
    str b = some ((a.toList.take i ++ s).takeWhile (· ≠ 0)) := by
  have hcells := (storeAt_eq_some_iff.mp h).2
  rw [List.append_assoc, List.singleton_append, ← List.append_assoc] at hcells
  have hmem : 0 ∈ b.toList := by
    rw [hcells]
    exact List.mem_append_right _ List.mem_cons_self
  rw [str, if_pos hmem, hcells, takeWhile_append_zero]

/-- A string that is put behind the beginning of another. -/
theorem str_storeAt_of_not_mem (hfront : 0 ∉ a.toList.take i) (hs : 0 ∉ s)
    (h : storeAt a i (s ++ [0]) = some b) : str b = some (a.toList.take i ++ s) := by
  rw [str_storeAt h, List.takeWhile_eq_self_iff.mpr]
  intro c hc
  refine decide_eq_true fun hzero => ?_
  exact (List.mem_append.mp hc).elim (hzero ▸ hfront) (hzero ▸ hs)

/-- A copy that fits. -/
theorem strcpy_of_lt (hs : 0 ∉ s) (h : s.length < n) : ∃ b, strcpy a s = some b ∧ str b = some s := by
  obtain ⟨b, hb⟩ := storeAt_of_le a 0 (s ++ [0]) (by
    rw [List.length_append, List.length_singleton]
    omega)
  refine ⟨b, hb, ?_⟩
  rw [str_storeAt_of_not_mem (by simp) hs hb, List.take_zero, List.nil_append]

/-- A copy that fits behind a string. -/
theorem strcat_of_lt (ha : str a = some t) (hs : 0 ∉ s) (h : t.length + s.length < n) :
    ∃ b, strcat a s = some b ∧ str b = some (t ++ s) := by
  obtain ⟨b, hb⟩ := storeAt_of_le a t.length (s ++ [0]) (by
    rw [List.length_append, List.length_singleton]
    omega)
  obtain ⟨ht, rest, hcells⟩ := str_eq_some_iff.mp ha
  have hfront : a.toList.take t.length = t := by rw [hcells, List.take_left]
  refine ⟨b, by rw [strcat, ha, Option.bind_some, hb], ?_⟩
  have hfree : 0 ∉ a.toList.take t.length := by rwa [hfront]
  rw [str_storeAt_of_not_mem hfree hs hb, hfront]

end Strings

end BoundedArray

import Mathlib.Data.List.Basic

/-!
# Overwriting a part of a list

A list is overwritten from an offset on; where the offset lies behind its end, the gap is filled.

## Main definitions

* `splice` — `data` written over `text` at `off`

## Main results

* `getElem?_splice` — what is found at each place afterwards
* `splice_eq_splice_iff` — two fillings give the same list when they agree on the gap
* `take_splice_of_le` — overwriting inside of a buffer, seen through the part in use
-/

namespace Splice

variable {α : Type*} {f g : ℕ → α} {text data buf : List α} {off i : ℕ}

/-- `data` written over `text` at `off`, the gap behind the end of `text` filled from `fill`. -/
def splice (fill : ℕ → α) (text : List α) (off : ℕ) (data : List α) : List α :=
  text.take off ++ (List.range' text.length (off - text.length)).map fill ++ data ++
    text.drop (off + data.length)

theorem length_splice : (splice f text off data).length = max text.length (off + data.length) := by
  simp only [splice, List.length_append, List.length_take, List.length_map, List.length_range',
    List.length_drop]
  omega

/-- The list before the offset, with the gap filled. -/
theorem getElem?_padded (hi : i < off) :
    (text.take off ++ (List.range' text.length (off - text.length)).map f)[i]? =
      if i < text.length then text[i]? else some (f i) := by
  split_ifs with hlt
  · rw [List.getElem?_append_left (by rw [List.length_take]; omega), List.getElem?_take, if_pos hi]
  · have htake : (text.take off).length = text.length := by
      rw [List.length_take]
      omega
    rw [List.getElem?_append_right (by omega), htake, List.getElem?_map,
      List.getElem?_range' (by omega)]
    exact congrArg (fun j => some (f j)) (by omega)

theorem length_padded :
    (text.take off ++ (List.range' text.length (off - text.length)).map f).length = off := by
  simp only [List.length_append, List.length_take, List.length_map, List.length_range']
  omega

theorem getElem?_splice : (splice f text off data)[i]? =
    if i < off then (if i < text.length then text[i]? else some (f i))
    else if i < off + data.length then data[i - off]? else text[i]? := by
  unfold splice
  split_ifs with hoff hlt hend
  · rw [List.append_assoc, List.getElem?_append_left (by rwa [length_padded]),
      getElem?_padded hoff, if_pos hlt]
  · rw [List.append_assoc, List.getElem?_append_left (by rwa [length_padded]),
      getElem?_padded hoff, if_neg hlt]
  · rw [List.append_assoc, List.getElem?_append_right (by rw [length_padded]; omega), length_padded,
      List.getElem?_append_left (by omega)]
  · rw [List.append_assoc, List.getElem?_append_right (by rw [length_padded]; omega), length_padded,
      List.getElem?_append_right (by omega), List.getElem?_drop]
    exact congrArg (text[·]?) (by omega)

/-- Two fillings give the same list when they agree on the gap. -/
theorem splice_eq_splice_iff : splice f text off data = splice g text off data ↔
    ∀ i, text.length ≤ i → i < off → f i = g i := by
  constructor
  · intro heq i hle hlt
    have hi : (splice f text off data)[i]? = (splice g text off data)[i]? := by rw [heq]
    rw [getElem?_splice, getElem?_splice, if_pos hlt, if_neg (by omega), if_pos hlt,
      if_neg (by omega)] at hi
    exact Option.some.inj hi
  · intro hfill
    apply List.ext_getElem?
    intro i
    rw [getElem?_splice, getElem?_splice]
    split_ifs with hoff hlt
    · rfl
    · exact congrArg some (hfill i (by omega) hoff)
    · rfl
    · rfl

/-- Overwriting inside of a buffer, seen through the part in use: the gap keeps the bytes that
the buffer had there. -/
theorem take_splice_of_le {used : ℕ} (hused : used ≤ buf.length)
    (hend : off + data.length ≤ buf.length) (hf : ∀ i, used ≤ i → i < off → buf[i]? = some (f i)) :
    (splice f buf off data).take (max used (off + data.length)) =
      splice f (buf.take used) off data := by
  apply List.ext_getElem?
  intro i
  have hlen : (buf.take used).length = used := by
    rw [List.length_take]
    omega
  rw [List.getElem?_take, getElem?_splice, getElem?_splice, hlen]
  by_cases hoff : i < off
  · rw [if_pos (by omega), if_pos hoff, if_pos (by omega), if_pos hoff]
    split_ifs with hi
    · rw [List.getElem?_take, if_pos hi]
    · exact hf i (by omega) hoff
  · rw [if_neg hoff, if_neg hoff]
    by_cases hlt : i < off + data.length
    · rw [if_pos (by omega), if_pos hlt, if_pos hlt]
    · rw [if_neg hlt, if_neg hlt, List.getElem?_take]
      split_ifs with hmax hi <;> first | rfl | omega

/-- Where there is no gap, the list before and behind is kept. -/
theorem splice_of_le (h : off ≤ text.length) :
    splice f text off data = text.take off ++ data ++ text.drop (off + data.length) := by
  rw [splice, Nat.sub_eq_zero_of_le h, List.range'_zero, List.map_nil, List.append_nil]

end Splice

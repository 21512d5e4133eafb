import KyroOS.Basic
import Mathlib.Tactic

/-!
# Words in packets

A packet is memory from its first byte on. The processor reads and writes the fields of a packet in
little-endian order, and `__builtin_bswap16` and `__builtin_bswap32` turn a field in network byte
order into a number of the host and back.

## Main definitions

* `load16`, `load32`, `store16`, `store32` — fields in memory
* `bswap16`, `bswap32` — reversing the bytes of a word
* `Contains` — a list of bytes stands in memory

## Main results

* `bswap16_bswap16`, `bswap32_bswap32` — byte order is changed back
* `Contains.load16`, `Contains.load32` — what was stored is loaded
-/

namespace KyroOS.Net

/-- The memory from the first byte of a packet on. -/
abbrev Memory := ℕ → Byte

/-- The field of two bytes at `p`. -/
def load16 (m : Memory) (p : ℕ) : BitVec 16 := m (p + 1) ++ m p

/-- The field of four bytes at `p`. -/
def load32 (m : Memory) (p : ℕ) : BitVec 32 := load16 m (p + 2) ++ load16 m p

def store16 (w : BitVec 16) : List Byte := [w.extractLsb' 0 8, w.extractLsb' 8 8]

def store32 (w : BitVec 32) : List Byte :=
  store16 (w.extractLsb' 0 16) ++ store16 (w.extractLsb' 16 16)

/-- `__builtin_bswap16` -/
def bswap16 (w : BitVec 16) : BitVec 16 := w.extractLsb' 0 8 ++ w.extractLsb' 8 8

/-- `__builtin_bswap32` -/
def bswap32 (w : BitVec 32) : BitVec 32 :=
  bswap16 (w.extractLsb' 0 16) ++ bswap16 (w.extractLsb' 16 16)

/-! ### Byte order -/

section Swap

theorem extract_append_low {n k : ℕ} (high : BitVec n) (low : BitVec k) :
    (high ++ low).extractLsb' 0 k = low := by
  apply BitVec.eq_of_getLsbD_eq
  intro i hi
  simp [BitVec.getLsbD_append, hi]

theorem extract_append_high {n k : ℕ} (high : BitVec n) (low : BitVec k) :
    (high ++ low).extractLsb' k n = high := by
  apply BitVec.eq_of_getLsbD_eq
  intro i hi
  simp [BitVec.getLsbD_append, hi]

/-- A word is put together from its halves. -/
theorem append_extract {n k : ℕ} (w : BitVec (n + k)) :
    w.extractLsb' k n ++ w.extractLsb' 0 k = w := by
  apply BitVec.eq_of_getLsbD_eq
  intro i hi
  rw [BitVec.getLsbD_append]
  by_cases hk : i < k
  · simp [hk]
  · simp [hk, show i - k < n by omega, show k + (i - k) = i by omega]

@[simp] theorem bswap16_bswap16 (w : BitVec 16) : bswap16 (bswap16 w) = w := by
  have hlow := extract_append_low (w.extractLsb' 0 8) (w.extractLsb' 8 8)
  have hhigh := extract_append_high (w.extractLsb' 0 8) (w.extractLsb' 8 8)
  unfold bswap16
  rw [hlow, hhigh]
  exact append_extract (n := 8) (k := 8) w

@[simp] theorem bswap32_bswap32 (w : BitVec 32) : bswap32 (bswap32 w) = w := by
  have hlow := extract_append_low (bswap16 (w.extractLsb' 0 16)) (bswap16 (w.extractLsb' 16 16))
  have hhigh := extract_append_high (bswap16 (w.extractLsb' 0 16)) (bswap16 (w.extractLsb' 16 16))
  unfold bswap32
  rw [hlow, hhigh, bswap16_bswap16, bswap16_bswap16]
  exact append_extract (n := 16) (k := 16) w

end Swap

/-! ### Bytes in memory -/

/-- The bytes stand in memory from `p` on. -/
def Contains (m : Memory) (p : ℕ) (bytes : List Byte) : Prop :=
  ∀ i, ∀ hi : i < bytes.length, m (p + i) = bytes.get ⟨i, hi⟩

/-- The bytes in memory from `p` on. -/
def bytesAt (m : Memory) (p n : ℕ) : List Byte := (List.range n).map fun i => m (p + i)

/-- A buffer as memory; what comes behind it is not read. -/
def ofBytes (bytes : List Byte) : Memory := fun i => bytes.getD i 0

section Contains

variable {m m' : Memory} {p n : ℕ} {xs ys bytes : List Byte}

@[simp] theorem length_bytesAt : (bytesAt m p n).length = n := by
  simp [bytesAt]

theorem contains_nil : Contains m p [] := fun _ hi => absurd hi (Nat.not_lt_zero _)

theorem contains_cons {b : Byte} :
    Contains m p (b :: bytes) ↔ m p = b ∧ Contains m (p + 1) bytes := by
  constructor
  · intro h
    refine ⟨h 0 (Nat.succ_pos _), fun i hi => ?_⟩
    have hnext := h (i + 1) (Nat.succ_lt_succ hi)
    rwa [← Nat.add_assoc, Nat.add_right_comm] at hnext
  · rintro ⟨hb, hrest⟩ i hi
    cases i with
    | zero => exact hb
    | succ i =>
      have hnext := hrest i (Nat.lt_of_succ_lt_succ hi)
      rw [Nat.add_right_comm] at hnext
      exact hnext

theorem contains_append :
    Contains m p (xs ++ ys) ↔ Contains m p xs ∧ Contains m (p + xs.length) ys := by
  induction xs generalizing p with
  | nil => simp [contains_nil]
  | cons b xs ih =>
    rw [List.cons_append, contains_cons, contains_cons, ih, List.length_cons, and_assoc,
      Nat.add_right_comm, Nat.add_assoc p]

/-- A range is its front and what follows it. -/
theorem bytesAt_add (m : Memory) (p n k : ℕ) :
    bytesAt m p (n + k) = bytesAt m p n ++ bytesAt m (p + n) k := by
  unfold bytesAt
  rw [List.range_add, List.map_append, List.map_map]
  congr 2
  funext i
  rw [Function.comp_apply, Nat.add_assoc]

theorem bytesAt_congr (h : ∀ i < n, m (p + i) = m' (p + i)) : bytesAt m p n = bytesAt m' p n :=
  List.map_congr_left fun i hi => h i (List.mem_range.mp hi)

/-- The bytes at a place are the bytes that stand there. -/
theorem Contains.bytesAt_eq (h : Contains m p bytes) : bytesAt m p bytes.length = bytes := by
  apply List.ext_getElem
  · exact length_bytesAt
  · intro i _ hi
    simpa [bytesAt] using h i hi

theorem contains_ofBytes : Contains (ofBytes bytes) 0 bytes := by
  intro i hi
  rw [Nat.zero_add, ofBytes, List.getD_eq_getElem?_getD, List.getElem?_eq_getElem hi]
  rfl

theorem Contains.load16 {w : BitVec 16} (h : Contains m p (store16 w)) : load16 m p = w := by
  obtain ⟨h₀, hrest⟩ := contains_cons.mp h
  obtain ⟨h₁, -⟩ := contains_cons.mp hrest
  rw [Net.load16, h₀, h₁]
  exact append_extract (n := 8) (k := 8) w

theorem Contains.load32 {w : BitVec 32} (h : Contains m p (store32 w)) : load32 m p = w := by
  obtain ⟨hlow, hhigh⟩ := contains_append.mp h
  rw [Net.load32, hlow.load16, Contains.load16 (p := p + 2) hhigh]
  exact append_extract (n := 16) (k := 16) w

@[simp] theorem length_store16 (w : BitVec 16) : (store16 w).length = 2 := rfl

@[simp] theorem length_store32 (w : BitVec 32) : (store32 w).length = 4 := rfl

/-- The two loads of the same two bytes. -/
theorem load16_congr {p' : ℕ} (h₀ : m p = m' p') (h₁ : m (p + 1) = m' (p' + 1)) :
    Net.load16 m p = Net.load16 m' p' := by
  rw [Net.load16, Net.load16, h₀, h₁]

end Contains

end KyroOS.Net

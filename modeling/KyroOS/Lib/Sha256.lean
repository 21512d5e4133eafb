import Mathlib.Data.List.Basic
import Mathlib.Data.Nat.Prime.Defs

/-!
# SHA-256

The hash function as it is specified: the constants, the padding of a message, its blocks and their
compression. The table of round constants is a parameter of the compression.

## Main definitions

* `roundConstants`, `initialHash` — roots of primes
* `blocks`, `padded` — the padded message and its blocks
* `compress` — the schedule and the rounds for one block
* `digestWith`, `digest` — the hash function

## Main results

* `roundConstants_cubeRoot`, `initialHash_squareRoot` — the constants are what they are said to be
* `blocks_append` — whole blocks in front
* `length_padded` — a padded message is cut into whole blocks
-/

namespace Sha256

/-! ### Constants -/

/-- The primes below `n`. -/
def primesBelow (n : ℕ) : List ℕ :=
  (List.range n).filter fun p => 2 ≤ p && (List.range p).all fun m => m < 2 || p % m != 0

theorem mem_primesBelow {n p : ℕ} : p ∈ primesBelow n ↔ p < n ∧ p.Prime := by
  rw [primesBelow, List.mem_filter, List.mem_range, Nat.prime_def_lt', Bool.and_eq_true,
    decide_eq_true_eq, List.all_eq_true]
  refine and_congr_right fun _ => and_congr_right fun _ => ?_
  constructor
  · intro h m hm hlt hdvd
    have hm' := h m (List.mem_range.mpr hlt)
    simp [not_lt.mpr hm, Nat.mod_eq_zero_of_dvd hdvd] at hm'
  · intro h m hmem
    by_cases hm : m < 2
    · simp [hm]
    · have hndvd := h m (not_lt.mp hm) (List.mem_range.mp hmem)
      simp [Nat.dvd_iff_mod_eq_zero.not.mp hndvd]

/-- The constants of the 64 rounds. -/
def roundConstants : List (BitVec 32) := [
  0x428a2f98, 0x71374491, 0xb5c0fbcf, 0xe9b5dba5, 0x3956c25b, 0x59f111f1, 0x923f82a4, 0xab1c5ed5,
  0xd807aa98, 0x12835b01, 0x243185be, 0x550c7dc3, 0x72be5d74, 0x80deb1fe, 0x9bdc06a7, 0xc19bf174,
  0xe49b69c1, 0xefbe4786, 0x0fc19dc6, 0x240ca1cc, 0x2de92c6f, 0x4a7484aa, 0x5cb0a9dc, 0x76f988da,
  0x983e5152, 0xa831c66d, 0xb00327c8, 0xbf597fc7, 0xc6e00bf3, 0xd5a79147, 0x06ca6351, 0x14292967,
  0x27b70a85, 0x2e1b2138, 0x4d2c6dfc, 0x53380d13, 0x650a7354, 0x766a0abb, 0x81c2c92e, 0x92722c85,
  0xa2bfe8a1, 0xa81a664b, 0xc24b8b70, 0xc76c51a3, 0xd192e819, 0xd6990624, 0xf40e3585, 0x106aa070,
  0x19a4c116, 0x1e376c08, 0x2748774c, 0x34b0bcb5, 0x391c0cb3, 0x4ed8aa4a, 0x5b9cca4f, 0x682e6ff3,
  0x748f82ee, 0x78a5636f, 0x84c87814, 0x8cc70208, 0x90befffa, 0xa4506ceb, 0xbef9a3f7, 0xc67178f2]

/-- The hash value before the first block. -/
def initialHash : Vector (BitVec 32) 8 :=
  #v[0x6a09e667, 0xbb67ae85, 0x3c6ef372, 0xa54ff53a, 0x510e527f, 0x9b05688c, 0x1f83d9ab, 0x5be0cd19]

/-- The 32 bits behind the point of the root of degree `d` of `p`. -/
def IsRootFraction (d p : ℕ) (k : BitVec 32) : Prop :=
  ∃ n < 20, (n * 2 ^ 32 + k.toNat) ^ d ≤ p * 2 ^ (32 * d) ∧
    p * 2 ^ (32 * d) < (n * 2 ^ 32 + k.toNat + 1) ^ d

instance (d p : ℕ) (k : BitVec 32) : Decidable (IsRootFraction d p k) := by
  unfold IsRootFraction
  infer_instance

/-- The round constants are the fractions of the cube roots of the first 64 primes. -/
theorem roundConstants_cubeRoot :
    List.Forall₂ (IsRootFraction 3) (primesBelow 312) roundConstants := by
  decide +kernel

/-- The initial hash value is that of the square roots of the first eight. -/
theorem initialHash_squareRoot :
    List.Forall₂ (IsRootFraction 2) (primesBelow 20) initialHash.toList := by
  decide +kernel

/-! ### The padded message -/

section Padding

variable {bs cs : List (BitVec 8)}

/-- The blocks of 64 bytes that a sequence of bytes is cut into. -/
def blocks (bs : List (BitVec 8)) : List (List (BitVec 8)) :=
  (List.range (bs.length / 64)).map fun i => (bs.drop (64 * i)).take 64

@[simp] theorem blocks_nil : blocks [] = [] := rfl

/-- One block. -/
theorem blocks_of_length (h : bs.length = 64) : blocks bs = [bs] := by
  rw [blocks, h]
  exact congrArg (fun b => [b]) (List.take_of_length_le h.le)

/-- Whole blocks in front. -/
theorem blocks_append (h : bs.length % 64 = 0) : blocks (bs ++ cs) = blocks bs ++ blocks cs := by
  obtain ⟨k, hk⟩ : ∃ k, bs.length = 64 * k := ⟨bs.length / 64, by omega⟩
  have hall : (bs ++ cs).length / 64 = k + cs.length / 64 := by
    rw [List.length_append, hk]
    omega
  have hfirst : bs.length / 64 = k := by omega
  rw [blocks, blocks, blocks, hall, hfirst, List.range_add, List.map_append, List.map_map]
  congr 1
  · refine List.map_congr_left fun i hi => ?_
    have hlt := List.mem_range.mp hi
    rw [List.drop_append_of_le_length (by omega),
      List.take_append_of_le_length (by rw [List.length_drop]; omega)]
  · refine List.map_congr_left fun i _ => ?_
    have hnil : bs.drop (bs.length + 64 * i) = [] := List.drop_eq_nil_of_le (by omega)
    rw [Function.comp_apply, Nat.mul_add, ← hk, List.drop_append, hnil, List.nil_append,
      Nat.add_sub_cancel_left]

/-- The bytes of a number of 64 bits, the first one first. -/
def bigEndian64 (n : BitVec 64) : List (BitVec 8) :=
  [n.extractLsb' 56 8, n.extractLsb' 48 8, n.extractLsb' 40 8, n.extractLsb' 32 8,
    n.extractLsb' 24 8, n.extractLsb' 16 8, n.extractLsb' 8 8, n.extractLsb' 0 8]

/-- The number of zero bytes behind the bit that ends a message of `n` bytes. -/
def zeros (n : ℕ) : ℕ := (119 - n % 64) % 64

/-- What is put behind a message of `n` bytes: a bit, zeros, and its length in bits. -/
def padding (n : ℕ) : List (BitVec 8) :=
  0x80 :: (List.replicate (zeros n) 0 ++ bigEndian64 (BitVec.ofNat 64 (8 * n)))

def padded (m : List (BitVec 8)) : List (BitVec 8) := m ++ padding m.length

/-- A padded message is cut into whole blocks. -/
theorem length_padded (m : List (BitVec 8)) : (padded m).length % 64 = 0 := by
  have hlength : (bigEndian64 (BitVec.ofNat 64 (8 * m.length))).length = 8 := rfl
  rw [padded, padding, List.length_append, List.length_cons, List.length_append,
    List.length_replicate, hlength, zeros]
  omega

end Padding

/-! ### The compression of a block -/

def ch (x y z : BitVec 32) : BitVec 32 := (x &&& y) ^^^ (~~~ x &&& z)

def maj (x y z : BitVec 32) : BitVec 32 := (x &&& y) ^^^ (x &&& z) ^^^ (y &&& z)

def bigSigma0 (x : BitVec 32) : BitVec 32 :=
  x.rotateRight 2 ^^^ x.rotateRight 13 ^^^ x.rotateRight 22

def bigSigma1 (x : BitVec 32) : BitVec 32 :=
  x.rotateRight 6 ^^^ x.rotateRight 11 ^^^ x.rotateRight 25

def smallSigma0 (x : BitVec 32) : BitVec 32 := x.rotateRight 7 ^^^ x.rotateRight 18 ^^^ x >>> 3

def smallSigma1 (x : BitVec 32) : BitVec 32 := x.rotateRight 17 ^^^ x.rotateRight 19 ^^^ x >>> 10

/-- The word `i` of a block, its first byte the highest. -/
def wordOf (block : List (BitVec 8)) (i : ℕ) : BitVec 32 :=
  block.getD (4 * i) 0 ++ block.getD (4 * i + 1) 0 ++ block.getD (4 * i + 2) 0 ++
    block.getD (4 * i + 3) 0

/-- The message schedule. -/
def schedule (block : List (BitVec 8)) (t : ℕ) : BitVec 32 :=
  if t < 16 then wordOf block t
  else smallSigma1 (schedule block (t - 2)) + schedule block (t - 7) +
    smallSigma0 (schedule block (t - 15)) + schedule block (t - 16)

/-- The working variables. -/
structure Working where
  (a b c d e f g h : BitVec 32)
  deriving DecidableEq

/-- One round, with its constant and its word of the schedule. -/
def round (k w : BitVec 32) (v : Working) : Working :=
  let t₁ := v.h + bigSigma1 v.e + ch v.e v.f v.g + k + w
  let t₂ := bigSigma0 v.a + maj v.a v.b v.c
  ⟨t₁ + t₂, v.a, v.b, v.c, v.d + t₁, v.e, v.f, v.g⟩

/-- The rounds for a block. -/
def rounds (k : List (BitVec 32)) (block : List (BitVec 8)) (v : Working) : Working :=
  (List.range 64).foldl (fun v t => round (k.getD t 0) (schedule block t) v) v

/-- The hash value after a block, for a table of round constants. -/
def compress (k : List (BitVec 32)) (hash : Vector (BitVec 32) 8) (block : List (BitVec 8)) :
    Vector (BitVec 32) 8 :=
  let v := rounds k block
    ⟨hash[0], hash[1], hash[2], hash[3], hash[4], hash[5], hash[6], hash[7]⟩
  #v[hash[0] + v.a, hash[1] + v.b, hash[2] + v.c, hash[3] + v.d, hash[4] + v.e, hash[5] + v.f,
    hash[6] + v.g, hash[7] + v.h]

/-! ### The hash function -/

/-- The hash value of a message. -/
def hashWith (k : List (BitVec 32)) (m : List (BitVec 8)) : Vector (BitVec 32) 8 :=
  (blocks (padded m)).foldl (compress k) initialHash

/-- The bytes of a word, the highest one first. -/
def bigEndian32 (w : BitVec 32) : List (BitVec 8) :=
  [w.extractLsb' 24 8, w.extractLsb' 16 8, w.extractLsb' 8 8, w.extractLsb' 0 8]

/-- The digest of a message, for a table of round constants. -/
def digestWith (k : List (BitVec 32)) (m : List (BitVec 8)) : List (BitVec 8) :=
  (hashWith k m).toList.flatMap bigEndian32

/-- The digest of a message. -/
def digest (m : List (BitVec 8)) : List (BitVec 8) := digestWith roundConstants m

end Sha256

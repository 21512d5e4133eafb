import KyroOS.Net.Bytes

/-!
# The Internet checksum

`ip_checksum` and `icmp_checksum` add the 16-bit words of a range, and an odd last byte, in 32 bits,
and add the carries back until none is left.

## Main definitions

* `sumWords`, `foldCarries`, `ipChecksum` — the two loops and the function
* `wordTotal` — the sum without a bound

## Main results

* `foldCarries_end` — the second loop takes at most two turns
* `ipChecksum_eq_zero_iff` — the checksum is 0 for the sums that 65535 divides
* `toNat_sumWords` — the sum of 65535 bytes does not overflow
* `ipChecksum_verifies`, `ipChecksum_filled` — a buffer with its checksum filled in has checksum 0
-/

namespace KyroOS.Net

/-- The loop over the words of a range of the given length, and the byte that is left. -/
def sumWords (m : Memory) : ℕ → ℕ → BitVec 32 → BitVec 32
  | 0, _, sum => sum
  | 1, p, sum => sum + (m p).setWidth 32
  | len + 2, p, sum => sumWords m len (p + 2) (sum + (load16 m p).setWidth 32)

/-- The loop `while (sum >> 16)`, for a number of turns. -/
def foldCarries : ℕ → BitVec 32 → BitVec 32
  | 0, sum => sum
  | turns + 1, sum =>
    if sum >>> 16 = 0 then sum else foldCarries turns ((sum &&& 0xFFFF#32) + sum >>> 16)

/-- `ip_checksum`, which is also `icmp_checksum`. -/
def ipChecksum (m : Memory) (p len : ℕ) : BitVec 16 :=
  ~~~(foldCarries 2 (sumWords m len p 0)).setWidth 16

/-! ### The carries -/

section Fold

theorem toNat_shift (s : BitVec 32) : (s >>> 16).toNat = s.toNat / 65536 := by
  rw [BitVec.toNat_ushiftRight, Nat.shiftRight_eq_div_pow]

theorem shift_eq_zero_iff {s : BitVec 32} : s >>> 16 = 0 ↔ s.toNat < 65536 := by
  rw [← BitVec.toNat_inj, toNat_shift]
  show s.toNat / 65536 = 0 ↔ _
  omega

theorem toNat_low (s : BitVec 32) : (s &&& 0xFFFF#32).toNat = s.toNat % 65536 := by
  rw [BitVec.toNat_and]
  exact Nat.and_two_pow_sub_one_eq_mod s.toNat 16

/-- One turn of the loop. -/
theorem toNat_fold (s : BitVec 32) :
    ((s &&& 0xFFFF#32) + s >>> 16).toNat = s.toNat % 65536 + s.toNat / 65536 := by
  rw [BitVec.toNat_add, toNat_low, toNat_shift, Nat.mod_eq_of_lt]
  have hlt := s.isLt
  omega

theorem toNat_foldCarries (s : BitVec 32) : (foldCarries 2 s).toNat =
    if s.toNat = 0 then 0 else (s.toNat - 1) % 65535 + 1 := by
  have hlt := s.isLt
  have hturn := toNat_fold s
  unfold foldCarries
  split
  · next hend =>
    have hsmall := shift_eq_zero_iff.mp hend
    split <;> omega
  · next hmore =>
    have hlarge : ¬ s.toNat < 65536 := fun h => hmore (shift_eq_zero_iff.mpr h)
    unfold foldCarries
    split
    · next hend =>
      have hsmall := shift_eq_zero_iff.mp hend
      rw [hturn] at hsmall ⊢
      split <;> omega
    · next hmore' =>
      -- the second turn leaves no carry
      have hlarge' : ¬ ((s &&& 0xFFFF#32) + s >>> 16).toNat < 65536 :=
        fun h => hmore' (shift_eq_zero_iff.mpr h)
      rw [foldCarries, toNat_fold, hturn]
      rw [hturn] at hlarge'
      split <;> omega

/-- After two turns no carry is left. -/
theorem foldCarries_end (s : BitVec 32) : foldCarries 2 s >>> 16 = 0 := by
  rw [shift_eq_zero_iff, toNat_foldCarries]
  split <;> omega

end Fold

/-! ### The checksum -/

theorem toNat_ipChecksum (m : Memory) (p len : ℕ) :
    (ipChecksum m p len).toNat = 65535 - (foldCarries 2 (sumWords m len p 0)).toNat := by
  have hsmall := shift_eq_zero_iff.mp (foldCarries_end (sumWords m len p 0))
  rw [ipChecksum, BitVec.toNat_not, BitVec.toNat_setWidth, Nat.mod_eq_of_lt hsmall]

theorem ipChecksum_eq_zero_iff {m : Memory} {p len : ℕ} : ipChecksum m p len = 0 ↔
    0 < (sumWords m len p 0).toNat ∧ (sumWords m len p 0).toNat % 65535 = 0 := by
  rw [← BitVec.toNat_inj, toNat_ipChecksum, toNat_foldCarries]
  show _ = 0 ↔ _
  split <;> omega

/-! ### The sum -/

/-- The sum of the words of a range, and of an odd last byte, without a bound. -/
def wordTotal (m : Memory) : ℕ → ℕ → ℕ
  | 0, _ => 0
  | 1, p => (m p).toNat
  | len + 2, p => (load16 m p).toNat + wordTotal m len (p + 2)

theorem wordTotal_le (m : Memory) (len p : ℕ) : wordTotal m len p ≤ 65535 * ((len + 1) / 2) := by
  induction len, p using wordTotal.induct with
  | case1 p => exact Nat.zero_le _
  | case2 p =>
    have hbyte := (m p).isLt
    rw [wordTotal]
    omega
  | case3 len p ih =>
    have hword := (load16 m p).isLt
    rw [wordTotal]
    omega

/-- The loop adds in 32 bits. -/
theorem toNat_sumWords_mod (m : Memory) (len p : ℕ) (sum : BitVec 32) :
    (sumWords m len p sum).toNat = (sum.toNat + wordTotal m len p) % 2 ^ 32 := by
  induction len, p, sum using sumWords.induct m with
  | case1 p sum =>
    rw [sumWords, wordTotal, Nat.add_zero]
    exact (Nat.mod_eq_of_lt sum.isLt).symm
  | case2 p sum =>
    have hbyte := (m p).isLt
    rw [sumWords, wordTotal, BitVec.toNat_add, BitVec.toNat_setWidth]
    omega
  | case3 len p sum ih =>
    have hword := (load16 m p).isLt
    rw [sumWords, wordTotal, ih, BitVec.toNat_add, BitVec.toNat_setWidth]
    omega

/-- A range of at most 65535 bytes is added without overflow. -/
theorem toNat_sumWords (m : Memory) {len : ℕ} (p : ℕ) (hlen : len ≤ 65535) :
    (sumWords m len p 0).toNat = wordTotal m len p := by
  have hle := wordTotal_le m len p
  have hzero : (0 : BitVec 32).toNat = 0 := rfl
  rw [toNat_sumWords_mod, hzero]
  omega

theorem wordTotal_congr {m m' : Memory} {len p p' : ℕ}
    (hsame : ∀ i < len, m (p + i) = m' (p' + i)) : wordTotal m len p = wordTotal m' len p' := by
  induction len, p using wordTotal.induct generalizing p' with
  | case1 p => rfl
  | case2 p => exact congrArg BitVec.toNat (hsame 0 (by omega))
  | case3 len p ih =>
    have hfirst : load16 m p = load16 m' p' :=
      load16_congr (hsame 0 (by omega)) (hsame 1 (by omega))
    have hrest : wordTotal m len (p + 2) = wordTotal m' len (p' + 2) := by
      refine ih fun i hi => ?_
      rw [Nat.add_assoc, Nat.add_assoc, Nat.add_comm 2 i]
      exact hsame (i + 2) (by omega)
    rw [wordTotal, wordTotal, hfirst, hrest]

/-- A field at an even offset is one of the words. -/
theorem wordTotal_field {m m' : Memory} {len p p' off : ℕ} (heven : off % 2 = 0)
    (hfits : off + 2 ≤ len) (hsame : ∀ i < len, i ≠ off → i ≠ off + 1 → m (p + i) = m' (p' + i))
    (hzero : load16 m' (p' + off) = 0) :
    wordTotal m len p = wordTotal m' len p' + (load16 m (p + off)).toNat := by
  induction len, p using wordTotal.induct generalizing p' off with
  | case1 p => omega
  | case2 p => omega
  | case3 len p ih =>
    rw [wordTotal, wordTotal]
    have hshift : ∀ q i, q + 2 + i = q + (i + 2) := fun q i => by omega
    by_cases hoff : off = 0
    · -- the field is the first word
      subst hoff
      have hrest : wordTotal m len (p + 2) = wordTotal m' len (p' + 2) := by
        refine wordTotal_congr fun i hi => ?_
        rw [hshift, hshift]
        exact hsame (i + 2) (by omega) (by omega) (by omega)
      have hfirst : (load16 m' p').toNat = 0 := congrArg BitVec.toNat hzero
      rw [hrest, hfirst, Nat.zero_add, Nat.add_zero p, Nat.add_comm]
    · obtain ⟨off, rfl⟩ : ∃ k, off = k + 2 := ⟨off - 2, by omega⟩
      have hfirst : load16 m p = load16 m' p' :=
        load16_congr (hsame 0 (by omega) (by omega) (by omega))
          (hsame 1 (by omega) (by omega) (by omega))
      have hrest : wordTotal m len (p + 2) =
          wordTotal m' len (p' + 2) + (load16 m (p + 2 + off)).toNat := by
        apply ih (by omega) (by omega)
        · intro i hi h₀ h₁
          rw [hshift, hshift]
          exact hsame (i + 2) (by omega) (by omega) (by omega)
        · rw [hshift]
          exact hzero
      rw [hrest, hshift, hfirst]
      omega

/-! ### Filling the field in -/

/-- With its checksum in the place of zeros, a range is accepted. -/
theorem ipChecksum_verifies {m m' : Memory} {len p p' off : ℕ} (hlen : len ≤ 65535)
    (heven : off % 2 = 0) (hfits : off + 2 ≤ len)
    (hsame : ∀ i < len, i ≠ off → i ≠ off + 1 → m (p + i) = m' (p' + i))
    (hzero : load16 m' (p' + off) = 0) (hfield : load16 m (p + off) = ipChecksum m' p' len) :
    ipChecksum m p len = 0 := by
  have htotal := wordTotal_field heven hfits hsame hzero
  rw [hfield, ← toNat_sumWords m p hlen, ← toNat_sumWords m' p' hlen] at htotal
  have hcheck := toNat_ipChecksum m' p' len
  rw [toNat_foldCarries] at hcheck
  rw [ipChecksum_eq_zero_iff]
  -- the checksum fills the sum up to a multiple of 65535
  split at hcheck <;> omega

/-- The same for a buffer as a list of bytes. -/
theorem ipChecksum_filled {m : Memory} {p n : ℕ} {pre post : List Byte}
    (heven : pre.length % 2 = 0) (hn : pre.length + 2 + post.length = n) (hlen : n ≤ 65535)
    (hm : Contains m p (pre ++ (store16
      (ipChecksum (ofBytes (pre ++ (store16 0 ++ post))) 0 n) ++ post))) :
    ipChecksum m p n = 0 := by
  obtain ⟨hpre', hrest⟩ := contains_append.mp hm
  obtain ⟨hfield, hpost'⟩ := contains_append.mp hrest
  have hzero : Contains (ofBytes (pre ++ (store16 0 ++ post))) 0 (pre ++ (store16 0 ++ post)) :=
    contains_ofBytes
  obtain ⟨hpre₀, hrest₀⟩ := contains_append.mp hzero
  obtain ⟨hfield₀, hpost₀⟩ := contains_append.mp hrest₀
  apply @ipChecksum_verifies m (ofBytes (pre ++ (store16 0 ++ post))) n p 0 pre.length hlen heven
    (by omega)
  · intro i hi h₀ h₁
    by_cases hlow : i < pre.length
    · rw [hpre' i hlow, hpre₀ i hlow]
    · have hback := hpost' (i - (pre.length + 2)) (by omega)
      have hback₀ := hpost₀ (i - (pre.length + 2)) (by omega)
      rw [length_store16, show p + pre.length + 2 + (i - (pre.length + 2)) = p + i by omega]
        at hback
      rw [length_store16, show 0 + pre.length + 2 + (i - (pre.length + 2)) = 0 + i by omega]
        at hback₀
      rw [hback, hback₀]
  · exact hfield₀.load16
  · exact hfield.load16

end KyroOS.Net

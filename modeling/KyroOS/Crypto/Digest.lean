import KyroOS.Crypto.Buffering
import Mathlib.Data.List.GetD

/-!
# The digest that `sha256_hash` computes

The compression is that of SHA-256, with the table `K_SHA256`. From its 50th entry on the table is
not that of the cube roots of the first primes, so that the digest is that of the hash function for
another table of constants.

## Main results

* `sha256Transform_eq` — the compression, for any table
* `sha256Hash_eq` — what `sha256_hash` writes
* `sha256Hash_iff` — when this is the digest of the message
-/

namespace KyroOS.Crypto

open Net (store32 bswap32)
open Sha256 (Working padded compress hashWith digestWith digest roundConstants)

/-! ### Rotations and words -/

theorem rotr_eq (x : BitVec 32) {n : ℕ} (hn : n < 32) : rotr x n = x.rotateRight n := by
  rw [rotr, BitVec.rotateRight_def, Nat.mod_eq_of_lt hn]

theorem bigSigma0_eq (x : BitVec 32) : bigSigma0 x = Sha256.bigSigma0 x := by
  simp (disch := decide) only [bigSigma0, Sha256.bigSigma0, rotr_eq]

theorem bigSigma1_eq (x : BitVec 32) : bigSigma1 x = Sha256.bigSigma1 x := by
  simp (disch := decide) only [bigSigma1, Sha256.bigSigma1, rotr_eq]

theorem sigma0_eq (x : BitVec 32) : sigma0 x = Sha256.smallSigma0 x := by
  simp (disch := decide) only [sigma0, Sha256.smallSigma0, rotr_eq, shr]

theorem sigma1_eq (x : BitVec 32) : sigma1 x = Sha256.smallSigma1 x := by
  simp (disch := decide) only [sigma1, Sha256.smallSigma1, rotr_eq, shr]

/-- Four bytes that are shifted to their places. -/
theorem shifts_eq_append (b₀ b₁ b₂ b₃ : Byte) :
    b₀.setWidth 32 <<< 24 ||| b₁.setWidth 32 <<< 16 ||| b₂.setWidth 32 <<< 8 ||| b₃.setWidth 32 =
      b₀ ++ b₁ ++ b₂ ++ b₃ := by
  apply BitVec.eq_of_getLsbD_eq
  intro i hi
  simp only [BitVec.getLsbD_or, BitVec.getLsbD_shiftLeft, BitVec.getLsbD_setWidth,
    BitVec.getLsbD_append]
  have hout : ∀ (b : Byte) {j : ℕ}, 8 ≤ j → b.getLsbD j = false :=
    fun b j hj => BitVec.getLsbD_of_ge b j hj
  -- the byte that holds the bit
  rcases Nat.lt_or_ge i 8 with h₃ | h₃
  · simp [hi, h₃, show i < 16 by omega, show i < 24 by omega]
  rcases Nat.lt_or_ge i 16 with h₂ | h₂
  · simp [hi, h₂, hout b₃ h₃, show ¬ i < 8 by omega, show i < 24 by omega, show i - 8 < 8 by omega]
    omega
  have h₃' : 8 ≤ i - 8 := by omega
  rcases Nat.lt_or_ge i 24 with h₁ | h₁
  · simp [hi, h₁, hout b₃ h₃, hout b₂ h₃', show ¬ i < 8 by omega, show ¬ i < 16 by omega,
      show ¬ i - 8 < 8 by omega, show i - 16 < 8 by omega, show i - 8 - 8 = i - 16 by omega]
    omega
  · have h₂' : 8 ≤ i - 16 := by omega
    simp [hi, hout b₃ h₃, hout b₂ h₃', hout b₁ h₂', show ¬ i < 8 by omega, show ¬ i < 16 by omega,
      show ¬ i < 24 by omega, show ¬ i - 8 < 8 by omega, show ¬ i - 8 - 8 < 8 by omega,
      show i - 24 < 8 by omega, show i - 8 - 8 - 8 = i - 24 by omega]
    omega

theorem blockWord_eq (block : List Byte) (i : ℕ) : blockWord block i = Sha256.wordOf block i := by
  rw [blockWord, shifts_eq_append, Sha256.wordOf, Nat.mul_comm i 4]
  rfl

/-! ### The schedule -/

/-- Each turn of the loop adds the next word. -/
theorem scheduleLoop_eq (block : List Byte) (n : ℕ) : ∀ {w : List (BitVec 32)}, 16 ≤ w.length →
    (∀ i < w.length, w.getD i 0 = Sha256.schedule block i) →
    ∀ i < w.length + n, (scheduleLoop n w).getD i 0 = Sha256.schedule block i := by
  induction n with
  | zero => exact fun _ hw => hw
  | succ n ih =>
    intro w hlen hw i hi
    rw [scheduleLoop]
    refine ih ?_ ?_ i ?_
    · rw [List.length_append]
      omega
    · intro j hj
      rw [List.length_append, List.length_singleton] at hj
      by_cases hlast : j = w.length
      · rw [hlast, List.getD_append_right _ _ _ _ le_rfl, Nat.sub_self, Sha256.schedule,
          if_neg (by omega), List.getD_cons_zero, sigma0_eq, sigma1_eq, hw _ (by omega),
          hw _ (by omega), hw _ (by omega), hw _ (by omega)]
      · rw [List.getD_append _ _ _ _ (by omega)]
        exact hw j (by omega)
    · rw [List.length_append, List.length_singleton]
      omega

theorem messageSchedule_eq (block : List Byte) {i : ℕ} (hi : i < 64) :
    (messageSchedule block).getD i 0 = Sha256.schedule block i := by
  have hlen : ((List.range 16).map (blockWord block)).length = 16 := by
    rw [List.length_map, List.length_range]
  refine scheduleLoop_eq block 48 hlen.ge (fun j hj => ?_) i (by rw [hlen]; exact hi)
  rw [hlen] at hj
  rw [Sha256.schedule, if_pos hj, ← blockWord_eq, List.getD_eq_getElem _ _ (by rwa [hlen]),
    List.getElem_map, List.getElem_range]

/-! ### The compression -/

/-- The main loop makes the rounds. -/
theorem mainLoop_eq (k : List (BitVec 32)) (block : List Byte) (v : Working) :
    mainLoop k (messageSchedule block) v = Sha256.rounds k block v := by
  refine List.foldl_ext _ _ v fun v i hi => ?_
  rw [messageSchedule_eq block (List.mem_range.mp hi), mainLoopTurn, Sha256.round, bigSigma0_eq,
    bigSigma1_eq]
  rfl

/-- The compression of a block, for any table of constants. -/
theorem sha256Transform_eq (k : List (BitVec 32)) : sha256Transform k = compress k := by
  funext hash block
  exact congrArg (fun v : Working => #v[hash[0] + v.a, hash[1] + v.b, hash[2] + v.c, hash[3] + v.d,
    hash[4] + v.e, hash[5] + v.f, hash[6] + v.g, hash[7] + v.h]) (mainLoop_eq k block _)

/-! ### The digest -/

theorem hSha256_eq : hSha256 = Sha256.initialHash := rfl

/-- What `sha256_hash` writes, for a message that is no sequence of whole blocks. -/
theorem sha256Hash_eq (garbage : Buffer) {m : List Byte} (hm : m = [] ∨ m.length % 64 ≠ 0) :
    sha256Hash garbage m = .ok (digestWith kSha256 m) := by
  obtain ⟨ctx, hrun, hhash⟩ := sha256Run_eq (sha256Transform kSha256) hSha256 garbage hm
  have hvalue : ctx.hash = hashWith kSha256 m := by
    rw [hhash, sha256Transform_eq, hSha256_eq, hashWith]
  have hbytes : (fun word => store32 (bswap32 word)) = Sha256.bigEndian32 := funext store32_bswap32
  refine Outcome.bind_eq_ok.mpr ⟨ctx, hrun, ?_⟩
  rw [hvalue, hbytes, ← digestWith]
  rfl

/-- It is the digest of the message, when this is the same for the table `K_SHA256`. -/
theorem sha256Hash_iff (garbage : Buffer) (m : List Byte) :
    sha256Hash garbage m = .ok (digest m) ↔
      (m = [] ∨ m.length % 64 ≠ 0) ∧ digestWith kSha256 m = digestWith roundConstants m := by
  by_cases hm : m = [] ∨ m.length % 64 ≠ 0
  · rw [sha256Hash_eq garbage hm, and_iff_right hm]
    exact ⟨Except.ok.inj, congrArg Except.ok⟩
  · obtain ⟨hne, hmod⟩ := not_or.mp hm
    have hfault : sha256Hash garbage m = .error .fault := by
      rw [sha256Hash, sha256Run_fault _ _ _ hne (not_not.mp hmod)]
      rfl
    rw [hfault]
    exact iff_of_false (fun h => (by cases h)) fun hand => hm hand.1

/-! ### The table of constants -/

/-- The first 49 constants are those of the first 49 primes, and none of the others is. -/
theorem kSha256_getElem? : ∀ i < 64, kSha256[i]? = roundConstants[i]? ↔ i < 49 := by
  decide

/-- What `sha256_hash` writes for the empty message is not its digest. -/
theorem sha256Hash_empty : sha256Hash zeroBuffer [] ≠ .ok (digest []) := by
  have htable : (sha256Transform kSha256 hSha256 (padded [])).toList.flatMap Sha256.bigEndian32 ≠
      (sha256Transform roundConstants hSha256 (padded [])).toList.flatMap Sha256.bigEndian32 := by
    decide +kernel
  have hvalue : ∀ k, hashWith k [] = sha256Transform k hSha256 (padded []) := by
    intro k
    rw [hashWith, Sha256.blocks_of_length rfl, sha256Transform_eq]
    rfl
  rw [sha256Hash_eq zeroBuffer (.inl rfl), digest, digestWith, digestWith, hvalue, hvalue]
  exact fun heq => htable (Except.ok.inj heq)

end KyroOS.Crypto

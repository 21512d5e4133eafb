import Mathlib.Algebra.Group.Nat.Defs
import Mathlib.Data.List.Basic

/-!
# Ranges of addresses

The addresses are the words of `w` bits. An access touches a range of them, from its first address
on, and a loop that moves data touches one range behind the other.

## Main definitions

* `Range`, `Range.Below` — a range, and one that ends before a limit without wrapping around
* `Fits` — so many addresses from an address on end before a limit, if there are any
* `Run` — ranges that follow each other
* `touch`, `blockRanges` — the range of one access, and those of a loop over blocks
* `turns` — the turns of a loop up to the first that fails

## Main results

* `Run.forall_below_iff` — ranges that follow each other end before a limit when they do together
* `run_blockRanges` — the ranges of a loop over blocks follow each other
-/

namespace AddressRange

/-- The `size` addresses from `addr` on. -/
structure Range (w : ℕ) where
  addr : BitVec w
  size : BitVec w
  deriving DecidableEq

variable {w : ℕ} {limit p size : BitVec w} {n m : ℕ} {rs rs' : List (Range w)}

/-- The range ends before the limit, and does not wrap around. -/
def Range.Below (limit : BitVec w) (r : Range w) : Prop :=
  r.addr.toNat + r.size.toNat < limit.toNat

/-- The `n` addresses from `p` on end before the limit. -/
def Fits (limit p : BitVec w) (n : ℕ) : Prop := n = 0 ∨ p.toNat + n < limit.toNat

instance (limit p : BitVec w) (n : ℕ) : Decidable (Fits limit p n) :=
  inferInstanceAs (Decidable (_ ∨ _))

theorem fits_zero : Fits limit p 0 := Or.inl rfl

theorem Fits.mono (h : Fits limit p n) (hle : m ≤ n) : Fits limit p m := by
  rcases h with hzero | hfits
  · left
    omega
  · right
    omega

/-- A part of the addresses, `d` addresses behind the first. -/
theorem Fits.part {d : ℕ} (h : Fits limit p n) (hle : d + m ≤ n) :
    Fits limit (p + BitVec.ofNat w d) m := by
  rcases h with hzero | hfits
  · left
    omega
  · have hd : p.toNat + d < 2 ^ w := by
      have := limit.isLt
      omega
    right
    rw [BitVec.toNat_add, BitVec.toNat_ofNat, Nat.add_mod_mod, Nat.mod_eq_of_lt hd]
    omega

/-- The ranges follow each other from `p` on, and have `n` addresses together. -/
inductive Run : BitVec w → ℕ → List (Range w) → Prop
  | nil (p : BitVec w) : Run p 0 []
  | cons {p size : BitVec w} {n : ℕ} {rs : List (Range w)} (hpos : 0 < size.toNat)
    (h : Run (p + size) n rs) : Run p (size.toNat + n) (⟨p, size⟩ :: rs)

/-- Behind a range that ends before the limit, addresses are not wrapped around. -/
theorem toNat_add_of_below (h : p.toNat + size.toNat < limit.toNat) :
    (p + size).toNat = p.toNat + size.toNat := by
  rw [BitVec.toNat_add]
  exact Nat.mod_eq_of_lt (Nat.lt_trans h limit.isLt)

/-- A range of at least one address that ends before the limit, and what follows it. -/
theorem fits_add_iff (hpos : 0 < size.toNat) : Fits limit p (size.toNat + n) ↔
    (Range.mk p size).Below limit ∧ Fits limit (p + size) n := by
  show _ ↔ p.toNat + size.toNat < limit.toNat ∧ _
  constructor
  · rintro (hzero | hfits)
    · omega
    · have hbelow : p.toNat + size.toNat < limit.toNat := by omega
      refine ⟨hbelow, Or.inr ?_⟩
      rw [toNat_add_of_below hbelow]
      omega
  · rintro ⟨hbelow, hrest⟩
    rw [Fits, toNat_add_of_below hbelow] at hrest
    right
    omega

theorem Run.forall_below_iff (h : Run p n rs) : (∀ r ∈ rs, r.Below limit) ↔ Fits limit p n := by
  induction h with
  | nil p => exact iff_of_true (fun _ hr => absurd hr List.not_mem_nil) fits_zero
  | cons hpos _ ih => rw [List.forall_mem_cons, ih, fits_add_iff hpos]

theorem Run.append (h : Run p n rs) (h' : Run (p + BitVec.ofNat w n) m rs') :
    Run p (n + m) (rs ++ rs') := by
  induction h with
  | nil p =>
    rw [Nat.zero_add, List.nil_append]
    rwa [BitVec.add_zero] at h'
  | cons hpos _ ih =>
    rw [Nat.add_assoc]
    apply Run.cons hpos
    apply ih
    rwa [BitVec.ofNat_add, BitVec.ofNat_toNat, BitVec.setWidth_eq, ← BitVec.add_assoc] at h'

/-! ### One access -/

/-- The range of an access to `size` addresses, if there are any. -/
def touch (p : BitVec w) (size : BitVec w) : List (Range w) := if size = 0 then [] else [⟨p, size⟩]

theorem touch_eq_nil : touch p size = [] ↔ size = 0 := by
  by_cases hzero : size = 0
  · exact iff_of_true (if_pos hzero) hzero
  · rw [touch, if_neg hzero]
    exact iff_of_false (List.cons_ne_nil _ _) hzero

theorem run_touch : Run p size.toNat (touch p size) := by
  rw [touch]
  split_ifs with hzero
  · rw [hzero]
    exact .nil p
  · have hpos : 0 < size.toNat := Nat.pos_of_ne_zero fun h => hzero (BitVec.eq_of_toNat_eq h)
    exact .cons hpos (.nil _)

/-! ### A loop over blocks -/

/-- The ranges of a loop that moves `n` blocks of `step` addresses, the last of them cut off behind
`left` addresses in all. -/
def blockRanges (step : ℕ) : ℕ → BitVec w → ℕ → List (Range w)
  | 0, _, _ => []
  | n + 1, p, left =>
    touch p (BitVec.ofNat w (min step left)) ++
      blockRanges step n (p + BitVec.ofNat w step) (left - step)

theorem blockRanges_zero {step : ℕ} :
    blockRanges step n p 0 = [] := by
  induction n generalizing p with
  | zero => rfl
  | succ n ih =>
    rw [blockRanges, Nat.min_zero, Nat.zero_sub, ih, List.append_nil]
    exact if_pos rfl

theorem run_blockRanges {step left : ℕ} (hstep : step < 2 ^ w) :
    Run p (min left (step * n)) (blockRanges step n p left) := by
  induction n generalizing p left with
  | zero =>
    rw [Nat.mul_zero, Nat.min_zero]
    exact .nil p
  | succ n ih =>
    have hfirst : (BitVec.ofNat w (min step left)).toNat = min step left := by
      rw [BitVec.toNat_ofNat]
      exact Nat.mod_eq_of_lt (Nat.lt_of_le_of_lt (Nat.min_le_left ..) hstep)
    have htouch : Run p (BitVec.ofNat w (min step left)).toNat
        (touch p (BitVec.ofNat w (min step left))) := run_touch
    rw [hfirst] at htouch
    have htotal : min left (step * (n + 1)) = min step left + min (left - step) (step * n) := by
      rw [Nat.mul_succ]
      omega
    rw [blockRanges, htotal]
    apply htouch.append
    by_cases hle : left ≤ step
    · -- the block that is cut off is the last one
      rw [Nat.sub_eq_zero_of_le hle, Nat.zero_min, blockRanges_zero]
      exact .nil _
    · rw [Nat.min_eq_left (Nat.le_of_not_le hle)]
      exact ih

/-! ### Turns of a loop -/

/-- The turns of a loop, of which there are at most `n`, up to the first that fails. -/
def turns {σ : Type*} (step : σ → ℕ → σ × Bool) : σ → ℕ → ℕ → ℕ
  | _, 0, _ => 0
  | s, n + 1, i =>
    match step s i with
    | (s, true) => turns step s n (i + 1) + 1
    | (_, false) => 0

end AddressRange

import KyroOS.Basic
import KyroOS.Lib.XorShift
import Mathlib.Data.Set.Function

/-!
# The random number generator

The state of xorshift128+ is seeded from three readings of the timer.

## Main definitions

* `Random`, `xorshift128p`, `randomAddEntropy`, `randomInit` — the state and its seeding
* `randomGetUint64`, `randomGetBytes` — the calls
* `RandomCall.exec` — a call of either kind

## Main results

* `randomInit_state`, `seed_low` — the seed, and what tells it from others
* `exec_state` — a call makes a number of steps that does not depend on the state
* `random_neverDies` — the state never becomes zero, and seeds stay apart
-/

namespace KyroOS.Crypto

/-- `s` and `initialized`. -/
structure Random where
  s : Word × Word
  initialized : Bool

/-- The values that `timer_get_ticks` returns to a call of `random_init`, in order. -/
structure Ticks where
  first : Word
  second : Word
  third : Word

/-- `xorshift128p`: the state and the value. -/
def xorshift128p (s : Word × Word) : (Word × Word) × Word :=
  let s1 := s.1
  let s0 := s.2
  let s1 := s1 ^^^ s1 <<< 23
  let next := s1 ^^^ s0 ^^^ (s1 >>> 17) ^^^ (s0 >>> 26)
  ((s0, next), next + s0)

namespace Random

variable (r : Random)

/-- A call of `xorshift128p`. -/
def step : Random := { r with s := (xorshift128p r.s).1 }

/-- `random_add_entropy` -/
def randomAddEntropy (entropyValue : Word) : Random :=
  let mixed : Random :=
    { r with
      s := (r.s.1 ^^^ entropyValue, r.s.2 ^^^ ((entropyValue >>> 32) ||| (entropyValue <<< 32))) }
  if r.initialized then mixed.step.step.step else mixed

/-- `random_init` -/
def randomInit (t : Ticks) : Random :=
  let seeded : Random := { r with s := (t.first, t.second ^^^ 0xDEADBEEFCAFE) }
  { seeded.randomAddEntropy (t.third ^^^ 0x123456789ABCDEF0) with initialized := true }

/-- `random_get_uint64`. The timer is read if there is no seed yet. -/
def randomGetUint64 (t : Ticks) : Random × Word :=
  let r := if r.initialized then r else r.randomInit t
  (r.step, (xorshift128p r.s).2)

end Random

/-- The loop of `random_get_bytes`. -/
def fillBytes (t : Ticks) : Random → ℕ → Random × List Byte
  | r, 0 => (r, [])
  | r, n + 1 =>
    let (r, value) := r.randomGetUint64 t
    let (r, bytes) := fillBytes t r n
    (r, value.setWidth 8 :: bytes)

/-- `random_get_bytes`, with the bytes that it stores. -/
def Random.randomGetBytes (r : Random) (t : Ticks) (buffer : Word) (numBytes : ℕ) :
    Random × List Byte :=
  if buffer = 0 ∨ numBytes = 0 then (r, []) else fillBytes t r numBytes

/-- A call, with what the timer would return to it. -/
inductive RandomCall
  | getUint64 (t : Ticks)
  | getBytes (t : Ticks) (buffer : Word) (numBytes : ℕ)

/-- The state after a call. -/
def RandomCall.exec (r : Random) : RandomCall → Random
  | getUint64 t => (r.randomGetUint64 t).1
  | getBytes t buffer numBytes => (r.randomGetBytes t buffer numBytes).1

/-- The steps of the generator that a call makes. -/
def RandomCall.steps : RandomCall → ℕ
  | getUint64 _ => 1
  | getBytes _ buffer numBytes => if buffer = 0 then 0 else numBytes

/-! ### Steps -/

variable {r : Random} {t : Ticks}

/-- The next state of the generator. -/
abbrev nextState : Word × Word → Word × Word := XorShift.next 23 17 26

/-- A call that finds a seed makes one step, whatever the timer says. -/
theorem randomGetUint64_of_initialized (h : r.initialized = true) :
    (r.randomGetUint64 t).1 = r.step := by
  rw [Random.randomGetUint64, h]
  rfl

theorem fillBytes_state (h : r.initialized = true) (n : ℕ) :
    (fillBytes t r n).1.initialized = true ∧ (fillBytes t r n).1.s = nextState^[n] r.s := by
  induction n generalizing r with
  | zero => exact ⟨h, rfl⟩
  | succ n ih =>
    have hstep := @ih r.step h
    show (fillBytes t (r.randomGetUint64 t).1 n).1.initialized = true ∧
      (fillBytes t (r.randomGetUint64 t).1 n).1.s = nextState^[n] (nextState r.s)
    rw [randomGetUint64_of_initialized h]
    exact hstep

/-- A call makes as many steps as it says, from any seed. -/
theorem exec_state (h : r.initialized = true) (c : RandomCall) :
    (c.exec r).initialized = true ∧ (c.exec r).s = nextState^[c.steps] r.s := by
  cases c with
  | getUint64 t =>
    rw [RandomCall.exec, randomGetUint64_of_initialized h]
    exact ⟨h, rfl⟩
  | getBytes t buffer numBytes =>
    rw [RandomCall.exec, Random.randomGetBytes, RandomCall.steps]
    by_cases hnull : buffer = 0
    · rw [if_pos (.inl hnull), if_pos hnull]
      exact ⟨h, rfl⟩
    · rw [if_neg hnull]
      by_cases hnone : numBytes = 0
      · rw [if_pos (.inr hnone), hnone]
        exact ⟨h, rfl⟩
      · rw [if_neg (by tauto)]
        exact fillBytes_state h numBytes

/-- Calls one after the other make the sum of their steps. -/
theorem foldl_exec_state (h : r.initialized = true) (calls : List RandomCall) :
    (calls.foldl RandomCall.exec r).s = nextState^[(calls.map RandomCall.steps).sum] r.s := by
  induction calls generalizing r with
  | nil => rfl
  | cons c calls ih =>
    obtain ⟨hinit, hstate⟩ := exec_state h c
    rw [List.foldl_cons, ih hinit, hstate, List.map_cons, List.sum_cons, Nat.add_comm,
      Function.iterate_add_apply]

/-! ### The seed -/

/-- The seed from three equal readings of the timer. The first word does not depend on them. -/
def seed (t : Word) : Word × Word :=
  let mixed := t ^^^ 0x123456789ABCDEF0#64
  (0x123456789ABCDEF0#64, t ^^^ 0xDEADBEEFCAFE#64 ^^^ (mixed >>> 32 ||| mixed <<< 32))

theorem randomInit_state (s : Word × Word) (t : Word) :
    ((⟨s, false⟩ : Random).randomInit ⟨t, t, t⟩).s = seed t := by
  have hfirst : t ^^^ (t ^^^ 0x123456789ABCDEF0#64) = 0x123456789ABCDEF0#64 := by
    rw [← BitVec.xor_assoc, BitVec.xor_self, BitVec.zero_xor]
  exact Prod.ext hfirst rfl

/-- Below `2 ^ 32` a reading can be told from the low half of the second word. -/
theorem seed_low {t : Word} (ht : t.toNat < 2 ^ 32) :
    (seed t).2.setWidth 32 = t.setWidth 32 ^^^ (0xBEEFCAFE#32 ^^^ 0x12345678#32) := by
  have hhigh : t >>> 32 = 0#64 := by
    apply BitVec.eq_of_toNat_eq
    rw [BitVec.toNat_ushiftRight, Nat.shiftRight_eq_div_pow, Nat.div_eq_of_lt ht]
    rfl
  have hshift : (t ^^^ 0x123456789ABCDEF0#64) >>> 32 = 0x12345678#64 := by
    rw [BitVec.ushiftRight_xor_distrib, hhigh, BitVec.zero_xor]
    rfl
  have hlow : ((t ^^^ 0x123456789ABCDEF0#64) <<< 32).setWidth 32 = 0#32 := by
    ext i hi
    simp only [BitVec.getElem_setWidth, BitVec.getLsbD_shiftLeft, hi]
    simp
  rw [seed, hshift, BitVec.setWidth_xor, BitVec.setWidth_xor, BitVec.setWidth_or, hlow,
    BitVec.or_zero, BitVec.xor_assoc]
  rfl

/-- The state never becomes zero, and readings below `2 ^ 32` never lead to the same state by the
same calls. -/
theorem random_neverDies (s : Word × Word) :
    Function.Injective (fun s => (xorshift128p s).1) ∧
      (∀ s, (xorshift128p s).1 = (0, 0) ↔ s = (0, 0)) ∧
      ∀ calls : List RandomCall,
        (∀ t, (calls.foldl RandomCall.exec ((⟨s, false⟩ : Random).randomInit ⟨t, t, t⟩)).s ≠
          (0, 0)) ∧
        Set.InjOn
          (fun t => (calls.foldl RandomCall.exec ((⟨s, false⟩ : Random).randomInit ⟨t, t, t⟩)).s)
          {t : Word | t.toNat < 2 ^ 32} := by
  have hinjective : Function.Injective nextState := XorShift.next_injective (by decide) (by decide)
  refine ⟨hinjective, fun s => ?_, fun calls => ⟨fun t hzero => ?_, fun t ht t' ht' hsame => ?_⟩⟩
  · exact XorShift.next_iterate_eq_zero_iff (by decide) (by decide) 1
  · rw [foldl_exec_state rfl, XorShift.next_iterate_eq_zero_iff (by decide) (by decide),
      randomInit_state] at hzero
    have hne : (0x123456789ABCDEF0#64 : Word) ≠ 0 := by decide
    exact hne (congrArg Prod.fst hzero)
  · have hsteps : ∀ t, (calls.foldl RandomCall.exec ((⟨s, false⟩ : Random).randomInit ⟨t, t, t⟩)).s =
        nextState^[(calls.map RandomCall.steps).sum] (seed t) := fun t => by
      rw [foldl_exec_state rfl, randomInit_state]
    have hseed : seed t = seed t' :=
      hinjective.iterate _ ((hsteps t).symm.trans (hsame.trans (hsteps t')))
    have hlow := congrArg (fun s : Word × Word => s.2.setWidth 32) hseed
    simp only [seed_low ht, seed_low ht', BitVec.xor_left_inj] at hlow
    have hnat := congrArg BitVec.toNat hlow
    rw [BitVec.toNat_setWidth, BitVec.toNat_setWidth, Nat.mod_eq_of_lt ht, Nat.mod_eq_of_lt ht']
      at hnat
    exact BitVec.eq_of_toNat_eq hnat

end KyroOS.Crypto

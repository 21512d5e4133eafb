import Mathlib.Data.Prod.Basic
import Mathlib.Logic.Function.Iterate

/-!
# Generators by shifts and exclusive ors

A word is changed by the exclusive or with a shift of itself. The state of a generator of this kind
is a pair of words, and its next state is computed with three such shifts.

## Main definitions

* `next` — the next state, for the shifts `a`, `b` and `c`

## Main results

* `eq_of_xor_shiftLeft`, `eq_of_xor_ushiftRight` — the words can be told back
* `next_injective` — the next state tells the state
* `next_iterate_eq_zero_iff` — only the zero state leads to the zero state
-/

namespace XorShift

variable {w : ℕ} {x y d : BitVec w} {k : ℕ}

/-- Only the zero word is a shift of itself. -/
theorem eq_zero_of_shiftLeft_eq (hk : 0 < k) (h : d <<< k = d) : d = 0 := by
  have hmany : ∀ n, d <<< (n * k) = d := by
    intro n
    induction n with
    | zero => simp
    | succ n ih => rw [Nat.succ_mul, BitVec.shiftLeft_add, ih, h]
  rw [← hmany w]
  exact BitVec.shiftLeft_eq_zero (Nat.le_mul_of_pos_right w hk)

theorem eq_zero_of_ushiftRight_eq (hk : 0 < k) (h : d >>> k = d) : d = 0 := by
  have hmany : ∀ n, d >>> (n * k) = d := by
    intro n
    induction n with
    | zero => simp
    | succ n ih => rw [Nat.succ_mul, BitVec.shiftRight_add, ih, h]
  rw [← hmany w]
  exact BitVec.ushiftRight_eq_zero (Nat.le_mul_of_pos_right w hk)

/-- Words are told back from their exclusive ors with an additive function of themselves, when that
function has no fixed word but zero. -/
theorem eq_of_xor {f : BitVec w → BitVec w} (hadd : f (x ^^^ y) = f x ^^^ f y)
    (hfixed : ∀ d, f d = d → d = 0) (h : x ^^^ f x = y ^^^ f y) : x = y := by
  have hsame : f (x ^^^ y) = x ^^^ y := by
    rw [hadd]
    ext i hi
    have hbit := congrArg (fun z => z[i]) h
    simp only [BitVec.getElem_xor] at hbit ⊢
    revert hbit
    cases x[i] <;> cases y[i] <;> cases (f x)[i] <;> cases (f y)[i] <;> decide
  have hzero := hfixed _ hsame
  exact BitVec.xor_eq_zero_iff.mp hzero

theorem eq_of_xor_shiftLeft (hk : 0 < k) (h : x ^^^ x <<< k = y ^^^ y <<< k) : x = y :=
  eq_of_xor (BitVec.shiftLeft_xor_distrib x y k) (fun _ => eq_zero_of_shiftLeft_eq hk) h

theorem eq_of_xor_ushiftRight (hk : 0 < k) (h : x ^^^ x >>> k = y ^^^ y >>> k) : x = y :=
  eq_of_xor (BitVec.ushiftRight_xor_distrib x y k) (fun _ => eq_zero_of_ushiftRight_eq hk) h

/-! ### States -/

/-- The next state. -/
def next (a b c : ℕ) (s : BitVec w × BitVec w) : BitVec w × BitVec w :=
  let x := s.1 ^^^ s.1 <<< a
  (s.2, x ^^^ s.2 ^^^ x >>> b ^^^ s.2 >>> c)

variable {a b c : ℕ}

theorem next_zero : next a b c ((0, 0) : BitVec w × BitVec w) = (0, 0) := by
  simp [next]

theorem next_injective (ha : 0 < a) (hb : 0 < b) :
    Function.Injective (next a b c : BitVec w × BitVec w → BitVec w × BitVec w) := by
  rintro ⟨s₁, s₀⟩ ⟨t₁, t₀⟩ h
  obtain ⟨rfl, hsecond⟩ := Prod.mk.inj h
  have hmix : (s₁ ^^^ s₁ <<< a) ^^^ (s₁ ^^^ s₁ <<< a) >>> b =
      (t₁ ^^^ t₁ <<< a) ^^^ (t₁ ^^^ t₁ <<< a) >>> b := by
    have hdrop := (BitVec.xor_left_inj _).mp hsecond
    rw [BitVec.xor_assoc, BitVec.xor_comm s₀, ← BitVec.xor_assoc,
      BitVec.xor_assoc (t₁ ^^^ t₁ <<< a), BitVec.xor_comm s₀, ← BitVec.xor_assoc] at hdrop
    exact (BitVec.xor_left_inj _).mp hdrop
  rw [eq_of_xor_shiftLeft ha (eq_of_xor_ushiftRight hb hmix)]

/-- Only the zero state leads to the zero state, in any number of steps. -/
theorem next_iterate_eq_zero_iff (ha : 0 < a) (hb : 0 < b) (n : ℕ) {s : BitVec w × BitVec w} :
    (next a b c)^[n] s = (0, 0) ↔ s = (0, 0) := by
  have hzero : (next a b c)^[n] ((0, 0) : BitVec w × BitVec w) = (0, 0) :=
    Function.iterate_fixed next_zero n
  constructor
  · intro h
    exact (next_injective ha hb).iterate n (h.trans hzero.symm)
  · intro h
    rw [h, hzero]

end XorShift

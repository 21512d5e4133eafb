import KyroOS.Threads.Create

/-!
# Words on a stack

A stack grows downwards, so that the word that was pushed last stands at its pointer and the
others follow it.

## Main definitions

* `Stands` — words stand in memory from an address on

## Main results

* `stands_pushAll` — what was pushed stands at the stack pointer
* `pushAll_of_outside` — the cells that are not pushed to keep their words
-/

namespace KyroOS.Context

open KyroOS.Threads

/-- The words stand in memory from `base` on. -/
def Stands (mem : Word → Word) : Word → List Word → Prop
  | _, [] => True
  | base, w :: ws => mem base = w ∧ Stands mem (base + 8) ws

section

variable {mem mem' : Word → Word} {base sp a : Word} {w : Word} {ws ws' : List Word}

theorem toNat_add_eight (base : Word) (h : base.toNat + 8 < 2 ^ 64) :
    (base + 8).toNat = base.toNat + 8 := by
  rw [BitVec.toNat_add]
  exact Nat.mod_eq_of_lt h

theorem toNat_sub_eight (sp : Word) (h : 8 ≤ sp.toNat) : (sp - 8).toNat = sp.toNat - 8 :=
  BitVec.toNat_sub_of_le h

/-- `n` words further. -/
theorem add_eight_add (base : Word) (n : ℕ) :
    base + 8 + BitVec.ofNat 64 (8 * n) = base + BitVec.ofNat 64 (8 * (n + 1)) := by
  rw [Nat.mul_succ, Nat.add_comm, BitVec.ofNat_add, BitVec.add_assoc]
  rfl

theorem stands_append : Stands mem base (ws ++ ws') ↔
    Stands mem base ws ∧ Stands mem (base + BitVec.ofNat 64 (8 * ws.length)) ws' := by
  induction ws generalizing base with
  | nil => simp [Stands]
  | cons w ws ih =>
    simp only [List.cons_append, Stands, ih, and_assoc, List.length_cons, add_eight_add]

/-- The word at an index. -/
theorem Stands.get (h : Stands mem base ws) {i : ℕ} (hi : i < ws.length) :
    mem (base + BitVec.ofNat 64 (8 * i)) = ws.get ⟨i, hi⟩ := by
  induction ws generalizing base i with
  | nil => exact absurd hi (Nat.not_lt_zero _)
  | cons w ws ih =>
    cases i with
    | zero =>
      rw [Nat.mul_zero, BitVec.add_zero]
      exact h.1
    | succ i =>
      rw [← add_eight_add]
      exact ih h.2 (Nat.lt_of_succ_lt_succ hi)

/-- The words behind the first ones. -/
theorem Stands.drop (h : Stands mem base ws) (n : ℕ) :
    Stands mem (base + BitVec.ofNat 64 (8 * n)) (ws.drop n) := by
  induction n generalizing base ws with
  | zero => rwa [Nat.mul_zero, BitVec.add_zero, List.drop_zero]
  | succ n ih =>
    cases ws with
    | nil => trivial
    | cons w ws =>
      rw [← add_eight_add, List.drop_succ_cons]
      exact ih h.2

/-- Words stand in the memory that holds the same in their cells. -/
theorem Stands.congr (h : Stands mem base ws) (hfit : base.toNat + 8 * ws.length ≤ 2 ^ 64)
    (hsame : ∀ a, base.toNat ≤ a.toNat → a.toNat < base.toNat + 8 * ws.length →
      mem' a = mem a) : Stands mem' base ws := by
  induction ws generalizing base with
  | nil => trivial
  | cons w ws ih =>
    rw [List.length_cons] at hfit hsame
    refine ⟨(hsame base le_rfl (by omega)).trans h.1, ?_⟩
    cases ws with
    | nil => trivial
    | cons w' ws =>
      rw [List.length_cons] at hfit hsame ih
      have hnext := toNat_add_eight base (by omega)
      exact ih h.2 (by omega) fun a hle hlt => hsame a (by omega) (by omega)

/-! ### Pushing -/

theorem pushAll_append (mem : Word → Word) (sp : Word) (ws ws' : List Word) :
    pushAll mem sp (ws ++ ws') = pushAll (pushAll mem sp ws).1 (pushAll mem sp ws).2 ws' := by
  induction ws generalizing mem sp with
  | nil => rfl
  | cons w ws ih => exact ih _ _

/-- The stack pointer behind the words. -/
theorem pushAll_snd (mem : Word → Word) (sp : Word) (ws : List Word) :
    (pushAll mem sp ws).2 = sp - BitVec.ofNat 64 (8 * ws.length) := by
  induction ws generalizing mem sp with
  | nil => exact (BitVec.sub_zero sp).symm
  | cons w ws ih =>
    have hsum : ∀ x : Word, sp - 8 - x = sp - (x + 8) := fun x => by bv_omega
    rw [pushAll, ih, hsum, List.length_cons, Nat.mul_succ, BitVec.ofNat_add]
    rfl

/-- The cells that are not pushed to. -/
theorem pushAll_of_outside (h : 8 * ws.length ≤ sp.toNat)
    (ha : a.toNat < sp.toNat - 8 * ws.length ∨ sp.toNat ≤ a.toNat) :
    (pushAll mem sp ws).1 a = mem a := by
  induction ws generalizing mem sp with
  | nil => rfl
  | cons w ws ih =>
    rw [List.length_cons] at h ha
    have hsub := toNat_sub_eight sp (by omega)
    rw [pushAll, ih (by omega) (by omega), Function.update_of_ne]
    rintro rfl
    omega

/-- What was pushed stands at the stack pointer, the last word first. -/
theorem stands_pushAll (mem : Word → Word) (h : 8 * ws.length ≤ sp.toNat) :
    Stands (pushAll mem sp ws).1 (pushAll mem sp ws).2 ws.reverse := by
  induction ws generalizing mem sp with
  | nil => trivial
  | cons w ws ih =>
    rw [List.length_cons] at h
    have hsub := toNat_sub_eight sp (by omega)
    rw [pushAll, List.reverse_cons, stands_append, List.length_reverse]
    refine ⟨ih _ (by omega), ?_, trivial⟩
    -- the first word stands behind the others
    have hplace : (pushAll (Function.update mem (sp - 8) w) (sp - 8) ws).2 +
        BitVec.ofNat 64 (8 * ws.length) = sp - 8 := by
      rw [pushAll_snd]
      exact BitVec.sub_add_cancel ..
    rw [hplace, pushAll_of_outside (by omega) (by omega), Function.update_self]

end

end KyroOS.Context

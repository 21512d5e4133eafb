import Mathlib.Order.Basic

/-!
# Computations with fuel

A recursive function without a bound of its own is given fuel, and one value stands for a
computation that has used it up. With more fuel a computation comes to the same result, or to one
where there was none.

## Main definitions

* `Refines` — what a computation may come to with more fuel
* `Rising` — more fuel only refines
* `Ends` — some fuel is enough

## Main results

* `Rising.eq_of_le` — a result stays
* `Ends.bind` — two computations one after the other end if each of them does
-/

namespace Fuel

universe u v

variable {ε : Type u} {α β : Type v} {out : ε} {x y : Except ε α}

/-- What a computation may come to with more fuel: the same, unless there was not enough. -/
def Refines (out : ε) (x y : Except ε α) : Prop := x = .error out ∨ y = x

theorem Refines.refl (x : Except ε α) : Refines out x x := .inr rfl

theorem Refines.eq (h : Refines out x y) (hne : x ≠ .error out) : y = x := h.resolve_left hne

theorem Refines.bind {f g : α → Except ε β} (h : Refines out x y)
    (hfg : ∀ a, Refines out (f a) (g a)) : Refines out (x >>= f) (y >>= g) := by
  rcases h with rfl | rfl
  · exact .inl rfl
  · cases y with
    | error e => exact .inr rfl
    | ok a => exact hfg a

theorem Refines.ite {p : Prop} [Decidable p] {x' y' : Except ε α} (h : Refines out x y)
    (h' : Refines out x' y') :
    Refines out (if p then x else x') (if p then y else y') := by
  split_ifs
  · exact h
  · exact h'

variable {run : ℕ → Except ε α} {next : α → ℕ → Except ε β}

/-- Two computations, neither of which runs out of fuel. -/
theorem bind_ne {f : α → Except ε β} (hx : x ≠ .error out) (hf : ∀ a, f a ≠ .error out) :
    x >>= f ≠ .error out := by
  intro hout
  cases x with
  | error e => exact hx (congrArg Except.error (Except.error.inj hout))
  | ok a => exact hf a hout

/-- More fuel only refines. -/
def Rising (out : ε) (run : ℕ → Except ε α) : Prop :=
  ∀ ⦃n m : ℕ⦄, n ≤ m → Refines out (run n) (run m)

/-- Some fuel is enough. -/
def Ends (out : ε) (run : ℕ → Except ε α) : Prop := ∃ n, run n ≠ .error out

/-- A result stays. -/
theorem Rising.eq_of_le (h : Rising out run) {n m : ℕ} (hle : n ≤ m)
    (hne : run n ≠ .error out) : run m = run n :=
  (h hle).eq hne

/-- A computation that takes no fuel. -/
theorem Ends.const (hne : x ≠ .error out) : Ends out fun _ => x := ⟨0, hne⟩

/-- Fuel that is used up at the start is not missed. -/
theorem Ends.succ {later : ℕ → Except ε α} (h : Ends out run)
    (hlater : ∀ n, later (n + 1) = run n) : Ends out later := by
  obtain ⟨n, hn⟩ := h
  exact ⟨n + 1, (hlater n).symm ▸ hn⟩

theorem Rising.later (h : Rising out run) : Rising out fun n => run (n + 1) :=
  fun _ _ hle => h (Nat.succ_le_succ hle)

/-- Fuel that is not used up does no harm. -/
theorem Ends.later (hrising : Rising out run) (h : Ends out run) :
    Ends out fun n => run (n + 1) := by
  obtain ⟨n, hn⟩ := h
  refine ⟨n, ?_⟩
  dsimp only
  rw [hrising.eq_of_le (Nat.le_succ n) hn]
  exact hn

/-- A computation behind one that takes no fuel. -/
theorem Ends.after (hx : x ≠ .error out) (hnext : ∀ a, x = .ok a → Ends out (next a)) :
    Ends out fun n => x >>= fun a => next a n := by
  cases x with
  | error e => exact ⟨0, fun hout => hx (congrArg Except.error (Except.error.inj hout))⟩
  | ok a => exact hnext a rfl

theorem Ends.ite {p : Prop} [Decidable p] {run' : ℕ → Except ε α} (h : p → Ends out run)
    (h' : ¬p → Ends out run') : Ends out fun n => if p then run n else run' n := by
  by_cases hp : p
  · obtain ⟨n, hn⟩ := h hp
    refine ⟨n, ?_⟩
    dsimp only
    rw [if_pos hp]
    exact hn
  · obtain ⟨n, hn⟩ := h' hp
    refine ⟨n, ?_⟩
    dsimp only
    rw [if_neg hp]
    exact hn

/-- Two computations one after the other end if each of them does. -/
theorem Ends.bind (hrising : Rising out run) (hends : Ends out run)
    (hnext : ∀ a, Rising out (next a)) (hnextEnds : ∀ n a, run n = .ok a → Ends out (next a)) :
    Ends out fun n => run n >>= fun a => next a n := by
  obtain ⟨n, hn⟩ := hends
  cases hrun : run n with
  | error e =>
    refine ⟨n, ?_⟩
    dsimp only
    rw [hrun] at hn ⊢
    intro hout
    cases hout
    exact hn rfl
  | ok a =>
    obtain ⟨m, hm⟩ := hnextEnds n a hrun
    refine ⟨max n m, ?_⟩
    dsimp only
    rw [hrising.eq_of_le (Nat.le_max_left n m) hn, hrun]
    intro hout
    exact hm (((hnext a).eq_of_le (Nat.le_max_right n m) hm).symm.trans hout)

end Fuel

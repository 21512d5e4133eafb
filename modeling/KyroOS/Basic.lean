import Mathlib.Data.BitVec
import Mathlib.Logic.Function.Basic

/-!
# Machine words, pointers, thread states and outcomes

The types every layer of the kernel model shares.
-/

namespace KyroOS

/-- A 64-bit machine word: a register, a `uint64_t`, a pointer. -/
abbrev Word := BitVec 64

/-- A byte of memory. -/
abbrev Byte := BitVec 8

/-- The scheduling state of a thread, `thread_state_t`. -/
inductive ThreadState
  | running
  | ready
  | blocked
  | dead
  deriving DecidableEq, Repr

/-- Why the kernel does not go on: it panics, it follows a bad pointer, or a loop has not
come to an end within the given number of turns. -/
inductive Halt
  | panic (message : String)
  | fault
  | outOfFuel
  deriving DecidableEq, Repr

/-- The result of kernel code that may not come back. -/
abbrev Outcome (α : Type) := Except Halt α

theorem Outcome.ok_bind {α β : Type} (a : α) (f : α → Outcome β) :
    ((.ok a : Outcome α) >>= f) = f a := rfl

/-- A computation that comes back came back from each of its parts. -/
theorem Outcome.bind_eq_ok {α β : Type} {x : Outcome α} {f : α → Outcome β} {b : β} :
    x >>= f = .ok b ↔ ∃ a, x = .ok a ∧ f a = .ok b := by
  cases x with
  | error e => exact ⟨fun h => (by cases h), fun ⟨_, h, _⟩ => (by cases h)⟩
  | ok a => exact ⟨fun h => ⟨a, rfl, h⟩, fun ⟨_, h, h'⟩ => (by cases h; exact h')⟩

/-- The result of a computation that comes back. -/
theorem Outcome.toOption_eq_some {α : Type} {x : Outcome α} {a : α} :
    x.toOption = some a ↔ x = .ok a := by
  cases x with
  | error e => exact ⟨fun h => (by cases h), fun h => (by cases h)⟩
  | ok b => exact ⟨fun h => congrArg _ (Option.some.inj h), fun h => congrArg _ (Except.ok.inj h)⟩

end KyroOS

import Mathlib.Data.List.Basic

/-!
# Bounded queues

A bounded queue takes an element at its end as long as it holds fewer than its capacity, drops it
otherwise, and gives out its first element. It is used by calls that take effect one after the
other; each call has a result.

## Main definitions

* `exec` — what a call does to the elements that wait, and its result
* `run` — a list of calls with their results
* `accepted`, `popped` — the elements that calls put in and took out

## Main results

* `accepted_run` — what was put in is what was taken out, in the same order, and what waits
-/

namespace BoundedFifo

variable {α : Type*} {cap : ℕ}

/-- A call of a client. -/
inductive Call (α : Type*)
  | push (a : α)
  | pop
  deriving Repr

/-- The result of a call. -/
inductive Result (α : Type*)
  /-- The element was put into the queue. -/
  | accepted (a : α)
  | dropped
  | popped (a : α)
  /-- There was nothing to take out. -/
  | empty
  deriving DecidableEq, Repr

/-- What a call does to the elements that wait. -/
def exec (cap : ℕ) : List α → Call α → List α × Result α
  | waiting, .push a =>
    if waiting.length < cap then (waiting ++ [a], .accepted a) else (waiting, .dropped)
  | [], .pop => ([], .empty)
  | a :: waiting, .pop => (waiting, .popped a)

/-- What calls do that take effect one after the other. -/
def run (cap : ℕ) : List α → List (Call α) → List α × List (Result α)
  | waiting, [] => (waiting, [])
  | waiting, c :: calls =>
    let (waiting, result) := exec cap waiting c
    let (waiting, results) := run cap waiting calls
    (waiting, result :: results)

/-- The elements that were put in, in order. -/
def accepted (results : List (Result α)) : List α :=
  results.filterMap fun | .accepted a => some a | _ => none

/-- The elements that were taken out, in order. -/
def popped (results : List (Result α)) : List α :=
  results.filterMap fun | .popped a => some a | _ => none

theorem accepted_cons (r : Result α) (results : List (Result α)) :
    accepted (r :: results) = accepted [r] ++ accepted results :=
  List.filterMap_append (l := [r])

theorem popped_cons (r : Result α) (results : List (Result α)) :
    popped (r :: results) = popped [r] ++ popped results :=
  List.filterMap_append (l := [r])

theorem run_cons (waiting : List α) (c : Call α) (calls : List (Call α)) :
    run cap waiting (c :: calls) =
      ((run cap (exec cap waiting c).1 calls).1,
        (exec cap waiting c).2 :: (run cap (exec cap waiting c).1 calls).2) := rfl

/-- One call: what waited and is put in is what is taken out and waits. -/
theorem accepted_exec (cap : ℕ) (waiting : List α) (c : Call α) :
    waiting ++ accepted [(exec cap waiting c).2] =
      popped [(exec cap waiting c).2] ++ (exec cap waiting c).1 := by
  cases c with
  | push a =>
    by_cases hroom : waiting.length < cap
    · simp [exec, hroom, accepted, popped]
    · simp [exec, hroom, accepted, popped]
  | pop => cases waiting <;> simp [exec, accepted, popped]

/-- What waited and was put in is what was taken out, in the same order, and what waits. -/
theorem accepted_run (cap : ℕ) (waiting : List α) (calls : List (Call α)) :
    waiting ++ accepted (run cap waiting calls).2 =
      popped (run cap waiting calls).2 ++ (run cap waiting calls).1 := by
  induction calls generalizing waiting with
  | nil => simp [run, accepted, popped]
  | cons c calls ih =>
    have hfirst := accepted_exec cap waiting c
    have hrest := ih (exec cap waiting c).1
    rw [run_cons]
    rw [accepted_cons, popped_cons, ← List.append_assoc, hfirst, List.append_assoc, hrest,
      List.append_assoc]

end BoundedFifo

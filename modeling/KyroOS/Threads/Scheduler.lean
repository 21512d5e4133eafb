import KyroOS.Threads.Basic
import KyroOS.Memory.Teardown

/-!
# The scheduler

`schedule` walks the ring of threads from the one after `ready_queue`, frees the DEAD ones
it passes and stops at the first READY one. The walk is a loop that need not end, so it is
given a number of turns; a turn follows a pointer to a block that was freed only into a
fault.

## Main definitions

* `Search`, `turn`, `search` — the loop of `schedule`
* `reap` — what becomes of a DEAD thread
* `schedule` — the whole function, up to the call of `thread_switch`
* `threadSwitch` — what `thread_switch` does to the kernel's data
-/

namespace KyroOS.Threads

open KyroOS.Memory

/-- The addresses of the pages of a user stack. -/
def stackPages (base : Word) : List Word :=
  (List.range 256).map fun i => base + BitVec.ofNat 64 (i * pageSize)

/-- `kfree` of a `thread_t`. -/
def Kernel.kfree (k : Kernel) (p : Word) : Kernel := { k with live := k.live.erase p }

/-- The clean-up of a DEAD thread: its user stack, its address space and its blocks. -/
def reap (k : Kernel) (dead : Word) : Kernel :=
  let t := k.thread dead
  let vmm := if t.userStackBase = 0 then k.vmm
    else unmapAndFree k.vmm t.pml4 (stackPages t.userStackBase)
  let vmm := if t.pml4 ≠ 0 ∧ t.id ≠ 0 then vmmDestroyAddressSpace vmm t.pml4 else vmm
  { k with vmm }.kfree dead

/-- The variables of the loop of `schedule`. -/
structure Search where
  kernel : Kernel
  prev : Word
  curr : Word
  /-- `next_thread`. -/
  chosen : Word

/-- The thread at `curr` is taken off the ring and freed. When it was the tail, the thread
before it is. -/
def Search.free (s : Search) : Search :=
  let k := s.kernel.setNext s.prev (s.kernel.next s.curr)
  let curr := k.next s.curr
  let k := { k with readyQueue := if k.readyQueue = s.curr then s.prev else k.readyQueue }
  { s with kernel := reap k s.curr, curr }

/-- How a turn of the loop ends: at its test, by `break`, or by following a pointer to a
block that is not a thread. -/
inductive TurnEnd
  | test
  | done
  | fault
  deriving DecidableEq

/-- One turn of the loop. -/
def turn (old : Word) (s : Search) : Search × TurnEnd :=
  let k := s.kernel
  let t := k.thread s.curr
  if s.curr ∉ k.live then (s, .fault)
  else if t.state = .dead ∧ t.id ≠ 0 then
    -- the current thread is freed by a later call
    if s.curr = old then ({ s with prev := s.curr, curr := t.next }, .test)
    else if s.prev ∉ k.live then (s, .fault)
    else if s.free.kernel.readyQueue = 0 then (s.free, .done)
    else (s.free, .test)
  else if t.state = .ready then ({ s with chosen := s.curr }, .done)
  else ({ s with prev := s.curr, curr := t.next }, .test)

/-- How the loop stands: it needs more turns, it is over, or it went wrong. -/
inductive SearchEnd
  | running
  | ended
  | fault
  deriving DecidableEq

/-- The loop, for a number of turns. -/
def search (old start : Word) : ℕ → Search → Search × SearchEnd
  | 0, s => (s, .running)
  | turns + 1, s =>
    match turn old s with
    | (s, .fault) => (s, .fault)
    | (s, .done) => (s, .ended)
    | (s, .test) => if s.curr = start then (s, .ended) else search old start turns s

/-- The variables before the loop. -/
def searchStart (k : Kernel) : Search where
  kernel := k
  prev := k.readyQueue
  curr := k.next k.readyQueue
  chosen := k.next k.readyQueue

/-- The loop of a call of `schedule`. -/
def searchFrom (k : Kernel) (turns : ℕ) : Search × SearchEnd :=
  search k.currentThread (k.next k.readyQueue) turns (searchStart k)

/-- The bookkeeping of a switch from `old` to `new`. -/
def select (k : Kernel) (old new : Word) : Kernel :=
  let k := { k with readyQueue := new }
  let k := if (k.thread old).state = .running then k.setState old .ready else k
  let k := k.setState new .running
  { k with currentThread := new }

/-- `tss_set_stack` for the thread that is switched to, if it has a stack of its own. -/
def setTssStack (k : Kernel) (new : Word) : Kernel :=
  if (k.thread new).stack = 0 then k
  else { k with tssRsp0 := (k.thread new).stack + BitVec.ofNat 64 kernelStackSize }

/-- The part of `schedule` after the loop. A switch is returned as the arguments of
`thread_switch`. -/
def dispatch (k : Kernel) (old new : Word) : Outcome (Kernel × Option (Word × Word)) :=
  if new ∉ k.live ∨ old ∉ k.live then throw .fault
  else if (k.thread new).state ≠ .ready then
    if (k.thread old).state = .running then return (k, none)
    else throw (.panic "Scheduler: No runnable threads!")
  else if old ≠ new then return (setTssStack (select k old new) new, some (old, new))
  else return (select k old new, none)

/-- `schedule`, with a number of turns for its loop. -/
def schedule (turns : ℕ) (k : Kernel) : Outcome (Kernel × Option (Word × Word)) :=
  if k.currentThread = 0 ∨ k.readyQueue = 0 then return (k, none)
  else if k.readyQueue ∉ k.live then throw .fault
  else
    match searchFrom k turns with
    | (_, .running) => throw .outOfFuel
    | (_, .fault) => throw .fault
    | (s, .ended) => dispatch s.kernel k.currentThread s.chosen

/-- What `thread_switch` does to the kernel's data, when it is called with the stack pointer
`rsp` at the last register it saves. -/
def threadSwitch (k : Kernel) (old new rsp : Word) : Kernel :=
  let k := k.setThread old fun t => { t with rsp }
  if (k.thread old).pml4 = (k.thread new).pml4 then k
  else { k with cr3 := k.vmm.virtToPhys (k.thread new).pml4 }

/-- A whole call of `schedule` with the switch it ends with. -/
def scheduleAndSwitch (turns : ℕ) (k : Kernel) (rsp : Word) : Outcome Kernel := do
  let (k, switch) ← schedule turns k
  match switch with
  | none => return k
  | some (old, new) => return threadSwitch k old new rsp

/-- The part of `thread_exit` before it calls `schedule`. -/
def threadExit (k : Kernel) : Kernel := k.setState k.currentThread .dead

/-- The current thread has not exited. -/
def Kernel.Runs (k : Kernel) : Prop := (k.thread k.currentThread).state ≠ .dead

instance (k : Kernel) : Decidable k.Runs := inferInstanceAs (Decidable (_ ≠ _))

/-! ### What the parts leave alone -/

section Frame

variable (k : Kernel) (old new p : Word)

@[simp] theorem select_next : (select k old new).next = k.next := by
  unfold select
  dsimp only
  split_ifs
  · exact (setState_next _ _ _).trans (setState_next _ _ _)
  · exact setState_next _ _ _

@[simp] theorem select_live : (select k old new).live = k.live := by
  unfold select
  dsimp only
  split_ifs <;> rfl

@[simp] theorem select_readyQueue : (select k old new).readyQueue = new := by
  unfold select
  dsimp only
  split_ifs <;> rfl

@[simp] theorem select_currentThread : (select k old new).currentThread = new := rfl

/-- States aside, no record changes. -/
theorem select_fields {α : Type} (g : Thread → α) (hg : ∀ t s, g { t with state := s } = g t) :
    g ((select k old new).thread p) = g (k.thread p) := by
  unfold select
  dsimp only
  split_ifs
  · exact (setState_fields _ new p _ g hg).trans (setState_fields _ old p _ g hg)
  · exact setState_fields _ new p _ g hg

theorem setTssStack_thread : (setTssStack k new).thread = k.thread := by
  unfold setTssStack
  split_ifs <;> rfl

@[simp] theorem setTssStack_next : (setTssStack k new).next = k.next := by
  funext q
  rw [Kernel.next, setTssStack_thread, Kernel.next]

@[simp] theorem setTssStack_live : (setTssStack k new).live = k.live := by
  unfold setTssStack
  split_ifs <;> rfl

@[simp] theorem setTssStack_readyQueue : (setTssStack k new).readyQueue = k.readyQueue := by
  unfold setTssStack
  split_ifs <;> rfl

@[simp] theorem setTssStack_currentThread :
    (setTssStack k new).currentThread = k.currentThread := by
  unfold setTssStack
  split_ifs <;> rfl

/-- What `threadSwitch` writes to the records is a stack pointer. -/
theorem threadSwitch_fields {α : Type} (rsp : Word) (g : Thread → α)
    (hg : ∀ t w, g { t with rsp := w } = g t) :
    g ((threadSwitch k old new rsp).thread p) = g (k.thread p) := by
  have hset : g ((k.setThread old fun t => { t with rsp }).thread p) = g (k.thread p) := by
    by_cases hp : p = old
    · rw [hp, setThread_self, hg]
    · rw [setThread_of_ne _ _ hp]
  unfold threadSwitch
  dsimp only
  split_ifs <;> exact hset

@[simp] theorem threadSwitch_live (rsp : Word) : (threadSwitch k old new rsp).live = k.live := by
  unfold threadSwitch
  dsimp only
  split_ifs <;> rfl

@[simp] theorem threadSwitch_readyQueue (rsp : Word) :
    (threadSwitch k old new rsp).readyQueue = k.readyQueue := by
  unfold threadSwitch
  dsimp only
  split_ifs <;> rfl

@[simp] theorem threadSwitch_currentThread (rsp : Word) :
    (threadSwitch k old new rsp).currentThread = k.currentThread := by
  unfold threadSwitch
  dsimp only
  split_ifs <;> rfl

@[simp] theorem threadSwitch_next (rsp : Word) : (threadSwitch k old new rsp).next = k.next := by
  funext q
  exact threadSwitch_fields k old new q rsp Thread.next fun _ _ => rfl

end Frame

end KyroOS.Threads

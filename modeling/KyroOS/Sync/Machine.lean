import KyroOS.Basic
import KyroOS.Lib.Transition
import Mathlib.Tactic.SplitIfs

/-!
# The synchronisation primitives as one preemptible machine

`spinlock.c`, `waitqueue.c`, `mutex.c` and `pipe.c`, executed by any number of
kernel threads on one CPU. The program counter of a thread (`Pc`) names the
statement it executes next, together with the local variables that are live
there; `exec` performs one statement. A spinlock operation, a statement of the
wait queue code and one turn of a loop under a lock are separate statements, and
the timer interrupt may call `schedule()` between any two of them.

A wait queue serves one mutex or one end of a pipe, and its functions are called
from fixed places only. A `Waiter` is a call of `waitqueue_add` with what its
caller does when `schedule()` returns; a `Waker` is a call of
`waitqueue_wakeup_one` or `waitqueue_wakeup_all` with what follows it.

The fields of `Machine` from `critical` on record the past for the statements
about runs. No statement of the code reads them.

## Main definitions

* `Pc`, `Machine` — program counters and the state of the machine
* `Machine.exec` — one statement of the current thread
* `Machine.Schedules` — what a call of `schedule()` does to the threads
* `Machine.Step`, `Machine.system` — the transition system
* `Machine.take` — its steps as a partial function of the choices
-/

namespace KyroOS.Sync

/-- The capacity of a pipe, `PIPE_BUF_SIZE`. -/
def pipeBufSize : ℕ := 4096

/-- The error number of a write to a pipe without a reader, `EPIPE`. -/
def ePIPE : ℤ := 32

/-- The wait queues: one for each mutex, two for each pipe. -/
inductive QueueId
  | mutexWait (m : ℕ)
  | pipeRead (p : ℕ)
  | pipeWrite (p : ℕ)
  deriving DecidableEq, Repr

/-- The spinlocks: `mutex->lock`, `pipe->lock` and `wq->lock`. -/
inductive LockId
  | mutex (m : ℕ)
  | pipe (p : ℕ)
  | queue (q : QueueId)
  deriving DecidableEq, Repr

/-- A completed call with the value it returns. -/
inductive Ret
  | lock (m : ℕ)
  | unlock (m : ℕ)
  | tryLock (m : ℕ) (acquired : Bool)
  | read (p : ℕ) (dest : List Byte)
  | write (p : ℕ) (value : ℤ)
  | closeRead (p : ℕ)
  | closeWrite (p : ℕ)
  | destroy (p : ℕ)
  deriving DecidableEq, Repr

/-- A call a thread can make. The buffer of a write holds the `count` bytes that
the caller passes. -/
inductive Call
  | lock (m : ℕ)
  | unlock (m : ℕ)
  | tryLock (m : ℕ)
  | read (p : ℕ) (count : ℕ)
  | write (p : ℕ) (src : List Byte)
  | closeRead (p : ℕ)
  | closeWrite (p : ℕ)
  | destroy (p : ℕ)
  deriving DecidableEq, Repr

/-- The calls of `waitqueue_add`, with the local variables of the caller. -/
inductive Waiter
  | mutexLock (m : ℕ)
  | pipeRead (p : ℕ) (count : ℕ)
  | pipeWrite (p : ℕ) (src : List Byte) (written : ℕ)
  deriving DecidableEq, Repr

/-- The calls of the wake-up functions, with what the caller returns afterwards. -/
inductive Waker
  | mutexUnlock (m : ℕ)
  | pipeRead (p : ℕ) (dest : List Byte)
  | pipeWrite (p : ℕ) (written : ℕ)
  | closeRead (p : ℕ)
  | closeWrite (p : ℕ)
  | destroyRead (p : ℕ)
  | destroyWrite (p : ℕ)
  deriving DecidableEq, Repr

/-- The statement a thread executes next. -/
inductive Pc (Tid : Type*)
  /-- Outside the synchronisation code. -/
  | idle
  /-- `spinlock_acquire(&mutex->lock)` of `mutex_lock`. -/
  | lockAcquire (m : ℕ)
  /-- `if (mutex->locked)` of `mutex_lock`, with the branch that takes the mutex. -/
  | lockTest (m : ℕ)
  | unlockAcquire (m : ℕ)
  /-- `if (mutex->owner != get_current_thread())`, with the branch that frees it. -/
  | unlockTest (m : ℕ)
  | tryAcquire (m : ℕ)
  | tryTest (m : ℕ)
  | readAcquire (p : ℕ) (count : ℕ)
  /-- `while (pipe->data_size == 0 && !pipe->write_closed)` and the test after it. -/
  | readWait (p : ℕ) (count : ℕ)
  /-- One turn of `while (bytes_read < count && pipe->data_size > 0)`. -/
  | readCopy (p : ℕ) (count : ℕ) (dest : List Byte)
  | writeAcquire (p : ℕ) (src : List Byte)
  /-- `if (pipe->read_closed)` at the entry of `pipe_write`. -/
  | writeEntry (p : ℕ) (src : List Byte)
  /-- One turn of `while (bytes_written < (long)count)`. -/
  | writeLoop (p : ℕ) (src : List Byte) (written : ℕ)
  /-- `spinlock_acquire(&pipe->lock)` after `schedule()` in `pipe_write`. -/
  | writeReacquire (p : ℕ) (src : List Byte) (written : ℕ)
  | closeReadAcquire (p : ℕ)
  | closeReadMark (p : ℕ)
  | closeWriteAcquire (p : ℕ)
  | closeWriteMark (p : ℕ)
  /-- `kfree(pipe)` of `pipe_destroy`. -/
  | destroyFree (p : ℕ)
  /-- `spinlock_acquire(&wq->lock)` of `waitqueue_add`. -/
  | addAcquire (w : Waiter)
  /-- The new entry becomes `wq->head`. -/
  | addPush (w : Waiter)
  /-- `thread->state = THREAD_BLOCKED`. -/
  | addBlock (w : Waiter)
  /-- `spinlock_release(&wq->lock)` of `waitqueue_add`. -/
  | addRelease (w : Waiter)
  /-- The caller of `waitqueue_add` releases its own lock. -/
  | waitRelease (w : Waiter)
  /-- The caller of `waitqueue_add` calls `schedule()`. -/
  | waitSchedule (w : Waiter)
  /-- `spinlock_acquire(&wq->lock)` of `waitqueue_remove_first`. -/
  | wakeAcquire (k : Waker)
  | wakeRemove (k : Waker)
  | wakeRelease (k : Waker) (woken : Option Tid)
  /-- `thread->state = THREAD_READY`. -/
  | wakeReady (k : Waker) (woken : Tid)
  /-- The last statement under a lock: release it and return. -/
  | release (l : LockId) (r : Ret)
  | returns (r : Ret)
  deriving DecidableEq, Repr

/-- The fields of `mutex_t` that its lock protects. -/
structure Mutex (Tid : Type*) where
  locked : Bool := false
  owner : Option Tid := none

/-- The fields of `pipe_t` that its lock protects; `freed` marks a pipe that
`pipe_destroy` has given back to the heap. -/
structure Pipe where
  buffer : ℕ → Byte
  readPos : ℕ := 0
  writePos : ℕ := 0
  dataSize : ℕ := 0
  readClosed : Bool := false
  writeClosed : Bool := false
  freed : Bool := false

/-- The state of the machine. -/
structure Machine (Tid : Type*) where
  /-- `current_thread`. -/
  current : Tid
  state : Tid → ThreadState
  pc : Tid → Pc Tid
  /-- The thread that holds a spinlock, `none` when `locked` is clear. -/
  lock : LockId → Option Tid
  /-- The threads on a wait queue, from `wq->head` on. -/
  queue : QueueId → List Tid
  mutex : ℕ → Mutex Tid
  pipe : ℕ → Pipe
  /-- Between a returned lock call on a mutex and the matching unlock call. -/
  critical : ℕ → Tid → Bool
  /-- The bytes the thread's current call has moved. -/
  moved : Tid → ℕ
  /-- The bytes stored into a pipe so far. -/
  stored : ℕ → List Byte
  /-- The bytes copied out of a pipe so far. -/
  taken : ℕ → List Byte
  /-- The completed calls, each with the number of bytes it moved. -/
  returned : List (Tid × Ret × ℕ)

namespace Waiter

/-- The queue the thread is added to. -/
def queue : Waiter → QueueId
  | mutexLock m => .mutexWait m
  | pipeRead p _ => .pipeRead p
  | pipeWrite p _ _ => .pipeWrite p

/-- The lock the caller of `waitqueue_add` holds. -/
def outer : Waiter → LockId
  | mutexLock m => .mutex m
  | pipeRead p _ => .pipe p
  | pipeWrite p _ _ => .pipe p

/-- Where the caller continues when `schedule()` returns: `mutex_lock` returns,
the pipe functions take the lock again. -/
def resume {Tid : Type*} : Waiter → Pc Tid
  | mutexLock m => .returns (.lock m)
  | pipeRead p count => .readAcquire p count
  | pipeWrite p src written => .writeReacquire p src written

end Waiter

namespace Waker

/-- The queue threads are woken from. -/
def queue : Waker → QueueId
  | mutexUnlock m => .mutexWait m
  | pipeRead p _ => .pipeWrite p
  | pipeWrite p _ => .pipeRead p
  | closeRead p => .pipeWrite p
  | closeWrite p => .pipeRead p
  | destroyRead p => .pipeRead p
  | destroyWrite p => .pipeWrite p

/-- The lock the caller holds; `pipe_destroy` holds none. -/
def outer : Waker → Option LockId
  | mutexUnlock m => some (.mutex m)
  | pipeRead p _ | pipeWrite p _ | closeRead p | closeWrite p => some (.pipe p)
  | destroyRead _ | destroyWrite _ => none

/-- The calls of `waitqueue_wakeup_all`. -/
def all : Waker → Bool
  | mutexUnlock _ | pipeRead _ _ | pipeWrite _ _ => false
  | closeRead _ | closeWrite _ | destroyRead _ | destroyWrite _ => true

/-- The statement after the call. -/
def after {Tid : Type*} : Waker → Pc Tid
  | mutexUnlock m => .release (.mutex m) (.unlock m)
  | pipeRead p dest => .release (.pipe p) (.read p dest)
  | pipeWrite p written => .release (.pipe p) (.write p written)
  | closeRead p => .release (.pipe p) (.closeRead p)
  | closeWrite p => .release (.pipe p) (.closeWrite p)
  | destroyRead p => .wakeAcquire (.destroyWrite p)
  | destroyWrite p => .destroyFree p

end Waker

/-- The first statement of a call. -/
def Call.entry {Tid : Type*} : Call → Pc Tid
  | .lock m => .lockAcquire m
  | .unlock m => .unlockAcquire m
  | .tryLock m => .tryAcquire m
  | .read p count => .readAcquire p count
  | .write p src => .writeAcquire p src
  | .closeRead p => .closeReadAcquire p
  | .closeWrite p => .closeWriteAcquire p
  | .destroy p => .wakeAcquire (.destroyRead p)

/-- `(long)count` for the length of a buffer. -/
def longCount (src : List Byte) : ℤ := (BitVec.ofNat 64 src.length).toInt

namespace Machine

variable {Tid : Type*} [DecidableEq Tid]

/-- Thread `t` continues at `pc`. -/
def goto (s : Machine Tid) (t : Tid) (pc : Pc Tid) : Machine Tid :=
  { s with pc := Function.update s.pc t pc }

/-- One turn of `spinlock_acquire` by `t`: take the lock and continue at `next`, or
spin. -/
def spinlockAcquire (s : Machine Tid) (t : Tid) (l : LockId) (next : Pc Tid) : Machine Tid :=
  if s.lock l = none then
    { s with lock := Function.update s.lock l (some t), pc := Function.update s.pc t next }
  else s

/-- `spinlock_release` by `t`, which continues at `next`. -/
def spinlockRelease (s : Machine Tid) (t : Tid) (l : LockId) (next : Pc Tid) : Machine Tid :=
  { s with lock := Function.update s.lock l none, pc := Function.update s.pc t next }

def setState (s : Machine Tid) (t : Tid) (state : ThreadState) : Machine Tid :=
  { s with state := Function.update s.state t state }

def setQueue (s : Machine Tid) (q : QueueId) (threads : List Tid) : Machine Tid :=
  { s with queue := Function.update s.queue q threads }

def setMutex (s : Machine Tid) (m : ℕ) (mutex : Mutex Tid) : Machine Tid :=
  { s with mutex := Function.update s.mutex m mutex }

def setPipe (s : Machine Tid) (p : ℕ) (pipe : Pipe) : Machine Tid :=
  { s with pipe := Function.update s.pipe p pipe }

/-- One turn of the copy loop of `pipe_read`: a byte leaves the ring. -/
def takeByte (s : Machine Tid) (t : Tid) (p : ℕ) : Machine Tid :=
  let pipe := s.pipe p
  { s with
    pipe := Function.update s.pipe p
      { pipe with
        readPos := (pipe.readPos + 1) % pipeBufSize
        dataSize := pipe.dataSize - 1 }
    moved := Function.update s.moved t (s.moved t + 1)
    taken := Function.update s.taken p (s.taken p ++ [pipe.buffer pipe.readPos]) }

/-- One turn of the loop of `pipe_write`: a byte enters the ring. -/
def storeByte (s : Machine Tid) (t : Tid) (p : ℕ) (byte : Byte) : Machine Tid :=
  let pipe := s.pipe p
  { s with
    pipe := Function.update s.pipe p
      { pipe with
        buffer := Function.update pipe.buffer pipe.writePos byte
        writePos := (pipe.writePos + 1) % pipeBufSize
        dataSize := pipe.dataSize + 1 }
    moved := Function.update s.moved t (s.moved t + 1)
    stored := Function.update s.stored p (s.stored p ++ [byte]) }

/-- A call returns. A lock call that returned, and a try-lock call that took the
mutex, begin a critical section. -/
def finish (s : Machine Tid) (t : Tid) (r : Ret) : Machine Tid :=
  { s with
    pc := Function.update s.pc t .idle
    critical := match r with
      | .lock m | .tryLock m true =>
        Function.update s.critical m (Function.update (s.critical m) t true)
      | _ => s.critical
    returned := (t, r, s.moved t) :: s.returned }

/-- A thread outside the synchronisation code makes a call. An unlock call ends the
critical section. -/
def begin (s : Machine Tid) (t : Tid) (c : Call) : Machine Tid :=
  { s with
    pc := Function.update s.pc t c.entry
    moved := Function.update s.moved t 0
    critical := match c with
      | .unlock m => Function.update s.critical m (Function.update (s.critical m) t false)
      | _ => s.critical }

/-- Thread `t` executes the statement `pc`. -/
def exec (s : Machine Tid) (t : Tid) : Pc Tid → Machine Tid
  | .idle => s
  | .lockAcquire m => s.spinlockAcquire t (.mutex m) (.lockTest m)
  | .lockTest m =>
    if (s.mutex m).locked then s.goto t (.addAcquire (.mutexLock m))
    else (s.setMutex m ⟨true, some t⟩).goto t (.release (.mutex m) (.lock m))
  | .unlockAcquire m => s.spinlockAcquire t (.mutex m) (.unlockTest m)
  | .unlockTest m =>
    if (s.mutex m).owner ≠ some t then s.goto t (.release (.mutex m) (.unlock m))
    else (s.setMutex m ⟨false, none⟩).goto t (.wakeAcquire (.mutexUnlock m))
  | .tryAcquire m => s.spinlockAcquire t (.mutex m) (.tryTest m)
  | .tryTest m =>
    if (s.mutex m).locked then s.goto t (.release (.mutex m) (.tryLock m false))
    else (s.setMutex m ⟨true, some t⟩).goto t (.release (.mutex m) (.tryLock m true))
  | .readAcquire p count => s.spinlockAcquire t (.pipe p) (.readWait p count)
  | .readWait p count =>
    if (s.pipe p).dataSize = 0 ∧ (s.pipe p).writeClosed = false then
      s.goto t (.addAcquire (.pipeRead p count))
    else if (s.pipe p).dataSize = 0 ∧ (s.pipe p).writeClosed = true then
      s.goto t (.release (.pipe p) (.read p []))
    else s.goto t (.readCopy p count [])
  | .readCopy p count dest =>
    if dest.length < count ∧ 0 < (s.pipe p).dataSize then
      (s.takeByte t p).goto t
        (.readCopy p count (dest ++ [(s.pipe p).buffer (s.pipe p).readPos]))
    else s.goto t (.wakeAcquire (.pipeRead p dest))
  | .writeAcquire p src => s.spinlockAcquire t (.pipe p) (.writeEntry p src)
  | .writeEntry p src =>
    if (s.pipe p).readClosed then s.goto t (.release (.pipe p) (.write p (-ePIPE)))
    else s.goto t (.writeLoop p src 0)
  | .writeLoop p src written =>
    if (written : ℤ) < longCount src then
      if pipeBufSize ≤ (s.pipe p).dataSize ∧ (s.pipe p).readClosed = false then
        s.goto t (.addAcquire (.pipeWrite p src written))
      else if (s.pipe p).readClosed then
        s.goto t (.release (.pipe p) (.write p (if 0 < written then written else -ePIPE)))
      else (s.storeByte t p (src.getD written 0)).goto t (.writeLoop p src (written + 1))
    else s.goto t (.wakeAcquire (.pipeWrite p written))
  | .writeReacquire p src written =>
    s.spinlockAcquire t (.pipe p) (.writeLoop p src written)
  | .closeReadAcquire p => s.spinlockAcquire t (.pipe p) (.closeReadMark p)
  | .closeReadMark p =>
    (s.setPipe p { s.pipe p with readClosed := true }).goto t (.wakeAcquire (.closeRead p))
  | .closeWriteAcquire p => s.spinlockAcquire t (.pipe p) (.closeWriteMark p)
  | .closeWriteMark p =>
    (s.setPipe p { s.pipe p with writeClosed := true }).goto t (.wakeAcquire (.closeWrite p))
  | .destroyFree p => (s.setPipe p { s.pipe p with freed := true }).goto t (.returns (.destroy p))
  | .addAcquire w => s.spinlockAcquire t (.queue w.queue) (.addPush w)
  | .addPush w => (s.setQueue w.queue (t :: s.queue w.queue)).goto t (.addBlock w)
  | .addBlock w => (s.setState t .blocked).goto t (.addRelease w)
  | .addRelease w => s.spinlockRelease t (.queue w.queue) (.waitRelease w)
  | .waitRelease w => s.spinlockRelease t w.outer (.waitSchedule w)
  | .waitSchedule w => s.goto t w.resume
  | .wakeAcquire k => s.spinlockAcquire t (.queue k.queue) (.wakeRemove k)
  | .wakeRemove k =>
    match s.queue k.queue with
    | [] => s.goto t (.wakeRelease k none)
    | woken :: rest => (s.setQueue k.queue rest).goto t (.wakeRelease k (some woken))
  | .wakeRelease k none => s.spinlockRelease t (.queue k.queue) k.after
  | .wakeRelease k (some woken) => s.spinlockRelease t (.queue k.queue) (.wakeReady k woken)
  | .wakeReady k woken =>
    (s.setState woken .ready).goto t (if k.all then .wakeAcquire k else k.after)
  | .release l r => s.spinlockRelease t l (.returns r)
  | .returns r => s.finish t r

/-- The statement that calls `schedule()`. -/
def callsSchedule : Pc Tid → Bool
  | .waitSchedule _ => true
  | _ => false

/-- `schedule()` has found the READY thread `u`. -/
def switchTo (s : Machine Tid) (u : Tid) : Machine Tid :=
  { s with
    current := u
    state := Function.update
      (if s.state s.current = .running then Function.update s.state s.current .ready
        else s.state) u .running }

/-- A call of `schedule()`: it picks some READY thread, or keeps the current thread if
that is still RUNNING and no thread is READY. With neither, the kernel panics and the
run ends. -/
inductive Schedules (s : Machine Tid) : Machine Tid → Prop
  | switch (u : Tid) (h : s.state u = .ready) : Schedules s (s.switchTo u)
  | keep (hnone : ∀ u, s.state u ≠ .ready) (h : s.state s.current = .running) :
      Schedules s s

/-- What happens next on the CPU. -/
inductive Event
  /-- The current thread, outside the synchronisation code, makes a call. -/
  | call (c : Call)
  /-- The current thread executes its next statement. -/
  | run
  /-- The timer interrupts the current thread and calls `schedule()`. -/
  | tick
  deriving DecidableEq, Repr

/-- The steps of the machine. -/
inductive Step : Machine Tid → Event → Machine Tid → Prop
  | call {s : Machine Tid} (c : Call) (hidle : s.pc s.current = .idle) :
      Step s (.call c) (s.begin s.current c)
  | run {s : Machine Tid} (hpc : callsSchedule (s.pc s.current) = false) :
      Step s .run (s.exec s.current (s.pc s.current))
  | yield {s t : Machine Tid} (hpc : callsSchedule (s.pc s.current) = true)
      (hsched : Schedules (s.exec s.current (s.pc s.current)) t) : Step s .run t
  | tick {s t : Machine Tid} (hsched : Schedules s t) : Step s .tick t

/-- The machine starts with the mutexes and pipes as `mutex_init` and `pipe_create`
leave them, and every thread outside the synchronisation code. -/
structure Initial (s : Machine Tid) : Prop where
  running : s.state s.current = .running
  others : ∀ t, t ≠ s.current → s.state t = .ready ∨ s.state t = .dead
  pc : ∀ t, s.pc t = .idle
  lock : ∀ l, s.lock l = none
  queue : ∀ q, s.queue q = []
  mutex : ∀ m, s.mutex m = {}
  pipe : ∀ p, ∃ buffer, s.pipe p = { buffer }
  critical : ∀ m t, s.critical m t = false
  moved : ∀ t, s.moved t = 0
  stored : ∀ p, s.stored p = []
  taken : ∀ p, s.taken p = []
  returned : s.returned = []

/-- The transition system of the machine. -/
def system (Tid : Type*) [DecidableEq Tid] : Transition.System (Machine Tid) Event where
  init := Initial
  step := Step

/-! ### Runs by choice -/

/-- `schedule()` picks `u`, if that thread is READY. -/
def pick (s : Machine Tid) (u : Tid) : Option (Machine Tid) :=
  if s.state u = .ready then some (s.switchTo u) else none

/-- The step for an event; a call of `schedule()` in it picks `u`. -/
def take (s : Machine Tid) : Event × Tid → Option (Machine Tid)
  | (.call c, _) => if s.pc s.current = .idle then some (s.begin s.current c) else none
  | (.run, u) =>
    let stmt := s.pc s.current
    if callsSchedule stmt then (s.exec s.current stmt).pick u
    else some (s.exec s.current stmt)
  | (.tick, u) => s.pick u

theorem schedules_of_pick {s t : Machine Tid} {u : Tid} (h : s.pick u = some t) :
    Schedules s t := by
  unfold pick at h
  split_ifs at h with hu
  obtain rfl := Option.some.inj h
  exact .switch u hu

theorem step_of_take {s t : Machine Tid} {e : Event} {u : Tid} (h : s.take (e, u) = some t) :
    Step s e t := by
  cases e with
  | call c =>
    simp only [take] at h
    split_ifs at h with hidle
    obtain rfl := Option.some.inj h
    exact .call c hidle
  | run =>
    simp only [take] at h
    split_ifs at h with hcall
    · exact .yield hcall (schedules_of_pick h)
    · obtain rfl := Option.some.inj h
      exact .run (by simpa using hcall)
  | tick => exact .tick (schedules_of_pick h)

/-- The machine at the start, with `first` running and every other thread READY. -/
def start (first : Tid) : Machine Tid where
  current := first
  state t := if t = first then .running else .ready
  pc _ := .idle
  lock _ := none
  queue _ := []
  mutex _ := {}
  pipe _ := { buffer := fun _ => 0 }
  critical _ _ := false
  moved _ := 0
  stored _ := []
  taken _ := []
  returned := []

theorem initial_start (first : Tid) : Initial (start first) where
  running := if_pos rfl
  others _ ht := .inl (if_neg ht)
  pc _ := rfl
  lock _ := rfl
  queue _ := rfl
  mutex _ := rfl
  pipe _ := ⟨_, rfl⟩
  critical _ _ := rfl
  moved _ := rfl
  stored _ := rfl
  taken _ := rfl
  returned := rfl

/-- The step for an event, if the event meets `C`. -/
def takeUnder (C : Machine Tid → Event → Prop) [∀ s e, Decidable (C s e)] (s : Machine Tid)
    (choice : Event × Tid) : Option (Machine Tid) :=
  if C s choice.1 then s.take choice else none

/-- A test of the state at the end of a run of choices tells of a reachable state. -/
theorem exists_reachableUnder {C : Machine Tid → Event → Prop} [∀ s e, Decidable (C s e)]
    {P : Machine Tid → Prop} [DecidablePred P] (first : Tid) (choices : List (Event × Tid))
    (h : (Transition.execAll (takeUnder C) (start first) choices).any (fun s => P s) = true) :
    ∃ s, (system Tid).ReachableUnder C s ∧ P s := by
  refine Transition.System.exists_reachableUnder _ choices (fun s choice t hchoice => ?_)
    (initial_start first) h
  unfold takeUnder at hchoice
  split_ifs at hchoice with hC
  exact ⟨choice.1, hC, step_of_take hchoice⟩

end Machine

end KyroOS.Sync

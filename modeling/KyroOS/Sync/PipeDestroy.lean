import KyroOS.Sync.PipeProgress
import KyroOS.Sync.PipeReturn

/-!
# Destroying a pipe

`pipe_destroy` wakes the threads that sleep in `pipe_read` and `pipe_write` and frees the
pipe. A thread that it wakes, or that `pipe_close_read` or `pipe_close_write` woke before,
takes the lock of the pipe again when it runs.

## Main definitions

* `Pc.pipe`, `Pc.accesses` — the pipe that a call goes on to access, and the one that a
  statement accesses
* `Machine.ClosesCleanly` — closing sends the readers and the writers away, and a freed pipe
  is left alone
* `Machine.DestroyLast`, `Machine.DestroysIdle` — `pipe_destroy` is the last call on the pipe,
  and it frees the pipe when no other call is in progress on it

## Main results

* `Machine.closesCleanly_of_destroysIdle` — then closing the pipe is clean
* `Machine.not_closesCleanly` — a reader that was woken runs when the pipe is freed
-/

namespace KyroOS.Sync

open Transition

variable {Tid : Type*}

def Waiter.pipe : Waiter → Option ℕ
  | mutexLock _ => none
  | pipeRead p _ | pipeWrite p _ _ => some p

def Waker.pipe : Waker → Option ℕ
  | mutexUnlock _ => none
  | pipeRead p _ | pipeWrite p _ | closeRead p | closeWrite p | destroyRead p
  | destroyWrite p => some p

def Call.pipe : Call → Option ℕ
  | lock _ | unlock _ | tryLock _ => none
  | read p _ | write p _ | closeRead p | closeWrite p | destroy p => some p

/-- The pipe whose fields the thread accesses before its call returns. -/
def Pc.pipe : Pc Tid → Option ℕ
  | .readAcquire p _ | .readWait p _ | .readCopy p _ _ | .writeAcquire p _ | .writeEntry p _
  | .writeLoop p _ _ | .writeReacquire p _ _ | .closeReadAcquire p | .closeReadMark p
  | .closeWriteAcquire p | .closeWriteMark p => some p
  | .addAcquire w | .addPush w | .addBlock w | .addRelease w | .waitRelease w
  | .waitSchedule w => w.pipe
  | .wakeAcquire k | .wakeRemove k | .wakeRelease k _ | .wakeReady k _ => k.pipe
  | .release (.pipe p) _ => some p
  | _ => none

/-- The pipe of which the statement reads or writes a field, the locks and the queues
included. -/
def Pc.accesses : Pc Tid → Option ℕ
  -- these write the state of a thread, or call `schedule()`
  | .addBlock _ | .wakeReady _ _ | .waitSchedule _ => none
  | pc => pc.pipe

theorem Pc.pipe_of_accesses {pc : Pc Tid} {p : ℕ} (h : pc.accesses = some p) :
    pc.pipe = some p := by
  cases pc <;> simp_all [Pc.accesses]

theorem Call.pipe_entry (c : Call) : (c.entry : Pc Tid).pipe = c.pipe := by
  cases c <;> rfl

theorem Waiter.pipe_resume (w : Waiter) : (w.resume : Pc Tid).pipe = w.pipe := by
  cases w <;> rfl

theorem Waker.pipe_after {k : Waker} {p : ℕ} (h : (k.after : Pc Tid).pipe = some p) :
    k.pipe = some p := by
  cases k <;> simp_all [Waker.after, Waker.pipe, Pc.pipe]

namespace Machine

variable [DecidableEq Tid] {s s' : Machine Tid} {t u : Tid} {p : ℕ} {e : Event}
  {stmt : Pc Tid}

/-! ### The claim on a pipe -/

/-- Closing and destroying the pipe is clean. -/
structure ClosesCleanly (p : ℕ) (s : Machine Tid) : Prop where
  /-- After `pipe_close_write` no reader is BLOCKED, but for one that `pipe_destroy` is about
  to mark READY. -/
  readersReady : ∀ u n, (u, .closeWrite p, n) ∈ s.returned → ∀ t count,
    (s.pc t).WaitsAt (.pipeRead p count) → s.state t = .blocked →
      ∃ v, (s.pc v).hand = some (.destroyRead p, t)
  /-- A reader then gets the bytes that remain. -/
  readersReturn : (s.pipe p).writeClosed = true → ∀ t count, s.pc t = .readWait p count →
    ∀ s', (system Tid).RunsTo (fun _ _ => True) s s' → Reading s t p count s'
  /-- After `pipe_close_read` no writer is BLOCKED, but for one that `pipe_destroy` is about
  to mark READY. -/
  writersReady : ∀ u n, (u, .closeRead p, n) ∈ s.returned → ∀ t src written,
    (s.pc t).WaitsAt (.pipeWrite p src written) → s.state t = .blocked →
      ∃ v, (s.pc v).hand = some (.destroyWrite p, t)
  /-- A writer then gets `-EPIPE`, or the count that it has stored already. -/
  writersReturn : (s.pipe p).readClosed = true → ∀ t v, writeValue p (s.pc t) = some v →
    (v = s.moved t ∨ v = -ePIPE ∧ s.moved t = 0) ∧
      ∀ s', (system Tid).RunsTo (fun _ _ => True) s s' →
        Writing s t p v s' ∧ s'.stored p = s.stored p
  /-- The statement that is executed next does not access the pipe when it is freed. -/
  unused : (s.pipe p).freed = true → (s.pc s.current).accesses ≠ some p

/-- `pipe_destroy` is the last call that is made on the pipe. -/
def DestroyLast (p : ℕ) (s : Machine Tid) : Event → Prop
  | .call c => c.pipe = some p →
    (s.pipe p).freed = false ∧ ∀ t, (s.pc t).result ≠ some (.destroy p)
  | .run | .tick => True

/-- When the pipe is freed, every other call on it has come to its end. -/
def DestroysIdle (p : ℕ) (s : Machine Tid) (e : Event) : Prop :=
  e = .run → s.pc s.current = .destroyFree p → ∀ t, (s.pc t).pipe ≠ some p

instance [Fintype Tid] (p : ℕ) (s : Machine Tid) : ∀ e, Decidable (DestroyLast p s e)
  | .call _ => inferInstanceAs (Decidable (_ → _))
  | .run | .tick => inferInstanceAs (Decidable True)

instance [Fintype Tid] (p : ℕ) (s : Machine Tid) (e : Event) : Decidable (DestroysIdle p s e) :=
  inferInstanceAs (Decidable (_ → _ → _))

/-! ### Pipes in use -/

/-- A call goes on to access the pipe that it is about, and no other. -/
theorem pipe_exec (hpc : s.pc t = stmt) (h : ((s.exec t stmt).pc t).pipe = some p) :
    stmt.pipe = some p := by
  cases stmt with
  | waitSchedule w =>
    have hresume : (w.resume : Pc Tid).pipe = some p := by simpa [exec, goto] using h
    exact (Waiter.pipe_resume w).symm.trans hresume
  | wakeRelease k woken =>
    cases woken with
    | none => exact Waker.pipe_after (by simpa [exec, spinlockRelease] using h)
    | some th => simpa [exec, spinlockRelease, Pc.pipe] using h
  | wakeReady k th =>
    cases hall : k.all with
    | true => simpa [exec, goto, hall, Pc.pipe] using h
    | false => exact Waker.pipe_after (by simpa [exec, goto, hall] using h)
  | _ =>
    simp only [exec, spinlockAcquire] at h
    (repeat' split at h) <;>
      simp_all [goto, setMutex, setPipe, setState, setQueue, takeByte, storeByte,
        spinlockRelease, finish, Pc.pipe, Waiter.pipe, Waker.pipe]

/-- Only `kfree` of `pipe_destroy` frees a pipe. -/
theorem freed_exec (h : ((s.exec t stmt).pipe p).freed = true) :
    (s.pipe p).freed = true ∨ stmt = .destroyFree p := by
  have hset : ∀ p' (pipe : Pipe), (Function.update s.pipe p' pipe p).freed = true →
      pipe.freed = (s.pipe p').freed → (s.pipe p).freed = true := by
    intro p' pipe hfreed hsame
    by_cases hp : p = p'
    · subst hp
      rwa [Function.update_self, hsame] at hfreed
    · rwa [Function.update_of_ne hp] at hfreed
  cases stmt with
  | destroyFree p' =>
    by_cases hp : p = p'
    · exact .inr (by rw [hp])
    · exact .inl (by simpa [exec, goto, setPipe, Function.update_of_ne hp] using h)
  | closeReadMark p' | closeWriteMark p' => exact .inl (hset p' _ h rfl)
  | readCopy p' count dest =>
    simp only [exec] at h
    split_ifs at h
    · exact .inl (hset p' _ h rfl)
    · exact .inl h
  | writeLoop p' src written =>
    simp only [exec] at h
    split_ifs at h <;> first | exact .inl h | exact .inl (hset p' _ h rfl)
  | wakeRelease k woken => cases woken <;> exact .inl h
  | idle => exact .inl h
  | _ =>
    simp only [exec, spinlockAcquire] at h
    (repeat' split at h) <;> exact .inl h

/-- No call goes on to access a freed pipe. -/
def UnusedInv (p : ℕ) (s : Machine Tid) : Prop :=
  (s.pipe p).freed = true → ∀ t, (s.pc t).pipe ≠ some p

theorem UnusedInv.exec (h : UnusedInv p s) (hidle : DestroysIdle p s .run) :
    UnusedInv p (s.exec s.current (s.pc s.current)) := by
  intro hfreed t ht
  have hbefore : (s.pc t).pipe = some p := by
    by_cases htc : t = s.current
    · subst htc
      exact pipe_exec rfl ht
    · rwa [exec_pc_of_ne htc] at ht
  rcases freed_exec hfreed with hold | hfree
  · exact h hold t hbefore
  · exact hidle rfl hfree t hbefore

theorem UnusedInv.schedules (h : UnusedInv p s) (hs : Schedules s s') : UnusedInv p s' := by
  rw [hs.eq]
  exact h

theorem UnusedInv.step (h : UnusedInv p s) (hlast : DestroyLast p s e)
    (hidle : DestroysIdle p s e) (hstep : Step s e s') : UnusedInv p s' := by
  cases hstep with
  | call c _ =>
    intro hfreed t ht
    by_cases htc : t = s.current
    · subst htc
      have hcall : c.pipe = some p := by
        have hentry : (c.entry : Pc Tid).pipe = some p := by simpa [begin] using ht
        exact (Call.pipe_entry c).symm.trans hentry
      exact absurd hfreed (by simp [begin, (hlast hcall).1])
    · exact h hfreed t (by simpa [begin, Function.update_of_ne htc] using ht)
  | run _ => exact h.exec hidle
  | yield _ hsched => exact (h.exec hidle).schedules hsched
  | tick hsched => exact h.schedules hsched

theorem unusedInv
    (h : (system Tid).ReachableUnder (fun s e => DestroyLast p s e ∧ DestroysIdle p s e) s) :
    UnusedInv p s := by
  refine h.invariant (fun s hs hfreed => ?_) fun _ _ _ hI hC hstep => hI.step hC.1 hC.2 hstep
  obtain ⟨buffer, hpipe⟩ := hs.pipe p
  simp [hpipe] at hfreed

/-- Nothing is stored after `pipe_close_read`. -/
theorem stored_of_readClosed {C : Machine Tid → Event → Prop}
    (hclosed : (s.pipe p).readClosed = true) (hrun : (system Tid).RunsTo C s s') :
    s'.stored p = s.stored p := by
  have hboth : (s'.pipe p).readClosed = true ∧ s'.stored p = s.stored p := by
    refine hrun.preserves (I := fun x => (x.pipe p).readClosed = true ∧ x.stored p = s.stored p)
      (fun a e b ha _ hstep => ?_) ⟨hclosed, rfl⟩
    have hexec : ((a.exec a.current (a.pc a.current)).pipe p).readClosed = true ∧
        (a.exec a.current (a.pc a.current)).stored p = s.stored p :=
      ⟨readClosed_stays ha.1, (stored_exec ha.1).trans ha.2⟩
    cases hstep with
    | call c _ => exact ha
    | run _ => exact hexec
    | yield _ hsched =>
      rw [hsched.eq]
      exact hexec
    | tick hsched =>
      rw [hsched.eq]
      exact ha
  exact hboth.2

/-- In every run in which `pipe_destroy` is the last call on the pipe, and frees it when no
other call is in progress on it, closing and destroying the pipe is clean. -/
theorem closesCleanly_of_destroysIdle
    (h : (system Tid).ReachableUnder (fun s e => DestroyLast p s e ∧ DestroysIdle p s e) s) :
    ClosesCleanly p s where
  readersReady u n hreturned _ count hwaits hb :=
    ready_of_returned h (show (u, Side.closeRet p .readers, n) ∈ s.returned from hreturned)
      (show (Waiter.pipeRead p count).queue = Side.queue p .readers from rfl) hwaits hb
  readersReturn hclosed _ _ hpc _ hrun := read_of_writeClosed h hpc hclosed hrun
  writersReady u n hreturned _ src written hwaits hb :=
    ready_of_returned h (show (u, Side.closeRet p .writers, n) ∈ s.returned from hreturned)
      (show (Waiter.pipeWrite p src written).queue = Side.queue p .writers from rfl) hwaits hb
  writersReturn hclosed _ _ hvalue :=
    ⟨(write_of_readClosed h hvalue hclosed (System.RunsTo.refl (C := fun _ _ => True))).1,
      fun _ hrun => ⟨(write_of_readClosed h hvalue hclosed hrun).2,
        stored_of_readClosed hclosed hrun⟩⟩
  unused hfreed haccesses := unusedInv h hfreed _ (Pc.pipe_of_accesses haccesses)

/-- A reader that waits gets 0 after `pipe_close_write`, and then the pipe is destroyed. -/
theorem closesCleanly_reader_returned : ∃ s : Machine (Fin 2), (s.pipe 0).freed = true ∧
    s.returned = [(0, .destroy 0, 0), (1, .read 0 [], 0), (0, .closeWrite 0, 0)] ∧
      ClosesCleanly 0 s := by
  obtain ⟨s, hs, hfreed, hreturned⟩ := exists_reachableUnder
    (C := fun s e => DestroyLast 0 s e ∧ DestroysIdle 0 s e)
    (P := fun s => (s.pipe 0).freed = true ∧
      s.returned = [(0, .destroy 0, 0), (1, .read 0 [], 0), (0, .closeWrite 0, 0)]) (1 : Fin 2)
    (readerWaits ++ (.call (.closeWrite 0), 0) :: List.replicate 11 (.run, 0) ++
      (.tick, 1) :: List.replicate 4 (.run, 0) ++
      (.tick, 0) :: (.call (.destroy 0), 0) :: List.replicate 8 (.run, 0)) (by decide +kernel)
  exact ⟨s, hfreed, hreturned, closesCleanly_of_destroysIdle hs⟩

/-- `pipe_destroy` may free the pipe before the reader that `pipe_close_write` has woken runs,
which then takes the lock of the pipe. -/
theorem not_closesCleanly : ¬ ∀ (p : ℕ) (s : Machine (Fin 2)),
    (system (Fin 2)).ReachableUnder (DestroyLast p) s → ClosesCleanly p s := by
  intro hall
  obtain ⟨s, hs, hfreed, haccesses⟩ := exists_reachableUnder (C := DestroyLast 0)
    (P := fun s => (s.pipe 0).freed = true ∧ (s.pc s.current).accesses = some 0) (1 : Fin 2)
    (readerWaits ++ (.call (.closeWrite 0), 0) :: List.replicate 11 (.run, 0) ++
      (.call (.destroy 0), 0) :: List.replicate 8 (.run, 0) ++ [(.tick, 1)]) (by decide +kernel)
  exact (hall 0 s hs).unused hfreed haccesses

end Machine

end KyroOS.Sync

import KyroOS.Sync.Machine
import Mathlib.Tactic

/-!
# The spinlock discipline

Which locks a thread holds can be read off its program counter (`Pc.holds`). In
every reachable state that reading agrees with the locks themselves, so a lock is
held by the one thread that is executing under it.

## Main definitions

* `Pc.holds` — the locks held at a program counter
* `Machine.LockEffect` — what one statement does to the locks

## Main results

* `Machine.lock_eq_some_iff_holds` — in every reachable state a thread holds exactly
  the locks its program counter says
* `Machine.holds_unique` — no two threads are under one lock
-/

namespace KyroOS.Sync

variable {Tid : Type*}

/-- The locks a thread holds when it is about to execute a statement. -/
def Pc.holds : Pc Tid → LockId → Bool
  | .lockTest m, l | .unlockTest m, l | .tryTest m, l => l = .mutex m
  | .readWait p _, l | .readCopy p _ _, l | .writeEntry p _, l | .writeLoop p _ _, l
  | .closeReadMark p, l | .closeWriteMark p, l => l = .pipe p
  | .addAcquire w, l | .waitRelease w, l => l = w.outer
  | .addPush w, l | .addBlock w, l | .addRelease w, l => l = .queue w.queue ∨ l = w.outer
  | .wakeAcquire k, l | .wakeReady k _, l => k.outer = some l
  | .wakeRemove k, l | .wakeRelease k _, l => l = .queue k.queue ∨ k.outer = some l
  | .release l' _, l => l = l'
  | _, _ => false

theorem Waiter.outer_ne_queue (w : Waiter) (q : QueueId) : w.outer ≠ .queue q := by
  cases w <;> simp [Waiter.outer]

theorem Waker.outer_ne_queue (k : Waker) (q : QueueId) : k.outer ≠ some (.queue q) := by
  cases k <;> simp [Waker.outer]

/-- The caller of a wake-up function still holds its own lock afterwards. -/
theorem Waker.holds_after (k : Waker) (l : LockId) :
    (k.after : Pc Tid).holds l = decide (k.outer = some l) := by
  cases k <;> simp [Waker.after, Waker.outer, Pc.holds, eq_comm]

/-- A thread holds no lock where it resumes after `schedule()`. -/
theorem Waiter.holds_resume (w : Waiter) (l : LockId) :
    (w.resume : Pc Tid).holds l = false := by
  cases w <;> rfl

/-- A call starts without a lock. -/
theorem Call.holds_entry (c : Call) (l : LockId) : (c.entry : Pc Tid).holds l = false := by
  cases c <;> simp [Call.entry, Pc.holds, Waker.outer]

namespace Machine

variable [DecidableEq Tid] {s s' : Machine Tid} {t u : Tid} {l : LockId} {e : Event}
  {stmt : Pc Tid}

/-! ### What a statement and a call of `schedule()` leave alone -/

@[simp] theorem exec_current (s : Machine Tid) (t : Tid) (pc : Pc Tid) :
    (s.exec t pc).current = s.current := by
  cases pc <;>
    simp only [exec, goto, spinlockAcquire, spinlockRelease, setState, setQueue, setMutex,
      setPipe, takeByte, storeByte, finish] <;> (repeat' split) <;> rfl

/-- A statement moves no other thread's program counter. -/
theorem exec_pc_of_ne (h : u ≠ t) (pc : Pc Tid) : (s.exec t pc).pc u = s.pc u := by
  cases pc <;>
    simp only [exec, goto, spinlockAcquire, spinlockRelease, setState, setQueue, setMutex,
      setPipe, takeByte, storeByte, finish] <;> (repeat' split) <;>
    simp [Function.update_of_ne h]

/-- The last statement of a call completes it, and no other statement does. -/
theorem returned_exec (s : Machine Tid) (t : Tid) (stmt : Pc Tid) :
    (s.exec t stmt).returned = s.returned ∨
      ∃ r, stmt = .returns r ∧ (s.exec t stmt).returned = (t, r, s.moved t) :: s.returned := by
  cases stmt with
  | returns r => exact .inr ⟨r, rfl, rfl⟩
  | idle => exact .inl rfl
  | wakeRelease k woken => cases woken <;> exact .inl rfl
  | _ =>
    simp only [exec, spinlockAcquire]
    (repeat' split) <;> exact .inl rfl

/-- `schedule()` changes the current thread and the thread states, nothing else. -/
theorem Schedules.eq (h : Schedules s s') :
    s' = { s with current := s'.current, state := s'.state } := by
  cases h with
  | switch u _ => rfl
  | keep _ _ => rfl

theorem Schedules.pc (h : Schedules s s') : s'.pc = s.pc := by rw [h.eq]

theorem Schedules.lock (h : Schedules s s') : s'.lock = s.lock := by rw [h.eq]

theorem Schedules.queue (h : Schedules s s') : s'.queue = s.queue := by rw [h.eq]

theorem Schedules.mutex (h : Schedules s s') : s'.mutex = s.mutex := by rw [h.eq]

theorem Schedules.pipe (h : Schedules s s') : s'.pipe = s.pipe := by rw [h.eq]

theorem Schedules.critical (h : Schedules s s') : s'.critical = s.critical := by rw [h.eq]

/-- The thread that runs after `schedule()` is RUNNING. -/
theorem Schedules.running (h : Schedules s s') : s'.state s'.current = .running := by
  cases h with
  | switch u _ => simp [switchTo]
  | keep _ hrun => exact hrun

/-- `schedule()` makes no thread BLOCKED that was not. -/
theorem Schedules.blocked (h : Schedules s s') (hb : s'.state t = .blocked) :
    s.state t = .blocked := by
  cases h with
  | switch u _ =>
    simp only [switchTo, Function.update_apply] at hb
    split_ifs at hb with hu hrun
    · rw [Function.update_apply] at hb
      split_ifs at hb
      exact hb
    · exact hb
  | keep _ _ => exact hb

/-! ### What one statement does to the locks -/

/-- The effect of a statement of `t` on the locks: none, one lock taken, or one lock
released. -/
inductive LockEffect (s : Machine Tid) (t : Tid) (stmt : Pc Tid) (s' : Machine Tid) : Prop
  | keep (hlock : s'.lock = s.lock) (hholds : ∀ l', (s'.pc t).holds l' = stmt.holds l')
  | acquire (l : LockId) (hfree : s.lock l = none)
      (hlock : s'.lock = Function.update s.lock l (some t))
      (hholds : ∀ l', (s'.pc t).holds l' = (decide (l' = l) || stmt.holds l'))
  | release (l : LockId) (hheld : stmt.holds l = true)
      (hlock : s'.lock = Function.update s.lock l none)
      (hholds : ∀ l', (s'.pc t).holds l' = (!decide (l' = l) && stmt.holds l'))

/-- A turn of `spinlock_acquire` takes the lock or changes nothing. -/
theorem lockEffect_spinlockAcquire {next : Pc Tid} (hpc : s.pc t = stmt)
    (hholds : ∀ l', next.holds l' = (decide (l' = l) || stmt.holds l')) :
    LockEffect s t stmt (s.spinlockAcquire t l next) := by
  unfold spinlockAcquire
  split_ifs with hfree
  · exact .acquire l hfree rfl (by simpa using hholds)
  · exact .keep rfl fun l' => by rw [hpc]

theorem lockEffect_spinlockRelease {next : Pc Tid} (hheld : stmt.holds l = true)
    (hholds : ∀ l', next.holds l' = (!decide (l' = l) && stmt.holds l')) :
    LockEffect s t stmt (s.spinlockRelease t l next) :=
  .release l hheld rfl (by simpa [spinlockRelease] using hholds)

/-- Every statement has one of the three effects. -/
theorem lockEffect_exec (hpc : s.pc t = stmt) : LockEffect s t stmt (s.exec t stmt) := by
  cases stmt with
  | idle => exact .keep rfl fun l => by rw [exec, hpc]
  | lockAcquire m | unlockAcquire m | tryAcquire m | readAcquire p count
  | writeAcquire p src | writeReacquire p src written | closeReadAcquire p
  | closeWriteAcquire p =>
    exact lockEffect_spinlockAcquire hpc (by simp [Pc.holds])
  | addAcquire w | wakeAcquire k =>
    exact lockEffect_spinlockAcquire hpc (by simp [Pc.holds])
  | lockTest m | unlockTest m | tryTest m | readWait p count | readCopy p count dest
  | writeEntry p src | writeLoop p src written =>
    simp only [exec]
    (repeat' split) <;>
      exact .keep rfl fun l => by
        simp [goto, setMutex, takeByte, storeByte, Pc.holds, Waiter.outer, Waker.outer,
          eq_comm (a := l)]
  | closeReadMark p | closeWriteMark p =>
    exact .keep rfl fun l => by
      simp [exec, goto, setPipe, Pc.holds, Waker.outer, eq_comm (a := l)]
  | destroyFree p => exact .keep rfl fun l => by simp [exec, goto, Pc.holds]
  | addPush w | addBlock w => exact .keep rfl fun l => by simp [exec, goto, Pc.holds]
  | addRelease w =>
    refine lockEffect_spinlockRelease (by simp [Pc.holds]) fun l => ?_
    have := w.outer_ne_queue w.queue
    by_cases hl : l = w.outer <;> by_cases hq : l = .queue w.queue <;> simp_all [Pc.holds]
  | waitRelease w =>
    exact lockEffect_spinlockRelease (by simp [Pc.holds]) (by simp [Pc.holds])
  | waitSchedule w =>
    exact .keep rfl fun l => by
      simp only [exec, goto, Function.update_self]
      exact Waiter.holds_resume w l
  | wakeRemove k =>
    simp only [exec]
    split <;> exact .keep rfl fun l => by simp [goto, Pc.holds]
  | wakeRelease k woken =>
    have hne := k.outer_ne_queue k.queue
    cases woken with
    | none =>
      refine lockEffect_spinlockRelease (by simp [Pc.holds]) fun l => ?_
      rw [Waker.holds_after]
      by_cases hq : l = .queue k.queue <;> simp_all [Pc.holds]
    | some woken =>
      refine lockEffect_spinlockRelease (by simp [Pc.holds]) fun l => ?_
      by_cases hq : l = .queue k.queue <;> simp_all [Pc.holds]
  | wakeReady k woken =>
    refine .keep rfl fun l => ?_
    cases hall : k.all with
    | true => simp [exec, goto, hall, Pc.holds]
    | false =>
      simp only [exec, goto, hall, Bool.false_eq_true, ite_false, Function.update_self]
      exact Waker.holds_after k l
  | release l r =>
    exact lockEffect_spinlockRelease (by simp [Pc.holds]) (by simp [Pc.holds])
  | returns r => exact .keep rfl fun l => by simp [exec, finish, Pc.holds]

/-! ### The discipline -/

/-- The locks are held as the program counters say. -/
def LocksAgree (s : Machine Tid) : Prop :=
  ∀ t l, (s.pc t).holds l = true ↔ s.lock l = some t

/-- A statement of a thread keeps the discipline. -/
theorem LocksAgree.exec (h : LocksAgree s) (t : Tid) : LocksAgree (s.exec t (s.pc t)) := by
  intro u l
  by_cases hu : u = t
  · subst hu
    cases lockEffect_exec (s := s) (t := u) rfl with
    | keep hlock hholds => rw [hlock, hholds, h u l]
    | acquire l' hfree hlock hholds =>
      rw [hlock, hholds, Function.update_apply]
      by_cases hl : l = l' <;> simp [hl, h u l]
    | release l' hheld hlock hholds =>
      rw [hlock, hholds, Function.update_apply]
      by_cases hl : l = l' <;> simp [hl, h u l]
  · rw [exec_pc_of_ne hu]
    cases lockEffect_exec (s := s) (t := t) rfl with
    | keep hlock _ => rw [hlock, h u l]
    | acquire l' hfree hlock _ =>
      rw [hlock, Function.update_apply, h u l]
      by_cases hl : l = l'
      · simp [hl, hfree, Ne.symm hu]
      · simp [hl]
    | release l' hheld hlock _ =>
      rw [hlock, Function.update_apply, h u l]
      have hother : s.lock l' = some t := (h t l').mp hheld
      by_cases hl : l = l'
      · simp [hl, hother, Ne.symm hu]
      · simp [hl]

theorem LocksAgree.schedules (h : LocksAgree s) (hs : Schedules s s') : LocksAgree s' := by
  intro t l
  rw [hs.pc, hs.lock, h t l]

theorem LocksAgree.step (h : LocksAgree s) (hstep : Step s e s') : LocksAgree s' := by
  cases hstep with
  | call c hidle =>
    intro t l
    by_cases ht : t = s.current
    · subst ht
      have hfree := h s.current l
      simp only [hidle, Pc.holds, Bool.false_eq_true, false_iff] at hfree
      simp [begin, Call.holds_entry, hfree]
    · simpa [begin, Function.update_of_ne ht] using h t l
  | run _ => exact h.exec s.current
  | yield _ hsched => exact (h.exec s.current).schedules hsched
  | tick hsched => exact h.schedules hsched

/-- In every reachable state a thread holds exactly the locks its program counter
says. -/
theorem lock_eq_some_iff_holds {C : Machine Tid → Event → Prop}
    (h : (system Tid).ReachableUnder C s) : LocksAgree s :=
  h.invariant (fun s hs t l => by simp [hs.pc t, hs.lock l, Pc.holds])
    fun _ _ _ hI _ hstep => hI.step hstep

omit [DecidableEq Tid] in
/-- No two threads are under one lock. -/
theorem LocksAgree.holds_unique (h : LocksAgree s) (ht : (s.pc t).holds l = true)
    (hu : (s.pc u).holds l = true) : t = u := by
  have hlock := (h u l).mp hu
  rw [(h t l).mp ht] at hlock
  exact Option.some.inj hlock

end Machine

end KyroOS.Sync

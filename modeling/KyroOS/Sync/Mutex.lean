import KyroOS.Sync.Blocking

/-!
# The mutex

`mutex_lock` blocks when it finds the mutex locked, and returns when `schedule()`
returns, without testing the mutex again and without taking it. A thread that went
through that branch therefore runs its critical section without being the owner,
and its `mutex_unlock` wakes nobody. As long as no lock call finds the mutex locked,
mutual exclusion holds; as long as the owner unlocks with at most one waiter, no
waiter is stranded.

## Main definitions

* `Machine.MutualExclusion` — a thread in its critical section is alone and owns the
  mutex
* `Machine.Stranded` — the mutex is free, a thread waits for it, and no call that
  could wake it is under way

## Main results

* `Machine.mutualExclusion_of_uncontended`, `Machine.not_stranded_of_oneWaiter`
* `Machine.not_mutualExclusion`, `Machine.exists_stranded` — what happens otherwise
-/

namespace KyroOS.Sync

open Transition

variable {Tid : Type*}

/-- The calls that have taken the mutex and not returned yet. -/
def Pc.Acquired (m : ℕ) : Pc Tid → Prop
  | .release _ r | .returns r => r = .lock m ∨ r = .tryLock m true
  | _ => False

/-- Before the statement of `mutex_unlock` that frees the mutex. -/
def Pc.Unlocking (m : ℕ) : Pc Tid → Prop
  | .unlockAcquire m' | .unlockTest m' => m' = m
  | _ => False

/-- Inside a call of `mutex_lock` or `mutex_unlock` on `m`. -/
def Pc.inMutexCall (m : ℕ) : Pc Tid → Bool
  | .lockAcquire m' | .lockTest m' | .unlockAcquire m' | .unlockTest m' => m' = m
  | .addAcquire w | .addPush w | .addBlock w | .addRelease w | .waitRelease w
  | .waitSchedule w => w = .mutexLock m
  | .wakeAcquire k | .wakeRemove k | .wakeRelease k _ | .wakeReady k _ => k = .mutexUnlock m
  | .release _ r | .returns r => r = .lock m ∨ r = .unlock m
  | _ => false

theorem Waker.eq_mutexUnlock {k : Waker} {m : ℕ} (h : k.queue = .mutexWait m) :
    k = .mutexUnlock m := by
  cases k <;> simp_all [Waker.queue]

theorem Waiter.eq_mutexLock {w : Waiter} {m : ℕ} (h : w.queue = .mutexWait m) :
    w = .mutexLock m := by
  cases w <;> simp_all [Waiter.queue]

namespace Machine

variable [DecidableEq Tid] {s s' : Machine Tid} {t u : Tid} {m : ℕ} {e : Event}
  {stmt : Pc Tid}

/-- The effect of a statement of `t` on the mutexes: none, `t` takes a free mutex, or
`t` frees the mutex it owns. -/
inductive MutexEffect (s : Machine Tid) (t : Tid) (stmt : Pc Tid) (s' : Machine Tid) : Prop
  | keep (hmutex : s'.mutex = s.mutex)
  | take (m : ℕ) (hstmt : stmt = .lockTest m ∨ stmt = .tryTest m)
      (hfree : (s.mutex m).locked = false)
      (hmutex : s'.mutex = Function.update s.mutex m ⟨true, some t⟩)
  | free (m : ℕ) (hstmt : stmt = .unlockTest m) (howner : (s.mutex m).owner = some t)
      (hmutex : s'.mutex = Function.update s.mutex m ⟨false, none⟩)
      (hpc : s'.pc t = .wakeAcquire (.mutexUnlock m))

theorem mutexEffect_exec (s : Machine Tid) (t : Tid) (stmt : Pc Tid) :
    MutexEffect s t stmt (s.exec t stmt) := by
  cases stmt with
  | lockTest m =>
    cases hlocked : (s.mutex m).locked with
    | true => exact .keep (by simp [exec, goto, hlocked])
    | false => exact .take m (.inl rfl) hlocked (by simp [exec, goto, setMutex, hlocked])
  | tryTest m =>
    cases hlocked : (s.mutex m).locked with
    | true => exact .keep (by simp [exec, goto, hlocked])
    | false => exact .take m (.inr rfl) hlocked (by simp [exec, goto, setMutex, hlocked])
  | unlockTest m =>
    by_cases howner : (s.mutex m).owner = some t
    · exact .free m rfl howner (by simp [exec, goto, setMutex, howner])
        (by simp [exec, goto, howner])
    · exact .keep (by simp [exec, goto, howner])
  | wakeRelease k woken => cases woken <;> exact .keep rfl
  | _ =>
    simp only [exec, spinlockAcquire]
    (repeat' split) <;> exact .keep rfl

/-- Only the return of a lock call or of a successful try-lock call begins a critical
section. -/
theorem critical_exec (h : (s.exec t stmt).critical m u = true) :
    s.critical m u = true ∨ u = t ∧ stmt.Acquired m := by
  cases stmt with
  | returns r =>
    have hbegin : ∀ m', Function.update s.critical m'
        (Function.update (s.critical m') t true) m u = true →
        s.critical m u = true ∨ u = t ∧ m' = m := by
      intro m' hm'
      by_cases hm : m = m'
      · subst hm
        by_cases hu : u = t
        · exact .inr ⟨hu, rfl⟩
        · exact .inl (by simpa [Function.update_of_ne hu] using hm')
      · exact .inl (by simpa [Function.update_of_ne hm] using hm')
    cases r with
    | lock m' => simpa [Pc.Acquired] using hbegin m' h
    | tryLock m' acquired =>
      cases acquired with
      | true => simpa [Pc.Acquired] using hbegin m' h
      | false => exact .inl h
    | _ => exact .inl h
  | wakeRelease k woken => cases woken <;> exact .inl h
  | _ =>
    simp only [exec, spinlockAcquire] at h
    (repeat' split at h) <;> exact .inl h

/-- A call that has the mutex after a statement had it before, or took it just now,
unless it comes back from `schedule()`. -/
theorem acquired_exec (hpc : s.pc t = stmt) (hwait : stmt.waiter ≠ some (.mutexLock m))
    (h : ((s.exec t stmt).pc t).Acquired m) :
    stmt.Acquired m ∨ (s.exec t stmt).mutex m = ⟨true, some t⟩ := by
  cases stmt with
  | lockTest m' | tryTest m' =>
    simp only [exec] at h ⊢
    split_ifs at h ⊢ with hlocked
    · simp [goto, Pc.Acquired] at h
    · obtain rfl : m' = m := by simpa [goto, Pc.Acquired] using h
      exact .inr (by simp [goto, setMutex])
  | release l r => exact .inl (by simpa [exec, spinlockRelease, Pc.Acquired] using h)
  | wakeRelease k woken =>
    cases woken with
    | none => cases k <;> simp [exec, spinlockRelease, Pc.Acquired, Waker.after] at h
    | some th => simp [exec, spinlockRelease, Pc.Acquired] at h
  | waitSchedule w =>
    cases w <;> simp [exec, goto, Pc.Acquired, Waiter.resume] at h
    simp [h, Pc.waiter] at hwait
  | wakeReady k th =>
    cases hall : k.all <;> cases k <;> simp_all [exec, goto, Pc.Acquired, Waker.after]
  | _ =>
    simp only [exec, spinlockAcquire] at h
    (repeat' split at h) <;>
      simp [goto, setMutex, setPipe, setState, setQueue, takeByte, storeByte, spinlockRelease,
        finish, Pc.Acquired, hpc] at h

theorem unlocking_exec (hpc : s.pc t = stmt) (h : ((s.exec t stmt).pc t).Unlocking m) :
    stmt.Unlocking m := by
  cases stmt with
  | unlockAcquire m' =>
    simp only [exec, spinlockAcquire] at h
    split_ifs at h <;> simpa [Pc.Unlocking, hpc] using h
  | wakeRelease k woken =>
    cases woken with
    | none => cases k <;> simp [exec, spinlockRelease, Pc.Unlocking, Waker.after] at h
    | some th => simp [exec, spinlockRelease, Pc.Unlocking] at h
  | waitSchedule w => cases w <;> simp [exec, goto, Pc.Unlocking, Waiter.resume] at h
  | wakeReady k th =>
    cases hall : k.all <;> cases k <;> simp_all [exec, goto, Pc.Unlocking, Waker.after]
  | _ =>
    simp only [exec, spinlockAcquire] at h
    (repeat' split at h) <;>
      simp [goto, setMutex, setPipe, setQueue, takeByte, spinlockRelease, finish,
        Pc.Unlocking, hpc] at h

/-! ### Mutual exclusion -/

/-- A thread between a returned lock call on `m` and its unlock call is the only one,
and it is `mutex->owner`. -/
def MutualExclusion (m : ℕ) (s : Machine Tid) : Prop :=
  ∀ t, s.critical m t = true →
    (∀ u, s.critical m u = true → u = t) ∧ (s.mutex m).owner = some t

/-- Threads call `mutex_unlock` on `m` only after their lock call returned. -/
def UnlocksOwn (m : ℕ) (s : Machine Tid) (e : Event) : Prop :=
  e = .call (.unlock m) → s.critical m s.current = true

/-- No lock call on `m` finds the mutex locked. -/
def Uncontended (m : ℕ) (s : Machine Tid) (e : Event) : Prop :=
  e = .run → s.pc s.current = .lockTest m → (s.mutex m).locked = false

/-- What holds of the mutex as long as nobody waits for it. -/
structure MutexInv (m : ℕ) (s : Machine Tid) : Prop where
  owner : ∀ t, s.critical m t = true ∨ (s.pc t).Acquired m → s.mutex m = ⟨true, some t⟩
  unlocking : ∀ t, (s.pc t).Unlocking m → s.critical m t = false
  noWaiter : ∀ t, (s.pc t).waiter ≠ some (.mutexLock m)

omit [DecidableEq Tid] in
theorem MutexInv.mutualExclusion (h : MutexInv m s) : MutualExclusion m s := by
  intro t ht
  have howner := h.owner t (.inl ht)
  refine ⟨fun u hu => ?_, by rw [howner]⟩
  have := h.owner u (.inl hu)
  rw [howner] at this
  simpa using this.symm

theorem MutexInv.exec (h : MutexInv m s)
    (hfree : s.pc t = .lockTest m → (s.mutex m).locked = false) :
    MutexInv m (s.exec t (s.pc t)) := by
  have hother : ∀ u, u ≠ t → (s.exec t (s.pc t)).pc u = s.pc u :=
    fun u hu => exec_pc_of_ne hu _
  -- a holder afterwards was one before, or has just taken the free mutex
  have hholder : ∀ u, (s.exec t (s.pc t)).critical m u = true ∨
      ((s.exec t (s.pc t)).pc u).Acquired m →
      (s.critical m u = true ∨ (s.pc u).Acquired m) ∨
        (s.exec t (s.pc t)).mutex m = ⟨true, some u⟩ := by
    rintro u (hu | hu)
    · rcases critical_exec hu with hu | ⟨rfl, hacq⟩
      · exact .inl (.inl hu)
      · exact .inl (.inr hacq)
    · by_cases hut : u = t
      · subst hut
        rcases acquired_exec rfl (h.noWaiter u) hu with hacq | htaken
        · exact .inl (.inr hacq)
        · exact .inr htaken
      · rw [hother u hut] at hu
        exact .inl (.inr hu)
  refine ⟨fun u hu => ?_, fun u hu => ?_, fun u hu => ?_⟩
  · rcases hholder u hu with hold | htaken
    · have howner := h.owner u hold
      cases mutexEffect_exec s t (s.pc t) with
      | keep hmutex => rw [hmutex, howner]
      | take m' _ hunlocked hmutex =>
        by_cases hm : m = m'
        · simp [← hm, howner] at hunlocked
        · rw [hmutex, Function.update_of_ne hm, howner]
      | free m' hstmt howner' hmutex _ =>
        by_cases hm : m = m'
        · -- the owner itself unlocks, so its critical section is over
          subst hm
          obtain rfl : u = t := by simpa [howner] using howner'
          rcases hold with hcrit | hacq
          · simp [h.unlocking u (by simp [hstmt, Pc.Unlocking])] at hcrit
          · simp [hstmt, Pc.Acquired] at hacq
        · rw [hmutex, Function.update_of_ne hm, howner]
    · exact htaken
  · by_cases hut : u = t
    · subst hut
      have hstmt := unlocking_exec rfl hu
      by_contra hcrit
      rcases critical_exec (Bool.eq_true_of_not_eq_false hcrit) with hcrit | ⟨-, hacq⟩
      · simp [h.unlocking u hstmt] at hcrit
      · cases hpc : s.pc u <;> simp [hpc, Pc.Unlocking, Pc.Acquired] at hstmt hacq
    · rw [hother u hut] at hu
      by_contra hcrit
      rcases critical_exec (Bool.eq_true_of_not_eq_false hcrit) with hcrit | ⟨hut', -⟩
      · simp [h.unlocking u hu] at hcrit
      · exact hut hut'
  · by_cases hut : u = t
    · subst hut
      rcases waiter_exec rfl hu with ⟨hwait, -⟩ | ⟨htest, hlocked⟩
      · exact h.noWaiter u hwait
      · simp [MustWait, hfree htest] at hlocked
    · rw [hother u hut] at hu
      exact h.noWaiter u hu

/-- `schedule()` touches nothing the invariant reads. -/
theorem MutexInv.schedules (h : MutexInv m s) (hs : Schedules s s') : MutexInv m s' := by
  refine ⟨?_, ?_, ?_⟩
  · rw [hs.pc, hs.mutex, hs.critical]
    exact h.owner
  · rw [hs.pc, hs.critical]
    exact h.unlocking
  · rw [hs.pc]
    exact h.noWaiter

/-- A call starts no critical section, and an unlock call ends the caller's. -/
theorem MutexInv.begin (h : MutexInv m s) (c : Call) (hidle : s.pc t = .idle) :
    MutexInv m (s.begin t c) := by
  have hother : ∀ u, u ≠ t → (s.begin t c).pc u = s.pc u := by
    intro u hu
    simp [Machine.begin, Function.update_of_ne hu]
  have hself : (s.begin t c).pc t = c.entry := by simp [Machine.begin]
  have hcrit : ∀ u, (s.begin t c).critical m u = true → s.critical m u = true := by
    intro u hu
    cases c with
    | unlock m' =>
      simp only [Machine.begin, Function.update_apply] at hu
      split_ifs at hu with hm
      · rw [hm]
        by_cases hut : u = t
        · simp [hut] at hu
        · simpa [Function.update_of_ne hut] using hu
      · exact hu
    | _ => exact hu
  refine ⟨fun u hu => ?_, fun u hu => ?_, fun u hu => ?_⟩
  · refine h.owner u (hu.imp (hcrit u) fun hacq => ?_)
    by_cases hut : u = t
    · subst hut
      cases c <;> simp [hself, Call.entry, Pc.Acquired] at hacq
    · rwa [hother u hut] at hacq
  · by_cases hut : u = t
    · subst hut
      cases c <;> simp [hself, Call.entry, Pc.Unlocking] at hu
      simp [Machine.begin, hu]
    · rw [hother u hut] at hu
      by_contra hne
      have hold := hcrit u (Bool.eq_true_of_not_eq_false hne)
      simp [h.unlocking u hu] at hold
  · by_cases hut : u = t
    · subst hut
      cases c <;> simp [hself, Call.entry, Pc.waiter] at hu
    · rw [hother u hut] at hu
      exact h.noWaiter u hu

theorem MutexInv.step (h : MutexInv m s) (hstep : Step s e s') (hfree : Uncontended m s e) :
    MutexInv m s' := by
  cases hstep with
  | call c hidle => exact h.begin c hidle
  | run _ => exact h.exec (hfree rfl)
  | yield _ hsched => exact (h.exec (hfree rfl)).schedules hsched
  | tick hsched => exact h.schedules hsched

/-- In every run in which no lock call finds the mutex locked, mutual exclusion holds in
every state. -/
theorem mutualExclusion_of_uncontended (h : (system Tid).ReachableUnder (Uncontended m) s) :
    MutualExclusion m s := by
  refine MutexInv.mutualExclusion ?_
  refine h.invariant (fun s hs => ⟨fun t ht => ?_, fun t ht => ?_, fun t => ?_⟩)
    fun _ _ _ hI hC hstep => hI.step hstep hC
  · simp [hs.critical, hs.pc, Pc.Acquired] at ht
  · simp [hs.pc, Pc.Unlocking] at ht
  · simp [hs.pc, Pc.waiter]

instance (m : ℕ) (s : Machine Tid) (e : Event) : Decidable (UnlocksOwn m s e) :=
  inferInstanceAs (Decidable (_ → _))

instance (m : ℕ) (s : Machine Tid) (e : Event) : Decidable (Uncontended m s e) :=
  inferInstanceAs (Decidable (_ → _ → _))

/-- Thread 0 is alone in its critical section after it took a free mutex. -/
theorem mutualExclusion_first_lock :
    ∃ s : Machine (Fin 2), s.critical 0 0 = true ∧ MutualExclusion 0 s := by
  obtain ⟨s, hs, hcrit⟩ := exists_reachableUnder (C := Uncontended 0)
    (P := fun s => s.critical 0 0 = true) (0 : Fin 2)
    ((.call (.lock 0), 0) :: List.replicate 4 (.run, 0)) (by decide +kernel)
  exact ⟨s, hcrit, mutualExclusion_of_uncontended hs⟩

/-- Two threads: thread 0 takes mutex 0, and thread 1 blocks on it. -/
def blockOnMutex : List (Event × Fin 2) :=
  (.call (.lock 0), 0) :: List.replicate 4 (.run, 0) ++ (.tick, 1) :: (.call (.lock 0), 0) ::
    List.replicate 8 (.run, 0)

/-- A lock call that finds the mutex locked returns without it: after the unlock call of
thread 0, thread 1 enters its critical section and the mutex is free. -/
theorem not_mutualExclusion :
    ¬ ∀ (m : ℕ) (s : Machine (Fin 2)), (system (Fin 2)).ReachableUnder (UnlocksOwn m) s →
      MutualExclusion m s := by
  intro h
  obtain ⟨s, hs, hcrit, howner⟩ := exists_reachableUnder (C := UnlocksOwn 0)
    (P := fun s => s.critical 0 1 = true ∧ (s.mutex 0).owner = none) (0 : Fin 2)
    (blockOnMutex ++ (.call (.unlock 0), 0) :: List.replicate 8 (.run, 0) ++
      [(.tick, 1), (.run, 0)]) (by decide +kernel)
  have hbad := (h 0 s hs 1 hcrit).2
  simp [howner] at hbad

/-! ### Stranded waiters -/

/-- The mutex is free and has a waiter, and every other thread has returned from its
calls on it. -/
def Stranded (m : ℕ) (s : Machine Tid) : Prop :=
  (s.mutex m).locked = false ∧ s.queue (.mutexWait m) ≠ [] ∧
    ∀ t, t ∉ s.queue (.mutexWait m) → (s.pc t).inMutexCall m = false

/-- When the owner unlocks `m`, at most one thread waits for it. -/
def OneWaiter (m : ℕ) (s : Machine Tid) (e : Event) : Prop :=
  e = .run → s.pc s.current = .unlockTest m → (s.mutex m).owner = some s.current →
    (s.queue (.mutexWait m)).length ≤ 1

/-- About to take the waiter of `m` off the queue. -/
def Waking (m : ℕ) (s : Machine Tid) : Prop :=
  (s.queue (.mutexWait m)).length ≤ 1 ∧ ∃ t,
    s.pc t = .wakeAcquire (.mutexUnlock m) ∨ s.pc t = .wakeRemove (.mutexUnlock m)

/-- A free mutex has no waiter, or its one waiter is being woken. -/
structure WaiterInv (m : ℕ) (s : Machine Tid) : Prop where
  waiting : (s.mutex m).locked = false → s.queue (.mutexWait m) = [] ∨ Waking m s
  adding : ∀ t, (s.pc t).adding = some (.mutexLock m) → (s.mutex m).locked = true

/-- While the mutex is free, its queue changes only when a waiter is taken off. -/
theorem WaiterInv.queue_exec (h : WaiterInv m s) (hfree : (s.mutex m).locked = false)
    (hremove : s.pc t ≠ .wakeRemove (.mutexUnlock m)) :
    (s.exec t (s.pc t)).queue (.mutexWait m) = s.queue (.mutexWait m) := by
  cases queueEffect_exec (s := s) (t := t) rfl with
  | keep hqueue _ => rw [hqueue]
  | push w hpush _ hqueue =>
    have hne : .mutexWait m ≠ w.queue := by
      intro hq
      have hadd : (s.pc t).adding = some (.mutexLock m) := by
        rw [hpush, ← Waiter.eq_mutexLock hq.symm]
        rfl
      simp [h.adding t hadd] at hfree
    rw [hqueue, Function.update_of_ne hne]
  | pop k th rest hpop _ _ hqueue =>
    have hne : .mutexWait m ≠ k.queue := by
      intro hq
      exact hremove (by rw [hpop, Waker.eq_mutexUnlock hq.symm])
    rw [hqueue, Function.update_of_ne hne]

/-- A statement that finds the mutex free leaves its queue empty, or its one waiter about
to be woken. -/
theorem WaiterInv.exec_free (h : WaiterInv m s) (hfree : (s.mutex m).locked = false) :
    (s.exec t (s.pc t)).queue (.mutexWait m) = [] ∨ Waking m (s.exec t (s.pc t)) := by
  by_cases hremove : s.pc t = .wakeRemove (.mutexUnlock m)
  · have hlen : (s.queue (.mutexWait m)).length ≤ 1 := by
      rcases h.waiting hfree with hnil | ⟨hlen, -⟩
      · simp [hnil]
      · exact hlen
    left
    rw [hremove]
    cases hq : s.queue (.mutexWait m) with
    | nil => simp [exec, goto, Waker.queue, hq]
    | cons th rest =>
      obtain rfl : rest = [] := by simpa [hq] using hlen
      simp [exec, goto, setQueue, Waker.queue, hq]
  · have hqueue := h.queue_exec hfree hremove
    rcases h.waiting hfree with hnil | ⟨hlen, u, hu⟩
    · exact .inl (by rw [hqueue, hnil])
    · refine .inr ⟨by rw [hqueue]; exact hlen, u, ?_⟩
      by_cases hut : u = t
      · subst hut
        have hacquire := hu.resolve_right hremove
        rw [hacquire]
        simp only [exec, spinlockAcquire]
        split_ifs
        · exact .inr (by simp)
        · exact .inl hacquire
      · rwa [exec_pc_of_ne hut]

theorem WaiterInv.exec (h : WaiterInv m s) (hlocks : LocksAgree s)
    (hone : s.pc t = .unlockTest m → (s.mutex m).owner = some t →
      (s.queue (.mutexWait m)).length ≤ 1) :
    WaiterInv m (s.exec t (s.pc t)) := by
  refine ⟨fun hfree => ?_, fun u hu => ?_⟩
  · cases mutexEffect_exec s t (s.pc t) with
    | keep hmutex => exact h.exec_free (by rwa [hmutex] at hfree)
    | take m' _ _ hmutex =>
      by_cases hm : m = m'
      · simp [hmutex, hm] at hfree
      · exact h.exec_free (by rwa [hmutex, Function.update_of_ne hm] at hfree)
    | free m' hstmt howner hmutex hpc =>
      by_cases hm : m = m'
      · subst hm
        refine .inr ⟨?_, t, .inl hpc⟩
        have hlen := hone hstmt howner
        simpa [hstmt, Machine.exec, goto, setMutex, howner] using hlen
      · exact h.exec_free (by rwa [hmutex, Function.update_of_ne hm] at hfree)
  · -- a thread on its way to the queue found the mutex locked, and holds its lock
    have hlocked : (s.mutex m).locked = true := by
      by_cases hut : u = t
      · subst hut
        rcases adding_exec rfl hu with hadd | ⟨-, hwait⟩
        · exact h.adding u hadd
        · exact hwait
      · rw [exec_pc_of_ne hut] at hu
        exact h.adding u hu
    cases mutexEffect_exec s t (s.pc t) with
    | keep hmutex => rwa [hmutex]
    | take m' _ hfree hmutex =>
      by_cases hm : m = m'
      · simp [← hm, hlocked] at hfree
      · rwa [hmutex, Function.update_of_ne hm]
    | free m' hstmt _ hmutex hpc =>
      by_cases hm : m = m'
      · subst hm
        by_cases hut : u = t
        · simp [hut, hpc, Pc.adding] at hu
        · rw [exec_pc_of_ne hut] at hu
          have hheld : (s.pc u).holds (.mutex m) = true := by
            cases hpcu : s.pc u <;> simp [hpcu, Pc.adding] at hu <;>
              simp [Pc.holds, hu, Waiter.outer]
          exact absurd (hlocks.holds_unique hheld (by simp [hstmt, Pc.holds])) hut
      · rwa [hmutex, Function.update_of_ne hm]

theorem WaiterInv.schedules (h : WaiterInv m s) (hs : Schedules s s') : WaiterInv m s' := by
  refine ⟨?_, ?_⟩
  · rw [Waking, hs.mutex, hs.queue, hs.pc]
    exact h.waiting
  · rw [hs.mutex, hs.pc]
    exact h.adding

theorem WaiterInv.begin (h : WaiterInv m s) (c : Call) (hidle : s.pc t = .idle) :
    WaiterInv m (s.begin t c) := by
  have hother : ∀ u, u ≠ t → (s.begin t c).pc u = s.pc u := by
    intro u hu
    simp [Machine.begin, Function.update_of_ne hu]
  refine ⟨fun hfree => ?_, fun u hu => ?_⟩
  · rcases h.waiting hfree with hnil | ⟨hlen, u, hu⟩
    · exact .inl hnil
    · refine .inr ⟨hlen, u, ?_⟩
      have hut : u ≠ t := by
        rintro rfl
        simp [hidle] at hu
      rwa [hother u hut]
  · by_cases hut : u = t
    · subst hut
      cases c <;> simp [Machine.begin, Call.entry, Pc.adding] at hu
    · rw [hother u hut] at hu
      exact h.adding u hu

theorem WaiterInv.step (h : WaiterInv m s) (hlocks : LocksAgree s) (hstep : Step s e s')
    (hone : OneWaiter m s e) : WaiterInv m s' := by
  cases hstep with
  | call c hidle => exact h.begin c hidle
  | run _ => exact h.exec hlocks (hone rfl)
  | yield _ hsched => exact (h.exec hlocks (hone rfl)).schedules hsched
  | tick hsched => exact h.schedules hsched

omit [DecidableEq Tid] in
/-- A thread about to wake the waiter is inside `mutex_unlock` and on no queue. -/
theorem WaiterInv.not_stranded (h : WaiterInv m s) (hblock : BlockingInv s) :
    ¬ Stranded m s := by
  rintro ⟨hfree, hne, hout⟩
  obtain ⟨-, t, ht⟩ := (h.waiting hfree).resolve_left hne
  have hcall : (s.pc t).inMutexCall m = true := by
    rcases ht with ht | ht <;> simp [ht, Pc.inMutexCall]
  refine absurd (hout t fun hmem => ?_) (by simp [hcall])
  obtain ⟨w, -, hw⟩ := hblock.queued _ t hmem
  cases w <;> rcases ht with ht | ht <;>
    simp [ht, Pc.WaitsAt, Pc.InWindow, Waiter.resume] at hw

/-- In every run in which the owner unlocks with at most one thread waiting, no waiter is
ever stranded. -/
theorem not_stranded_of_oneWaiter (h : (system Tid).ReachableUnder (OneWaiter m) s) :
    ¬ Stranded m s := by
  refine WaiterInv.not_stranded ?_ (blockingInv h)
  refine h.invariant₂ (fun _ hs => lock_eq_some_iff_holds hs)
    (fun s hs => ⟨fun _ => .inl (hs.queue _), fun t ht => ?_⟩)
    fun s e s' hlocks hI hone hstep => hI.step hlocks hstep hone
  simp [hs.pc, Pc.adding] at ht

instance (m : ℕ) (s : Machine Tid) (e : Event) : Decidable (OneWaiter m s e) :=
  inferInstanceAs (Decidable (_ → _ → _ → _))

instance [Fintype Tid] (m : ℕ) (s : Machine Tid) : Decidable (Stranded m s) :=
  inferInstanceAs (Decidable (_ ∧ _ ∧ _))

/-- The one waiter of a free mutex is not stranded while the unlock call is under way. -/
theorem not_stranded_one_waiter :
    ∃ s : Machine (Fin 2), (s.mutex 0).locked = false ∧ s.queue (.mutexWait 0) = [1] ∧
      ¬ Stranded 0 s := by
  obtain ⟨s, hs, hfree, hqueue⟩ := exists_reachableUnder (C := OneWaiter 0)
    (P := fun s => (s.mutex 0).locked = false ∧ s.queue (.mutexWait 0) = [1]) (0 : Fin 2)
    (blockOnMutex ++ (.call (.unlock 0), 0) :: List.replicate 2 (.run, 0))
    (by decide +kernel)
  exact ⟨s, hfree, hqueue, not_stranded_of_oneWaiter hs⟩

/-- Threads 1 and 2 wait for the mutex of thread 0. Its unlock call wakes thread 2, which
returns from its lock call without the mutex, so that its own unlock call wakes nobody:
thread 1 is stranded. -/
theorem exists_stranded :
    ¬ ∀ (m : ℕ) (s : Machine (Fin 3)), (system (Fin 3)).Reachable s → ¬ Stranded m s := by
  intro h
  obtain ⟨s, hs, hstranded⟩ := exists_reachableUnder (C := UnlocksOwn 0)
    (P := Stranded 0) (0 : Fin 3)
    ((.call (.lock 0), 0) :: List.replicate 4 (.run, 0) ++
      (.tick, 1) :: (.call (.lock 0), 0) :: List.replicate 8 (.run, 2) ++
      (.call (.lock 0), 0) :: List.replicate 8 (.run, 0) ++
      (.call (.unlock 0), 0) :: List.replicate 8 (.run, 0) ++
      (.tick, 2) :: (.run, 0) :: (.call (.unlock 0), 0) :: List.replicate 4 (.run, 0))
    (by decide +kernel)
  exact h 0 s hs.reachable hstranded

end Machine

end KyroOS.Sync

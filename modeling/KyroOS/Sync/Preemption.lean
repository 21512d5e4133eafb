import KyroOS.Sync.Mutex

/-!
# The timer between the wait queue and `schedule()`

`waitqueue_add` marks the thread BLOCKED while it holds the lock of the wait queue and
its caller's lock, and a spinlock does not keep the timer out. A tick in that window
switches away from a BLOCKED thread that holds the locks its waker needs. Ticks
elsewhere do no harm: the thread itself releases both locks before it calls
`schedule()`.

## Main definitions

* `Machine.AsleepWithLock` — a switched-out BLOCKED thread holds a lock its waker needs
* `Machine.TicksOutside` — no tick falls into the window

## Main results

* `Machine.not_asleepWithLock_of_ticksOutside` — without a tick in the window it does
  not happen
* `Machine.asleepWithLock_of_tick` — a tick in the window makes it happen at once
-/

namespace KyroOS.Sync

variable {Tid : Type*}

namespace Machine

variable [DecidableEq Tid] {s s' : Machine Tid} {t u : Tid} {e : Event} {stmt : Pc Tid}

/-- A BLOCKED thread that does not run holds a spinlock that a thread must acquire to
wake it: the lock of the wait queue, or the lock of the mutex or pipe. -/
def AsleepWithLock (s : Machine Tid) (t : Tid) : Prop :=
  t ≠ s.current ∧ s.state t = .blocked ∧ ∃ w, (s.pc t).WaitsAt w ∧
    (s.lock (.queue w.queue) = some t ∨ s.lock w.outer = some t)

/-- The timer does not interrupt a BLOCKED thread that holds a spinlock. -/
def TicksOutside (s : Machine Tid) (e : Event) : Prop :=
  e = .tick → s.state s.current = .blocked → ∀ l, s.lock l ≠ some s.current

/-- No statement makes another thread BLOCKED. -/
theorem blocked_exec (hpc : s.pc t = stmt) (hut : u ≠ t)
    (hb : (s.exec t stmt).state u = .blocked) : s.state u = .blocked := by
  cases stateEffect_exec hpc with
  | keep hstate _ _ => rwa [hstate] at hb
  | block w _ _ hstate => rwa [hstate, Function.update_of_ne hut] at hb
  | ready k th _ _ hstate =>
    rw [hstate, Function.update_apply] at hb
    split_ifs at hb
    exact hb

/-- A BLOCKED thread other than the current one is at a statement without locks. -/
def SleepersFree (s : Machine Tid) : Prop :=
  ∀ t, t ≠ s.current → s.state t = .blocked → ∀ l, (s.pc t).holds l = false

theorem SleepersFree.exec (h : SleepersFree s) :
    SleepersFree (s.exec s.current (s.pc s.current)) := by
  intro t ht hb l
  rw [exec_current] at ht
  rw [exec_pc_of_ne ht]
  exact h t ht (blocked_exec rfl ht hb) l

/-- `schedule()` may switch away from a thread that holds no lock, or is not BLOCKED. -/
theorem SleepersFree.schedules (h : SleepersFree s) (hs : Schedules s s')
    (hcur : s.state s.current = .blocked → ∀ l, (s.pc s.current).holds l = false) :
    SleepersFree s' := by
  intro t _ hb l
  have hb := hs.blocked hb
  rw [hs.pc]
  by_cases htc : t = s.current
  · subst htc
    exact hcur hb l
  · exact h t htc hb l

theorem SleepersFree.step (h : SleepersFree s) (hlocks : LocksAgree s) (hstep : Step s e s')
    (htick : TicksOutside s e) : SleepersFree s' := by
  cases hstep with
  | call c hidle =>
    intro t ht hb l
    have htc : t ≠ s.current := ht
    simpa [begin, Function.update_of_ne htc] using h t htc hb l
  | run _ => exact h.exec
  | yield hcall hsched =>
    refine h.exec.schedules hsched fun _ l => ?_
    -- the caller of `waitqueue_add` has released its lock before
    generalize s.pc s.current = stmt at hcall
    cases stmt <;> simp [callsSchedule] at hcall
    simp [Machine.exec, goto, Waiter.holds_resume]
  | tick hsched =>
    refine h.schedules hsched fun hb l => ?_
    have hfree := htick rfl hb l
    rw [Ne, ← hlocks] at hfree
    simpa using hfree

/-- In every run in which the timer never interrupts a BLOCKED thread that holds a
spinlock, no switched-out BLOCKED thread holds a lock its waker needs. -/
theorem not_asleepWithLock_of_ticksOutside
    (h : (system Tid).ReachableUnder TicksOutside s) (t : Tid) : ¬ AsleepWithLock s t := by
  have hlocks := lock_eq_some_iff_holds h
  have hfree : SleepersFree s := by
    refine h.invariant₂ (fun _ hs => lock_eq_some_iff_holds hs) (fun s hs t _ _ l => ?_)
      fun s e s' hlocks hI htick hstep => hI.step hlocks hstep htick
    simp [hs.pc, Pc.holds]
  rintro ⟨ht, hb, w, -, hlock⟩
  rw [← hlocks, ← hlocks] at hlock
  simp [hfree t ht hb] at hlock

/-- A tick in the window switches away from a thread that holds a lock its waker
needs. -/
theorem asleepWithLock_of_tick (h : BlockingInv s) (hlocks : LocksAgree s)
    (hstep : Step s .tick s') (hb : s.state s.current = .blocked) {l : LockId}
    (hl : s.lock l = some s.current) : AsleepWithLock s' s.current := by
  cases hstep with
  | tick hsched =>
    obtain ⟨w, hw⟩ := h.current hb
    refine ⟨?_, hsched.blocked_iff _ |>.mpr hb, w, ?_, ?_⟩
    · cases hsched with
      | switch u hu =>
        rintro (rfl : s.current = u)
        simp [hu] at hb
      | keep _ hrun => simp [hrun] at hb
    · rw [hsched.pc]
      exact .inl hw
    · rw [hsched.lock, ← hlocks, ← hlocks]
      rw [← hlocks] at hl
      generalize s.pc s.current = stmt at hw hl ⊢
      cases stmt <;> simp [Pc.InWindow] at hw <;> subst hw <;> simp_all [Pc.holds]

/-- A reader that sleeps on an empty pipe holds no lock. -/
theorem not_asleepWithLock_reader :
    ∃ s : Machine (Fin 2), s.state 0 = .blocked ∧ s.current = 1 ∧ ¬ AsleepWithLock s 0 := by
  obtain ⟨s, hs, hb, hcur⟩ := exists_reachableUnder (C := fun _ e => e ≠ .tick)
    (P := fun s => s.state 0 = .blocked ∧ s.current = 1) (0 : Fin 2)
    ((.call (.read 0 1), 1) :: List.replicate 8 (.run, 1)) (by decide)
  refine ⟨s, hb, hcur, not_asleepWithLock_of_ticksOutside ?_ 0⟩
  exact hs.mono fun _ e he htick => absurd htick he

/-- The timer interrupts a reader of an empty pipe right after `waitqueue_add` has marked
it BLOCKED. -/
theorem exists_asleepWithLock :
    ¬ ∀ (s : Machine (Fin 2)) (t : Fin 2), (system (Fin 2)).Reachable s →
      ¬ AsleepWithLock s t := by
  intro h
  obtain ⟨s, hs, hcur, hb, hpc, hl⟩ := exists_reachableUnder (C := fun _ _ => True)
    (P := fun s => s.current = 1 ∧ s.state 0 = .blocked ∧
      s.pc 0 = .addRelease (.pipeRead 0 1) ∧ s.lock (.pipe 0) = some 0) (0 : Fin 2)
    ((.call (.read 0 1), 1) :: List.replicate 5 (.run, 1) ++ [(.tick, 1)])
    (by decide)
  exact h s 0 hs ⟨by simp [hcur], hb, .pipeRead 0 1, .inl (by simp [hpc, Pc.InWindow]), .inr hl⟩

end Machine

end KyroOS.Sync

import KyroOS.Sync.LockDiscipline

/-!
# Who is BLOCKED, and on which queue

A thread is BLOCKED only between the statement of `waitqueue_add` that marks it and
the statement of a wake-up function that marks it READY, and in that time it stands
at one of four places (`Pc.WaitsAt`). A thread on a wait queue is at one of these
places or about to be marked. These facts hold in every reachable state, whatever
the interleaving.

## Main definitions

* `Pc.WaitsAt` — the statements at which a thread can be BLOCKED
* `Machine.BlockingInv` — the invariant

## Main results

* `Machine.blockingInv` — the invariant holds in every reachable state
* `Machine.BlockingInv.not_blocked` — the current thread is not BLOCKED, except on
  its way from `waitqueue_add` to `schedule()`
-/

namespace KyroOS.Sync

variable {Tid : Type*}

/-- On the way from being marked BLOCKED to `schedule()`. -/
def Pc.InWindow : Pc Tid → Waiter → Prop
  | .addRelease w, w' | .waitRelease w, w' | .waitSchedule w, w' => w = w'
  | _, _ => False

/-- Where a thread can be BLOCKED on behalf of the waiter `w`: in the window, or inside
`schedule()` with `w.resume` to come. -/
def Pc.WaitsAt (pc : Pc Tid) (w : Waiter) : Prop := pc.InWindow w ∨ pc = w.resume

/-- On the way through `waitqueue_add` to `schedule()`. -/
def Pc.waiter : Pc Tid → Option Waiter
  | .addAcquire w | .addPush w | .addBlock w | .addRelease w | .waitRelease w
  | .waitSchedule w => some w
  | _ => none

/-- Inside `waitqueue_add`, not on the queue yet. -/
def Pc.adding : Pc Tid → Option Waiter
  | .addAcquire w | .addPush w => some w
  | _ => none

/-- The statement that decides whether to wait. -/
def Waiter.test : Waiter → Pc Tid
  | mutexLock m => .lockTest m
  | pipeRead p count => .readWait p count
  | pipeWrite p src written => .writeLoop p src written

/-- The thread that a wake-up function has taken off the queue and not marked READY
yet. -/
def Pc.woken : Pc Tid → Option Tid
  | .wakeRelease _ th => th
  | .wakeReady _ th => some th
  | _ => none

theorem Waiter.woken_resume (w : Waiter) : (w.resume : Pc Tid).woken = none := by
  cases w <;> rfl

theorem Waker.woken_after (k : Waker) : (k.after : Pc Tid).woken = none := by
  cases k <;> rfl

theorem Call.woken_entry (c : Call) : (c.entry : Pc Tid).woken = none := by
  cases c <;> rfl

theorem Pc.waiter_of_adding {pc : Pc Tid} {w : Waiter} (h : pc.adding = some w) :
    pc.waiter = some w := by
  cases pc <;> simp_all [adding, waiter]

/-- The place a waiter resumes at tells its queue. -/
theorem Waiter.queue_eq_of_resume {w w' : Waiter} (h : (w.resume : Pc Tid) = w'.resume) :
    w.queue = w'.queue := by
  cases w <;> cases w' <;> simp_all [Waiter.resume, Waiter.queue]

theorem Pc.WaitsAt.queue_eq {pc : Pc Tid} {w w' : Waiter} (h : pc.WaitsAt w)
    (h' : pc.WaitsAt w') : w.queue = w'.queue := by
  rcases h with h | h <;> rcases h' with h' | h'
  · cases pc <;> simp_all [InWindow]
  · subst h'; cases w' <;> simp [Waiter.resume, InWindow] at h
  · subst h; cases w <;> simp [Waiter.resume, InWindow] at h'
  · exact Waiter.queue_eq_of_resume (h.symm.trans h')

namespace Machine

variable [DecidableEq Tid] {s s' : Machine Tid} {t u : Tid} {e : Event} {stmt : Pc Tid}

/-! ### What one statement does to the queues and the thread states -/

/-- The effect of a statement of `t` on the wait queues: none, `t` is put on a queue, or
the first thread of a queue is taken off. -/
inductive QueueEffect (s : Machine Tid) (t : Tid) (stmt : Pc Tid) (s' : Machine Tid) : Prop
  | keep (hqueue : s'.queue = s.queue)
      (hwoken : (s'.pc t).woken = stmt.woken ∨ (s'.pc t).woken = none)
  | push (w : Waiter) (hstmt : stmt = .addPush w) (hpc : s'.pc t = .addBlock w)
      (hqueue : s'.queue = Function.update s.queue w.queue (t :: s.queue w.queue))
  | pop (k : Waker) (woken : Tid) (rest : List Tid) (hstmt : stmt = .wakeRemove k)
      (hhead : s.queue k.queue = woken :: rest) (hpc : s'.pc t = .wakeRelease k (some woken))
      (hqueue : s'.queue = Function.update s.queue k.queue rest)

theorem queueEffect_exec (hpc : s.pc t = stmt) : QueueEffect s t stmt (s.exec t stmt) := by
  cases stmt with
  | addPush w => exact .push w rfl (by simp [exec, goto]) rfl
  | wakeRemove k =>
    cases hq : s.queue k.queue with
    | nil => exact .keep (by simp [exec, hq, goto]) (by simp [exec, hq, goto, Pc.woken])
    | cons woken rest =>
      exact .pop k woken rest rfl hq (by simp [exec, hq, goto]) (by simp [exec, hq, goto, setQueue])
  | wakeRelease k woken =>
    cases woken with
    | none => exact .keep rfl (.inr (by simp [exec, spinlockRelease, Waker.woken_after]))
    | some th => exact .keep rfl (.inl (by simp [exec, spinlockRelease, Pc.woken]))
  | wakeReady k th =>
    refine .keep rfl (.inr ?_)
    cases hall : k.all with
    | true => simp [exec, goto, hall, Pc.woken]
    | false => simp [exec, goto, hall, Waker.woken_after]
  | waitSchedule w => exact .keep rfl (.inr (by simp [exec, goto, Waiter.woken_resume]))
  | _ =>
    simp only [exec, spinlockAcquire]
    (repeat' split) <;>
      exact .keep rfl (by simp [goto, setMutex, setPipe, setState, takeByte, storeByte,
        spinlockRelease, finish, Pc.woken, hpc])

/-- The effect of a statement of `t` on the thread states: none, `t` becomes BLOCKED, or
the woken thread becomes READY. -/
inductive StateEffect (s : Machine Tid) (t : Tid) (stmt : Pc Tid) (s' : Machine Tid) : Prop
  | keep (hstate : s'.state = s.state) (hstmt : ∀ w, stmt ≠ .addBlock w)
      (hready : ∀ k th, stmt ≠ .wakeReady k th)
  | block (w : Waiter) (hstmt : stmt = .addBlock w) (hpc : s'.pc t = .addRelease w)
      (hstate : s'.state = Function.update s.state t .blocked)
  | ready (k : Waker) (th : Tid) (hstmt : stmt = .wakeReady k th)
      (hpc : (s'.pc t).woken = none)
      (hstate : s'.state = Function.update s.state th .ready)

theorem stateEffect_exec (hpc : s.pc t = stmt) : StateEffect s t stmt (s.exec t stmt) := by
  cases stmt with
  | addBlock w => exact .block w rfl (by simp [exec, goto]) rfl
  | wakeReady k th =>
    refine .ready k th rfl ?_ rfl
    cases hall : k.all with
    | true => simp [exec, goto, hall, Pc.woken]
    | false => simp [exec, goto, hall, Waker.woken_after]
  | wakeRelease k woken =>
    cases woken <;> exact .keep rfl (by simp) (by simp)
  | _ =>
    simp only [exec, spinlockAcquire]
    (repeat' split) <;> exact .keep rfl (by simp) (by simp)

/-! ### Who waits -/

/-- The test that sends a caller to `waitqueue_add`. -/
def MustWait (s : Machine Tid) : Waiter → Prop
  | .mutexLock m => (s.mutex m).locked = true
  | .pipeRead p _ => (s.pipe p).dataSize = 0 ∧ (s.pipe p).writeClosed = false
  | .pipeWrite p src written => (written : ℤ) < longCount src ∧
      pipeBufSize ≤ (s.pipe p).dataSize ∧ (s.pipe p).readClosed = false

/-- A thread comes to `waitqueue_add` from the test of its waiter only. -/
theorem waiter_exec {w : Waiter} (hpc : s.pc t = stmt)
    (h : ((s.exec t stmt).pc t).waiter = some w) :
    stmt.waiter = some w ∧
        (((s.exec t stmt).pc t).adding = some w → stmt.adding = some w) ∨
      stmt = w.test ∧ s.MustWait w := by
  cases stmt with
  | lockTest m =>
    simp only [exec] at h
    split_ifs at h with hlocked
    · obtain rfl : .mutexLock m = w := by simpa [goto, Pc.waiter] using h
      exact .inr ⟨rfl, hlocked⟩
    · simp [goto, Pc.waiter] at h
  | readWait p count =>
    simp only [exec] at h
    split_ifs at h with hempty
    · obtain rfl : .pipeRead p count = w := by simpa [goto, Pc.waiter] using h
      exact .inr ⟨rfl, hempty⟩
    all_goals simp [goto, Pc.waiter] at h
  | writeLoop p src written =>
    simp only [exec] at h
    split_ifs at h with hmore hfull
    · obtain rfl : .pipeWrite p src written = w := by simpa [goto, Pc.waiter] using h
      exact .inr ⟨rfl, hmore, hfull⟩
    all_goals simp [goto, Pc.waiter] at h
  | addAcquire w' =>
    simp only [exec, spinlockAcquire] at h
    split_ifs at h <;> exact .inl ⟨by simpa [Pc.waiter, hpc] using h, fun _ => by
      simpa [Pc.waiter, Pc.adding, hpc] using h⟩
  | addPush w' | addBlock w' | addRelease w' | waitRelease w' =>
    refine .inl ⟨by simpa [exec, goto, spinlockRelease, Pc.waiter] using h, fun hadd => ?_⟩
    simp [exec, goto, spinlockRelease, Pc.adding] at hadd
  | waitSchedule w' => cases w' <;> simp [exec, goto, Pc.waiter, Waiter.resume] at h
  | wakeRelease k woken =>
    cases woken with
    | none => cases k <;> simp [exec, spinlockRelease, Pc.waiter, Waker.after] at h
    | some th => simp [exec, spinlockRelease, Pc.waiter] at h
  | wakeReady k th =>
    cases hall : k.all <;> cases k <;> simp_all [exec, goto, Pc.waiter, Waker.after]
  | _ =>
    simp only [exec, spinlockAcquire] at h
    (repeat' split at h) <;>
      simp [goto, setMutex, setPipe, setQueue, takeByte, spinlockRelease, finish,
        Pc.waiter, hpc] at h

/-- A thread enters `waitqueue_add` from the test of its waiter only. -/
theorem adding_exec {w : Waiter} (hpc : s.pc t = stmt)
    (h : ((s.exec t stmt).pc t).adding = some w) :
    stmt.adding = some w ∨ stmt = w.test ∧ s.MustWait w := by
  rcases waiter_exec hpc (Pc.waiter_of_adding h) with ⟨-, hadd⟩ | htest
  · exact .inl (hadd h)
  · exact .inr htest

/-- Only one statement comes before `addBlock`. -/
theorem addBlock_exec {w : Waiter} (hpc : s.pc t = stmt)
    (h : (s.exec t stmt).pc t = .addBlock w) : stmt = .addPush w := by
  cases stmt with
  | addPush w' =>
    have hself : (s.exec t (.addPush w')).pc t = .addBlock w' := by simp [exec, goto]
    rw [hself] at h
    cases h
    rfl
  | idle => simp [exec, hpc] at h
  | waitSchedule w' => cases w' <;> simp [exec, goto, Waiter.resume] at h
  | wakeRelease k th => cases th <;> cases k <;> simp [exec, spinlockRelease, Waker.after] at h
  | wakeReady k th =>
    simp only [exec, goto, Function.update_self] at h
    cases k <;> simp [Waker.all, Waker.after] at h
  | wakeRemove k =>
    simp only [exec] at h
    split at h <;> simp [goto] at h
  | _ =>
    simp only [exec, spinlockAcquire] at h
    (repeat' split at h) <;> simp [goto, setMutex, setPipe, setState, takeByte, storeByte,
      spinlockRelease, finish, hpc] at h

/-! ### The invariant -/

/-- What relates the wait queues, the BLOCKED threads and the program counters, the
current thread aside. -/
structure WaitInv (s : Machine Tid) : Prop where
  /-- A queued thread is about to be marked, or is BLOCKED for that queue. -/
  queued : ∀ q t, t ∈ s.queue q → ∃ w : Waiter, w.queue = q ∧
    (s.pc t = .addBlock w ∨ s.state t = .blocked ∧ (s.pc t).WaitsAt w)
  nodup : ∀ q, (s.queue q).Nodup
  blocked : ∀ t, s.state t = .blocked → ∃ w, (s.pc t).WaitsAt w
  /-- A thread taken off a queue stays BLOCKED, and off the queues, until it is marked
  READY by the one thread that took it. -/
  woken : ∀ t th, (s.pc t).woken = some th → s.state th = .blocked ∧ ∀ q, th ∉ s.queue q
  wokenUnique : ∀ t u th, (s.pc t).woken = some th → (s.pc u).woken = some th → t = u

/-- The whole invariant: in addition the current thread is BLOCKED only in the
window. -/
structure BlockingInv (s : Machine Tid) : Prop extends WaitInv s where
  current : s.state s.current = .blocked → ∃ w, (s.pc s.current).InWindow w

omit [DecidableEq Tid] in
/-- A thread that is neither about to be marked nor BLOCKED is on no queue. -/
theorem WaitInv.notMem_queue (h : WaitInv s) (hblock : ∀ w, s.pc t ≠ .addBlock w)
    (hstate : s.state t ≠ .blocked) (q : QueueId) : t ∉ s.queue q := by
  intro hmem
  obtain ⟨w, -, hpc | ⟨hb, -⟩⟩ := h.queued q t hmem
  · exact hblock w hpc
  · exact hstate hb

omit [DecidableEq Tid] in
/-- Who was taken off a queue is remembered by the thread that did it. Here only `t` moves on, and
remembers nobody new. -/
theorem woken_of_ne (hpc : ∀ u, u ≠ t → s'.pc u = s.pc u) {u v : Tid}
    (hwoken : ∀ v, (s'.pc t).woken = some v → (s.pc t).woken = some v)
    (hu : (s'.pc u).woken = some v) : (s.pc u).woken = some v := by
  by_cases hut : u = t
  · subst hut
    exact hwoken v hu
  · rwa [hpc u hut] at hu

omit [DecidableEq Tid] in
/-- Where `t` remembers nobody, another thread does. -/
theorem woken_of_none (hpc : ∀ u, u ≠ t → s'.pc u = s.pc u) {u v : Tid}
    (hnone : (s'.pc t).woken = none) (hu : (s'.pc u).woken = some v) :
    u ≠ t ∧ (s.pc u).woken = some v := by
  have hut : u ≠ t := by
    rintro rfl
    cases hnone.symm.trans hu
  exact ⟨hut, hpc u hut ▸ hu⟩

omit [DecidableEq Tid] in
/-- Where `t` has taken off a thread, it is that one or another thread remembers it. -/
theorem woken_of_pop (hpc : ∀ u, u ≠ t → s'.pc u = s.pc u) {u v th : Tid}
    (hself : (s'.pc t).woken = some th) (hu : (s'.pc u).woken = some v) :
    u = t ∧ v = th ∨ (s.pc u).woken = some v := by
  by_cases hut : u = t
  · subst hut
    exact .inl ⟨rfl, Option.some.inj (hu.symm.trans hself)⟩
  · exact .inr (hpc u hut ▸ hu)

omit [DecidableEq Tid] in
/-- A thread that nobody remembered is taken off by one only. -/
theorem wokenUnique_pop (hpc : ∀ u, u ≠ t → s'.pc u = s.pc u) {th : Tid}
    (hself : (s'.pc t).woken = some th) (hnew : ∀ u, (s.pc u).woken ≠ some th)
    (hunique : ∀ u v x, (s.pc u).woken = some x → (s.pc v).woken = some x → u = v) {u v x : Tid}
    (hu : (s'.pc u).woken = some x) (hv : (s'.pc v).woken = some x) : u = v := by
  rcases woken_of_pop hpc hself hu with ⟨hut, hx⟩ | hu'
  · rcases woken_of_pop hpc hself hv with ⟨hvt, -⟩ | hv'
    · rw [hut, hvt]
    · exact absurd (hx ▸ hv') (hnew v)
  · rcases woken_of_pop hpc hself hv with ⟨-, hx⟩ | hv'
    · exact absurd (hx ▸ hu') (hnew u)
    · exact hunique u v x hu' hv'

omit [DecidableEq Tid] in
/-- A change that keeps the queues and the BLOCKED threads, and moves only a thread that
is on no queue and not BLOCKED, keeps the invariant. -/
theorem WaitInv.neutral (h : WaitInv s) (hqueue : s'.queue = s.queue)
    (hstate : ∀ u, s'.state u = .blocked ↔ s.state u = .blocked)
    (hpc : ∀ u, u ≠ t → s'.pc u = s.pc u)
    (hwoken : (s'.pc t).woken = (s.pc t).woken ∨ (s'.pc t).woken = none)
    (hfree : ∀ q, t ∉ s.queue q) (hrun : s.state t ≠ .blocked) : WaitInv s' := by
  have hwk : ∀ u th, (s'.pc u).woken = some th → (s.pc u).woken = some th := by
    intro u th
    apply woken_of_ne hpc
    intro v hv
    rcases hwoken with hw | hw
    · rwa [hw] at hv
    · cases hw.symm.trans hv
  refine ⟨fun q u hu => ?_, fun q => hqueue ▸ h.nodup q, fun u hu => ?_, fun u th hu => ?_,
    fun u v th hu hv => h.wokenUnique u v th (hwk u th hu) (hwk v th hv)⟩
  · rw [hqueue] at hu
    have hut : u ≠ t := fun hut => hfree q (hut ▸ hu)
    rw [hpc u hut, hstate]
    exact h.queued q u hu
  · have hut : u ≠ t := fun hut => hrun (hut ▸ (hstate u).mp hu)
    rw [hpc u hut]
    exact h.blocked u ((hstate u).mp hu)
  · rw [hstate, hqueue]
    exact h.woken u th (hwk u th hu)

/-- `schedule()` changes which thread is RUNNING and READY only. -/
theorem Schedules.blocked_iff (h : Schedules s s') (t : Tid) :
    s'.state t = .blocked ↔ s.state t = .blocked := by
  refine ⟨h.blocked, fun hb => ?_⟩
  cases h with
  | switch u hu =>
    have htu : t ≠ u := fun htu => by simp [htu, hu] at hb
    simp only [switchTo, Function.update_of_ne htu]
    split_ifs with hrun
    · have htc : t ≠ s.current := fun htc => by simp [htc, hrun] at hb
      simpa [Function.update_of_ne htc] using hb
    · exact hb
  | keep _ _ => exact hb

omit [DecidableEq Tid] in
/-- Only the queues, the BLOCKED threads and the program counters matter. -/
theorem WaitInv.congr (h : WaitInv s) (hqueue : s'.queue = s.queue)
    (hstate : ∀ u, s'.state u = .blocked ↔ s.state u = .blocked) (hpc : s'.pc = s.pc) :
    WaitInv s' := by
  refine ⟨fun q u hu => ?_, fun q => hqueue ▸ h.nodup q, fun u hu => ?_, fun u th hu => ?_,
    fun u v th hu hv => ?_⟩
  · rw [hpc, hstate]
    exact h.queued q u (hqueue ▸ hu)
  · rw [hpc]
    exact h.blocked u ((hstate u).mp hu)
  · rw [hqueue, hstate]
    exact h.woken u th (hpc ▸ hu)
  · rw [hpc] at hu hv
    exact h.wokenUnique u v th hu hv

/-- After `schedule()` the current thread is RUNNING, so the whole invariant holds. -/
theorem WaitInv.schedules (h : WaitInv s) (hs : Schedules s s') : BlockingInv s' where
  toWaitInv := h.congr hs.queue hs.blocked_iff hs.pc
  current hb := by simp [hs.running] at hb

/-- `waitqueue_add` puts the running thread on a queue. -/
theorem WaitInv.push (h : WaitInv s) {w : Waiter} (hpc : s.pc t = .addPush w)
    (hrun : s.state t ≠ .blocked) : WaitInv (s.exec t (.addPush w)) := by
  have hfree := h.notMem_queue (t := t) (by simp [hpc]) hrun
  have hother : ∀ u, u ≠ t → (s.exec t (.addPush w)).pc u = s.pc u :=
    fun u hu => exec_pc_of_ne hu _
  have hself : (s.exec t (.addPush w)).pc t = .addBlock w := by simp [exec, goto]
  have hqueue : ∀ q, (s.exec t (.addPush w)).queue q =
      if q = w.queue then t :: s.queue q else s.queue q := by
    intro q
    by_cases hq : q = w.queue <;> simp [exec, goto, setQueue, hq]
  have hwk : ∀ u th, ((s.exec t (.addPush w)).pc u).woken = some th →
      u ≠ t ∧ (s.pc u).woken = some th :=
    fun u th => woken_of_none hother (by rw [hself]; rfl)
  refine ⟨fun q u hu => ?_, fun q => ?_, fun u hu => ?_, fun u th hu => ?_,
    fun u v th hu hv => h.wokenUnique u v th (hwk u th hu).2 (hwk v th hv).2⟩
  · by_cases hut : u = t
    · subst hut
      rw [hqueue] at hu
      split_ifs at hu with hq
      · exact ⟨w, hq.symm, .inl hself⟩
      · exact absurd hu (hfree q)
    · rw [hother u hut]
      refine h.queued q u ?_
      rw [hqueue] at hu
      split_ifs at hu
      · exact (List.mem_cons.mp hu).resolve_left hut
      · exact hu
  · rw [hqueue]
    split_ifs
    · exact List.nodup_cons.mpr ⟨hfree q, h.nodup q⟩
    · exact h.nodup q
  · have hut : u ≠ t := fun hut => hrun (hut ▸ hu)
    rw [hother u hut]
    exact h.blocked u hu
  · obtain ⟨-, hw⟩ := hwk u th hu
    obtain ⟨hb, hq⟩ := h.woken u th hw
    refine ⟨hb, fun q => ?_⟩
    have hth : th ≠ t := fun hth => hrun (hth ▸ hb)
    rw [hqueue]
    split_ifs
    · simpa [hth] using hq q
    · exact hq q

/-- `waitqueue_add` marks the running thread BLOCKED. -/
theorem WaitInv.block (h : WaitInv s) {w : Waiter} (hpc : s.pc t = .addBlock w) :
    WaitInv (s.exec t (.addBlock w)) := by
  have hother : ∀ u, u ≠ t → (s.exec t (.addBlock w)).pc u = s.pc u :=
    fun u hu => exec_pc_of_ne hu _
  have hself : (s.exec t (.addBlock w)).pc t = .addRelease w := by simp [exec, goto]
  have hstate : ∀ u, u ≠ t → (s.exec t (.addBlock w)).state u = s.state u := by
    intro u hu
    simp [exec, goto, setState, Function.update_of_ne hu]
  have hblocked : (s.exec t (.addBlock w)).state t = .blocked := by
    simp [exec, goto, setState]
  have hwk : ∀ u th, ((s.exec t (.addBlock w)).pc u).woken = some th →
      (s.pc u).woken = some th :=
    fun u th hu => (woken_of_none hother (by rw [hself]; rfl) hu).2
  refine ⟨fun q u hu => ?_, fun q => h.nodup q, fun u hu => ?_, fun u th hu => ?_,
    fun u v th hu hv => h.wokenUnique u v th (hwk u th hu) (hwk v th hv)⟩
  · obtain ⟨w', hq, hw'⟩ := h.queued q u hu
    refine ⟨w', hq, ?_⟩
    by_cases hut : u = t
    · subst hut
      rcases hw' with hw' | ⟨-, hw' | hw'⟩
      · obtain rfl : w = w' := by simpa [hpc] using hw'
        exact .inr ⟨hblocked, .inl (by simp [hself, Pc.InWindow])⟩
      · simp [hpc, Pc.InWindow] at hw'
      · cases w' <;> simp [hpc, Waiter.resume] at hw'
    · rwa [hother u hut, hstate u hut]
  · by_cases hut : u = t
    · exact ⟨w, .inl (by simp [hut, hself, Pc.InWindow])⟩
    · rw [hother u hut]
      exact h.blocked u (by rwa [hstate u hut] at hu)
  · obtain ⟨hb, hq⟩ := h.woken u th (hwk u th hu)
    refine ⟨?_, hq⟩
    by_cases hth : th = t
    · rw [hth, hblocked]
    · rw [hstate th hth, hb]

/-- The waiter moves through the window and into `schedule()`. -/
theorem WaitInv.wait (h : WaitInv s) {w : Waiter} (hqueue : s'.queue = s.queue)
    (hstate : s'.state = s.state) (hpc : ∀ u, u ≠ t → s'.pc u = s.pc u)
    (hbefore : (s.pc t).InWindow w) (hafter : (s'.pc t).WaitsAt w)
    (hwoken : (s'.pc t).woken = none) : WaitInv s' := by
  have hwk : ∀ u th, (s'.pc u).woken = some th → (s.pc u).woken = some th :=
    fun u th hu => (woken_of_none hpc hwoken hu).2
  refine ⟨fun q u hu => ?_, fun q => hqueue ▸ h.nodup q, fun u hu => ?_, fun u th hu => ?_,
    fun u v th hu hv => h.wokenUnique u v th (hwk u th hu) (hwk v th hv)⟩
  · rw [hqueue] at hu
    obtain ⟨w', hq, hw'⟩ := h.queued q u hu
    by_cases hut : u = t
    · subst hut
      rcases hw' with hw' | ⟨hb, hw'⟩
      · simp [hw', Pc.InWindow] at hbefore
      · refine ⟨w, ?_, .inr ⟨by rw [hstate, hb], hafter⟩⟩
        rw [← hq]
        exact Pc.WaitsAt.queue_eq (.inl hbefore) hw'
    · rw [hpc u hut, hstate]
      exact ⟨w', hq, hw'⟩
  · rw [hstate] at hu
    by_cases hut : u = t
    · exact ⟨w, hut ▸ hafter⟩
    · rw [hpc u hut]
      exact h.blocked u hu
  · rw [hqueue, hstate]
    exact h.woken u th (hwk u th hu)

/-- A wake-up function takes the first thread off its queue. That thread is BLOCKED: at
`addBlock` it would hold the lock of the queue together with the waker. -/
theorem WaitInv.pop (h : WaitInv s) (hlocks : LocksAgree s) {k : Waker} {th : Tid}
    {rest : List Tid} (hpc : s.pc t = .wakeRemove k) (hhead : s.queue k.queue = th :: rest)
    (hrun : s.state t ≠ .blocked) : WaitInv (s.exec t (.wakeRemove k)) := by
  have hother : ∀ u, u ≠ t → (s.exec t (.wakeRemove k)).pc u = s.pc u :=
    fun u hu => exec_pc_of_ne hu _
  have hself : (s.exec t (.wakeRemove k)).pc t = .wakeRelease k (some th) := by
    simp [exec, hhead, goto]
  have hstate : (s.exec t (.wakeRemove k)).state = s.state := by
    simp [exec, hhead, goto, setQueue]
  have hqueue : ∀ q, (s.exec t (.wakeRemove k)).queue q =
      if q = k.queue then rest else s.queue q := by
    intro q
    by_cases hq : q = k.queue <;> simp [exec, hhead, goto, setQueue, hq]
  have hsub : ∀ q u, u ∈ (s.exec t (.wakeRemove k)).queue q → u ∈ s.queue q := by
    intro q u hu
    rw [hqueue] at hu
    split_ifs at hu with hq
    · rw [hq, hhead]
      exact List.mem_cons_of_mem _ hu
    · exact hu
  have hthmem : th ∈ s.queue k.queue := by rw [hhead]; exact List.mem_cons_self
  obtain ⟨hthrest, hrestnodup⟩ := List.nodup_cons.mp (hhead ▸ h.nodup k.queue)
  obtain ⟨w, hwq, hw⟩ := h.queued k.queue th hthmem
  obtain ⟨hthb, hthw⟩ : s.state th = .blocked ∧ (s.pc th).WaitsAt w := by
    rcases hw with hw | hw
    · have hth : th = t := hlocks.holds_unique (l := .queue k.queue)
        (by simp [hw, Pc.holds, hwq]) (by simp [hpc, Pc.holds])
      simp [hth, hpc] at hw
    · exact hw
  have hwoken : ((s.exec t (.wakeRemove k)).pc t).woken = some th := by rw [hself]; rfl
  refine ⟨fun q u hu => ?_, fun q => ?_, fun u hu => ?_, fun u v hu => ?_,
    fun u v x hu hv => ?_⟩
  · obtain ⟨w', hq, hw'⟩ := h.queued q u (hsub q u hu)
    have hut : u ≠ t := by
      rintro rfl
      exact h.notMem_queue (by simp [hpc]) hrun q (hsub q u hu)
    rw [hother u hut, hstate]
    exact ⟨w', hq, hw'⟩
  · rw [hqueue]
    split_ifs
    · exact hrestnodup
    · exact h.nodup q
  · rw [hstate] at hu
    have hut : u ≠ t := fun hut => hrun (hut ▸ hu)
    rw [hother u hut]
    exact h.blocked u hu
  · rw [hstate]
    rcases woken_of_pop hother hwoken hu with ⟨rfl, rfl⟩ | hu
    · refine ⟨hthb, fun q hmem => ?_⟩
      rw [hqueue] at hmem
      split_ifs at hmem with hq
      · exact hthrest hmem
      · obtain ⟨w', hq', hw'⟩ := h.queued q v hmem
        rcases hw' with hw' | ⟨-, hw'⟩
        · rcases hthw with hthw | hthw
          · simp [hw', Pc.InWindow] at hthw
          · cases w <;> simp [hw', Waiter.resume] at hthw
        · exact hq (by rw [← hq', ← hwq]; exact hw'.queue_eq hthw)
    · obtain ⟨hb, hq⟩ := h.woken u v hu
      exact ⟨hb, fun q hmem => hq q (hsub q v hmem)⟩
  · have hnew : ∀ u, (s.pc u).woken ≠ some th := fun u hu => (h.woken u th hu).2 _ hthmem
    exact wokenUnique_pop hother hwoken hnew h.wokenUnique hu hv

/-- A wake-up function marks the thread it took off the queue READY. -/
theorem WaitInv.ready (h : WaitInv s) {th : Tid} (hqueue : s'.queue = s.queue)
    (hstate : s'.state = Function.update s.state th .ready)
    (hpc : ∀ u, u ≠ t → s'.pc u = s.pc u) (hbefore : (s.pc t).woken = some th)
    (hwoken : (s'.pc t).woken = none) (hfree : ∀ q, t ∉ s.queue q)
    (hrun : s.state t ≠ .blocked) : WaitInv s' := by
  have hst : ∀ u, u ≠ th → s'.state u = s.state u := by
    intro u hu
    rw [hstate, Function.update_of_ne hu]
  have hne : ∀ u, s'.state u = .blocked → u ≠ th := by
    rintro u hu rfl
    simp [hstate] at hu
  have hwk : ∀ u v, (s'.pc u).woken = some v → u ≠ t ∧ (s.pc u).woken = some v :=
    fun u v => woken_of_none hpc hwoken
  obtain ⟨-, hthq⟩ := h.woken t th hbefore
  refine ⟨fun q u hu => ?_, fun q => hqueue ▸ h.nodup q, fun u hu => ?_, fun u v hu => ?_,
    fun u v x hu hv => h.wokenUnique u v x (hwk u x hu).2 (hwk v x hv).2⟩
  · rw [hqueue] at hu
    have hut : u ≠ t := fun hut => hfree q (hut ▸ hu)
    have huth : u ≠ th := fun huth => hthq q (huth ▸ hu)
    rw [hpc u hut, hst u huth]
    exact h.queued q u hu
  · have huth := hne u hu
    rw [hst u huth] at hu
    have hut : u ≠ t := fun hut => hrun (hut ▸ hu)
    rw [hpc u hut]
    exact h.blocked u hu
  · obtain ⟨hut, hu⟩ := hwk u v hu
    obtain ⟨hb, hq⟩ := h.woken u v hu
    have hvth : v ≠ th := fun hvth => hut (h.wokenUnique u t v hu (hvth ▸ hbefore))
    exact ⟨by rw [hst v hvth, hb], hqueue ▸ hq⟩

/-! ### Every step keeps the invariant -/

/-- A statement inside the window leaves the queues and the states alone and moves on
through the window, or into `schedule()`. -/
theorem exec_window {w : Waiter} (h : stmt.InWindow w) :
    (s.exec t stmt).queue = s.queue ∧ (s.exec t stmt).state = s.state ∧
      ((s.exec t stmt).pc t).WaitsAt w ∧ ((s.exec t stmt).pc t).woken = none ∧
      (callsSchedule stmt = false → ((s.exec t stmt).pc t).InWindow w) := by
  cases stmt <;> simp only [Pc.InWindow] at h <;> subst h
  case waitSchedule w => simp [exec, goto, Pc.WaitsAt, Waiter.woken_resume, callsSchedule]
  all_goals simp [exec, spinlockRelease, Pc.WaitsAt, Pc.InWindow, Pc.woken, callsSchedule]

/-- A statement of the current thread keeps the facts about the queues and the BLOCKED
threads. -/
theorem BlockingInv.exec (h : BlockingInv s) (hlocks : LocksAgree s) :
    WaitInv (s.exec s.current (s.pc s.current)) := by
  have hother : ∀ u, u ≠ s.current → (s.exec s.current (s.pc s.current)).pc u = s.pc u :=
    fun u hu => exec_pc_of_ne hu _
  generalize hstmt : s.pc s.current = stmt at hother ⊢
  by_cases hb : s.state s.current = .blocked
  · obtain ⟨w, hw⟩ := h.current hb
    rw [hstmt] at hw
    obtain ⟨hqueue, hstate, hafter, hwoken, -⟩ := exec_window (s := s) (t := s.current) hw
    exact h.wait hqueue hstate hother (hstmt ▸ hw) hafter hwoken
  · cases queueEffect_exec hstmt with
    | push w hpush _ _ => subst hpush; exact h.push hstmt hb
    | pop k th rest hpop hhead _ _ => subst hpop; exact h.pop hlocks hstmt hhead hb
    | keep hqueue hwoken =>
      cases stateEffect_exec hstmt with
      | block w hblock _ _ => subst hblock; exact h.block hstmt
      | keep hstate hne _ =>
        have hfree := h.notMem_queue (t := s.current) (by rwa [hstmt]) hb
        exact h.neutral hqueue (fun u => by rw [hstate]) hother (by rwa [hstmt]) hfree hb
      | ready k th hready hnone hstate =>
        have hfree := h.notMem_queue (t := s.current) (by simp [hstmt, hready]) hb
        exact h.ready hqueue hstate hother (by simp [hstmt, hready, Pc.woken]) hnone hfree hb

/-- A thread that is BLOCKED after a statement of its own, short of the call of
`schedule()`, is in the window. -/
theorem BlockingInv.current_exec (h : BlockingInv s)
    (hcall : callsSchedule (s.pc s.current) = false)
    (hb : (s.exec s.current (s.pc s.current)).state s.current = .blocked) :
    ∃ w, ((s.exec s.current (s.pc s.current)).pc s.current).InWindow w := by
  generalize hstmt : s.pc s.current = stmt at hb hcall ⊢
  have hwindow : s.state s.current = .blocked → ∃ w, stmt.InWindow w := by
    rw [← hstmt]
    exact h.current
  cases stateEffect_exec hstmt with
  | block w _ hpc _ => exact ⟨w, by simp [hpc, Pc.InWindow]⟩
  | keep hstate _ _ =>
    obtain ⟨w, hw⟩ := hwindow (hstate ▸ hb)
    exact ⟨w, (exec_window hw).2.2.2.2 hcall⟩
  | ready k th hready _ hstate =>
    rw [hstate, Function.update_apply] at hb
    split_ifs at hb
    obtain ⟨w, hw⟩ := hwindow hb
    simp [hready, Pc.InWindow] at hw

theorem BlockingInv.step (h : BlockingInv s) (hlocks : LocksAgree s) (hstep : Step s e s') :
    BlockingInv s' := by
  cases hstep with
  | call c hidle =>
    have hrun : s.state s.current ≠ .blocked := by
      intro hb
      obtain ⟨w, hw⟩ := h.current hb
      simp [hidle, Pc.InWindow] at hw
    refine ⟨h.neutral rfl (fun _ => Iff.rfl) (fun u hu => ?_) (.inr ?_)
      (h.notMem_queue (by simp [hidle]) hrun) hrun, fun hb => absurd hb hrun⟩
    · simp [begin, Function.update_of_ne hu]
    · simp [begin, Call.woken_entry]
  | run hpc =>
    refine ⟨h.exec hlocks, fun hb => ?_⟩
    rw [exec_current] at hb ⊢
    exact h.current_exec hpc hb
  | yield _ hsched => exact (h.exec hlocks).schedules hsched
  | tick hsched => exact h.toWaitInv.schedules hsched

omit [DecidableEq Tid] in
theorem Initial.blockingInv (h : Initial s) : BlockingInv s := by
  have hrun : ∀ t, s.state t ≠ .blocked := by
    intro t ht
    by_cases htc : t = s.current
    · simp [htc, h.running] at ht
    · rcases h.others t htc with hs | hs <;> simp [hs] at ht
  refine ⟨⟨fun q t ht => ?_, fun q => ?_, fun t ht => absurd ht (hrun t), fun t th ht => ?_,
    fun t u th ht _ => ?_⟩, fun hb => absurd hb (hrun _)⟩
  · simp [h.queue] at ht
  · simp [h.queue]
  · simp [h.pc, Pc.woken] at ht
  · simp [h.pc, Pc.woken] at ht

/-- The invariant holds in every reachable state. -/
theorem blockingInv {C : Machine Tid → Event → Prop}
    (h : (system Tid).ReachableUnder C s) : BlockingInv s :=
  h.invariant₂ (fun _ hs => lock_eq_some_iff_holds hs) (fun _ hs => Initial.blockingInv hs)
    fun _ _ _ hlocks hI _ hstep => hI.step hlocks hstep

omit [DecidableEq Tid] in
/-- The thread that executes is not BLOCKED, except on its way from `waitqueue_add` to
`schedule()`. -/
theorem BlockingInv.not_blocked (h : BlockingInv s)
    (hout : ∀ w, ¬ (s.pc s.current).InWindow w) : s.state s.current ≠ .blocked := by
  intro hb
  obtain ⟨w, hw⟩ := h.current hb
  exact hout w hw

end Machine

end KyroOS.Sync

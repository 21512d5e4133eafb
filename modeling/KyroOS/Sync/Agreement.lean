import KyroOS.Sync.Blocking

/-!
# Wait queues and thread states

The machine of the synchronisation primitives with the ring behind `ready_queue`, from
`thread_init` on: threads are added to the ring and exit, and a call of `schedule()` returns at
once as long as the ring is empty. A thread that waits then runs on although it is BLOCKED.

## Main definitions

* `Cpu`, `cpuSystem` — the machine with its ring, and its runs
* `Pc.InSection` — inside a section that is protected by a lock
* `Machine.QueuesAgree` — the wait queues and the thread states agree
* `ActsAwake` — no BLOCKED thread waits or exits

## Main results

* `Machine.execEffect` — what one statement does to queues, states and program counters
* `queuesAgree_of_actsAwake` — queues and states agree between the sections of every run in which
  no BLOCKED thread waits or exits
-/

namespace KyroOS.Sync

open Transition

variable {Tid : Type*}

/-! ### The machine with its ring -/

/-- The machine and the threads on the ring behind `ready_queue`. -/
structure Cpu (Tid : Type*) where
  machine : Machine Tid
  readyQueue : List Tid

/-- What happens next. -/
inductive CpuEvent (Tid : Type*)
  /-- The current thread makes a call. -/
  | call (c : Call)
  /-- The current thread executes its next statement. -/
  | run
  /-- The timer, or the current thread itself, calls `schedule()`. -/
  | tick
  /-- The current thread creates a thread and calls `scheduler_add_thread`. -/
  | add (u : Tid)
  /-- The current thread calls `thread_exit`. -/
  | exit

namespace Cpu

variable [DecidableEq Tid]

/-- A call of `schedule()` that comes back: at once while `ready_queue` is `NULL`, and else on a
READY thread of the ring, or on the current thread if that is RUNNING and none is READY. -/
inductive Schedules (s : Cpu Tid) : Cpu Tid → Prop
  | returns (hempty : s.readyQueue = []) : Schedules s s
  | switch (u : Tid) (hmem : u ∈ s.readyQueue) (hready : s.machine.state u = .ready) :
      Schedules s { s with machine := s.machine.switchTo u }
  | keep (hnone : ∀ u ∈ s.readyQueue, s.machine.state u ≠ .ready)
      (hrunning : s.machine.state s.machine.current = .running) : Schedules s s

/-- The current thread executes a statement. -/
def exec (s : Cpu Tid) : Cpu Tid :=
  { s with machine := s.machine.exec s.machine.current (s.machine.pc s.machine.current) }

/-- `scheduler_add_thread` for a new thread. -/
def add (s : Cpu Tid) (u : Tid) : Cpu Tid :=
  ⟨s.machine.setState u .ready, s.readyQueue ++ [u]⟩

/-- `thread_exit` up to its call of `schedule()`. A call that comes back to the thread panics. -/
def exit (s : Cpu Tid) : Cpu Tid :=
  { s with machine := s.machine.setState s.machine.current .dead }

/-- The steps. -/
inductive Step : Cpu Tid → CpuEvent Tid → Cpu Tid → Prop
  | call {s : Cpu Tid} (c : Call) (hidle : s.machine.pc s.machine.current = .idle) :
      Step s (.call c) { s with machine := s.machine.begin s.machine.current c }
  | run {s : Cpu Tid}
      (hpc : Machine.callsSchedule (s.machine.pc s.machine.current) = false) : Step s .run s.exec
  | yield {s s' : Cpu Tid}
      (hpc : Machine.callsSchedule (s.machine.pc s.machine.current) = true)
      (hsched : Schedules s.exec s') : Step s .run s'
  | tick {s s' : Cpu Tid} (hsched : Schedules s s') : Step s .tick s'
  | add {s : Cpu Tid} (u : Tid) (hidle : s.machine.pc s.machine.current = .idle)
      (hnew : s.machine.state u = .dead) (hring : u ∉ s.readyQueue) : Step s (.add u) (s.add u)
  | exit {s : Cpu Tid} (u : Tid) (hidle : s.machine.pc s.machine.current = .idle)
      (hmem : u ∈ s.readyQueue) (hready : s.exit.machine.state u = .ready) :
      Step s .exit { s with machine := s.exit.machine.switchTo u }

/-- After `thread_init` one thread runs, no other was created, and the ring is empty. -/
structure Initial (s : Cpu Tid) : Prop where
  machine : s.machine.Initial
  dead : ∀ t, t ≠ s.machine.current → s.machine.state t = .dead
  readyQueue : s.readyQueue = []

end Cpu

/-- The runs from `thread_init` on. -/
def cpuSystem (Tid : Type*) [DecidableEq Tid] : System (Cpu Tid) (CpuEvent Tid) where
  init := Cpu.Initial
  step := Cpu.Step

/-! ### What is claimed of a state -/

/-- Between taking a lock and releasing it, or between taking a thread off a queue and marking it
READY. -/
def Pc.InSection (pc : Pc Tid) : Prop := (∃ l, pc.holds l = true) ∨ ∃ th, pc.woken = some th

/-- A thread on a wait queue is on this one only, once, and BLOCKED; a BLOCKED thread is on a wait
queue; and only the current thread may be RUNNING. -/
structure Machine.QueuesAgree [DecidableEq Tid] (s : Machine Tid) : Prop where
  queued : ∀ q t, t ∈ s.queue q →
    s.state t = .blocked ∧ (s.queue q).count t = 1 ∧ ∀ q', t ∈ s.queue q' → q' = q
  blocked : ∀ t, s.state t = .blocked → ∃ q, t ∈ s.queue q
  running : ∀ t, s.state t = .running → t = s.current

/-- The statement that puts the thread on a wait queue. -/
def Pc.pushes : Pc Tid → Bool
  | .addPush _ => true
  | _ => false

/-- No thread that is BLOCKED is put on a wait queue, or exits. -/
def ActsAwake (s : Cpu Tid) : CpuEvent Tid → Prop
  | .run => (s.machine.pc s.machine.current).pushes = true →
    s.machine.state s.machine.current ≠ .blocked
  | .exit => s.machine.state s.machine.current ≠ .blocked
  | .call _ | .tick | .add _ => True

instance (s : Cpu Tid) : ∀ e, Decidable (ActsAwake s e)
  | .run => inferInstanceAs (Decidable (_ → _))
  | .exit => inferInstanceAs (Decidable (_ ≠ _))
  | .call _ | .tick | .add _ => inferInstanceAs (Decidable True)

/-! ### The invariant -/

namespace Machine

/-- What holds inside the sections too: a thread is put on a queue before it is marked BLOCKED, and
taken off before it is marked READY. -/
structure AgreeInv (s : Machine Tid) : Prop where
  queued : ∀ q t, t ∈ s.queue q → s.state t = .blocked ∨ ∃ w, s.pc t = .addBlock w
  adding : ∀ t w, s.pc t = .addBlock w → t ∈ s.queue w.queue
  nodup : ∀ q, (s.queue q).Nodup
  unique : ∀ q q' t, t ∈ s.queue q → t ∈ s.queue q' → q = q'
  blocked : ∀ t, s.state t = .blocked → (∃ q, t ∈ s.queue q) ∨ ∃ u, (s.pc u).woken = some t
  woken : ∀ u t, (s.pc u).woken = some t → s.state t = .blocked ∧ ∀ q, t ∉ s.queue q
  wokenUnique : ∀ u v t, (s.pc u).woken = some t → (s.pc v).woken = some t → u = v
  running : ∀ t, s.state t = .running → t = s.current

variable [DecidableEq Tid] {s s' : Machine Tid} {t u th : Tid} {stmt : Pc Tid}

/-- The effect of a statement of `t`: none on queues and states, a thread is put on a queue, is
marked BLOCKED, is taken off a queue, or is marked READY. -/
inductive ExecEffect (s : Machine Tid) (t : Tid) (stmt : Pc Tid) (s' : Machine Tid) : Prop
  | keep (hqueue : s'.queue = s.queue) (hstate : s'.state = s.state)
      (hwoken : (s'.pc t).woken = stmt.woken) (hbefore : ∀ w, stmt ≠ .addBlock w)
      (hafter : ∀ w, s'.pc t ≠ .addBlock w)
  | push (w : Waiter) (hstmt : stmt = .addPush w) (hpc : s'.pc t = .addBlock w)
      (hqueue : s'.queue = Function.update s.queue w.queue (t :: s.queue w.queue))
      (hstate : s'.state = s.state)
  | block (w : Waiter) (hstmt : stmt = .addBlock w) (hpc : s'.pc t = .addRelease w)
      (hqueue : s'.queue = s.queue) (hstate : s'.state = Function.update s.state t .blocked)
  | pop (k : Waker) (th : Tid) (rest : List Tid) (hstmt : stmt = .wakeRemove k)
      (hhead : s.queue k.queue = th :: rest) (hpc : s'.pc t = .wakeRelease k (some th))
      (hqueue : s'.queue = Function.update s.queue k.queue rest) (hstate : s'.state = s.state)
  | ready (k : Waker) (th : Tid) (hstmt : stmt = .wakeReady k th)
      (hwoken : (s'.pc t).woken = none) (hafter : ∀ w, s'.pc t ≠ .addBlock w)
      (hqueue : s'.queue = s.queue) (hstate : s'.state = Function.update s.state th .ready)

/-- The thread that was taken off a queue is remembered until it is marked READY. -/
theorem woken_exec (hpc : s.pc t = stmt) (hready : ∀ k th, stmt ≠ .wakeReady k th)
    (hwoken : ((s.exec t stmt).pc t).woken = stmt.woken ∨ ((s.exec t stmt).pc t).woken = none) :
    ((s.exec t stmt).pc t).woken = stmt.woken := by
  rcases hwoken with hsame | hnone
  · exact hsame
  · cases stmt with
    | wakeReady k th => exact absurd rfl (hready k th)
    | wakeRelease k th =>
      cases th with
      | none => exact hnone
      | some th => simp [exec, spinlockRelease, Pc.woken]
    | _ => exact hnone

theorem execEffect (hpc : s.pc t = stmt) : ExecEffect s t stmt (s.exec t stmt) := by
  have hadd : ∀ w, (s.exec t stmt).pc t = .addBlock w → stmt = .addPush w :=
    fun w => addBlock_exec hpc
  cases queueEffect_exec hpc with
  | push w hstmt hpc' hqueue =>
    subst hstmt
    exact .push w rfl hpc' hqueue rfl
  | pop k th rest hstmt hhead hpc' hqueue =>
    subst hstmt
    refine .pop k th rest rfl hhead hpc' hqueue ?_
    simp [exec, hhead, goto, setQueue]
  | keep hqueue hwoken =>
    cases stateEffect_exec hpc with
    | block w hstmt hpc' hstate => exact .block w hstmt hpc' hqueue hstate
    | ready k th hstmt hnone hstate =>
      refine .ready k th hstmt hnone (fun w hw => ?_) hqueue hstate
      cases hstmt.symm.trans (hadd w hw)
    | keep hstate hne hready =>
      refine .keep hqueue hstate (woken_exec hpc hready hwoken) hne fun w hw => ?_
      -- a thread is never sent to `addBlock` without being put on the queue
      obtain rfl := hadd w hw
      have hgrown := congrFun hqueue w.queue
      simp [exec, goto, setQueue] at hgrown

/-! ### Every step keeps the invariant -/

omit [DecidableEq Tid] in
/-- A thread that is not BLOCKED and not about to be is on no queue. -/
theorem AgreeInv.notMem_queue (h : AgreeInv s) (hblock : ∀ w, s.pc t ≠ .addBlock w)
    (hstate : s.state t ≠ .blocked) (q : QueueId) : t ∉ s.queue q := by
  intro hmem
  rcases h.queued q t hmem with hb | ⟨w, hw⟩
  · exact hstate hb
  · exact hblock w hw

theorem AgreeInv.keep (h : AgreeInv s) (hqueue : s'.queue = s.queue)
    (hblocked : ∀ u, s'.state u = .blocked ↔ s.state u = .blocked)
    (hrunning : ∀ u, s'.state u = .running → u = s'.current)
    (hpc : ∀ u, u ≠ t → s'.pc u = s.pc u) (hwoken : (s'.pc t).woken = (s.pc t).woken)
    (hbefore : ∀ w, s.pc t ≠ .addBlock w) (hafter : ∀ w, s'.pc t ≠ .addBlock w) :
    AgreeInv s' := by
  have hwk : ∀ u, (s'.pc u).woken = (s.pc u).woken := by
    intro u
    by_cases hut : u = t
    · rw [hut, hwoken]
    · rw [hpc u hut]
  have hblock : ∀ u w, s'.pc u = .addBlock w ↔ s.pc u = .addBlock w := by
    intro u w
    by_cases hut : u = t
    · subst hut
      exact iff_of_false (hafter w) (hbefore w)
    · rw [hpc u hut]
  constructor
  · intro q u hu
    rw [hqueue] at hu
    rw [hblocked, exists_congr (hblock u)]
    exact h.queued q u hu
  · intro u w hw
    rw [hqueue]
    exact h.adding u w ((hblock u w).mp hw)
  · rw [hqueue]
    exact h.nodup
  · rw [hqueue]
    exact h.unique
  · intro u hu
    simp only [hqueue, hwk]
    exact h.blocked u ((hblocked u).mp hu)
  · intro u v hu
    rw [hblocked, hqueue]
    exact h.woken u v (hwk u ▸ hu)
  · intro u v w hu hv
    exact h.wokenUnique u v w (hwk u ▸ hu) (hwk v ▸ hv)
  · exact hrunning

/-- `waitqueue_add` puts a thread that is not BLOCKED on a queue. -/
theorem AgreeInv.push (h : AgreeInv s) {w : Waiter} (hstmt : s.pc t = .addPush w)
    (hawake : s.state t ≠ .blocked) (hpc : ∀ u, u ≠ t → s'.pc u = s.pc u)
    (hself : s'.pc t = .addBlock w)
    (hqueue : s'.queue = Function.update s.queue w.queue (t :: s.queue w.queue))
    (hstate : s'.state = s.state) (hcurrent : s'.current = s.current) : AgreeInv s' := by
  have hfree := h.notMem_queue (t := t) (by simp [hstmt]) hawake
  have hmem : ∀ q u, u ∈ s'.queue q ↔ u ∈ s.queue q ∨ u = t ∧ q = w.queue := by
    intro q u
    rw [hqueue]
    by_cases hq : q = w.queue
    · subst hq
      simp [or_comm]
    · simp [hq]
  have hwk : ∀ u v, (s'.pc u).woken = some v → (s.pc u).woken = some v := fun u v =>
    woken_of_ne hpc (by simp [hself, Pc.woken])
  constructor
  · intro q u hu
    rw [hstate]
    by_cases hut : u = t
    · subst hut
      exact .inr ⟨w, hself⟩
    · rw [hpc u hut]
      exact h.queued q u (((hmem q u).mp hu).resolve_right fun hnew => hut hnew.1)
  · intro u w' hw'
    rw [hmem]
    by_cases hut : u = t
    · subst hut
      rw [hself] at hw'
      cases hw'
      exact .inr ⟨rfl, rfl⟩
    · exact .inl (h.adding u w' (hpc u hut ▸ hw'))
  · intro q
    rw [hqueue]
    by_cases hq : q = w.queue
    · subst hq
      rw [Function.update_self]
      exact List.nodup_cons.mpr ⟨hfree _, h.nodup _⟩
    · rw [Function.update_of_ne hq]
      exact h.nodup q
  · intro q q' u hu hu'
    rcases (hmem q u).mp hu with hold | ⟨rfl, hq⟩ <;>
      rcases (hmem q' u).mp hu' with hold' | ⟨hut, hq'⟩
    · exact h.unique q q' u hold hold'
    · exact absurd hold (hut ▸ hfree q)
    · exact absurd hold' (hfree q')
    · exact hq.trans hq'.symm
  · intro u hu
    rw [hstate] at hu
    rcases h.blocked u hu with ⟨q, hq⟩ | ⟨v, hv⟩
    · exact .inl ⟨q, (hmem q u).mpr (.inl hq)⟩
    · have hvt : v ≠ t := by
        rintro rfl
        simp [hstmt, Pc.woken] at hv
      exact .inr ⟨v, by rwa [hpc v hvt]⟩
  · intro u v hu
    obtain ⟨hb, hq⟩ := h.woken u v (hwk u v hu)
    rw [hstate]
    refine ⟨hb, fun q hv => ?_⟩
    rcases (hmem q v).mp hv with hold | ⟨rfl, -⟩
    · exact hq q hold
    · exact hawake hb
  · intro u v x hu hv
    exact h.wokenUnique u v x (hwk u x hu) (hwk v x hv)
  · rw [hstate, hcurrent]
    exact h.running

/-- `waitqueue_add` marks the thread BLOCKED. -/
theorem AgreeInv.block (h : AgreeInv s) {w : Waiter} (hstmt : s.pc t = .addBlock w)
    (hpc : ∀ u, u ≠ t → s'.pc u = s.pc u) (hself : s'.pc t = .addRelease w)
    (hqueue : s'.queue = s.queue) (hstate : s'.state = Function.update s.state t .blocked)
    (hcurrent : s'.current = s.current) : AgreeInv s' := by
  have hwk : ∀ u v, (s'.pc u).woken = some v → (s.pc u).woken = some v := fun u v =>
    woken_of_ne hpc (by simp [hself, Pc.woken])
  have hother : ∀ u, u ≠ t → s'.state u = s.state u := fun u hut => by
    rw [hstate, Function.update_of_ne hut]
  have hmarked : s'.state t = .blocked := by rw [hstate, Function.update_self]
  constructor
  · intro q u hu
    rw [hqueue] at hu
    by_cases hut : u = t
    · exact .inl (hut ▸ hmarked)
    · rw [hother u hut, hpc u hut]
      exact h.queued q u hu
  · intro u w' hw'
    rw [hqueue]
    have hut : u ≠ t := by
      rintro rfl
      cases hself.symm.trans hw'
    exact h.adding u w' (hpc u hut ▸ hw')
  · rw [hqueue]
    exact h.nodup
  · rw [hqueue]
    exact h.unique
  · intro u hu
    rw [hqueue]
    by_cases hut : u = t
    · exact .inl ⟨w.queue, hut ▸ h.adding t w hstmt⟩
    · rw [hother u hut] at hu
      rcases h.blocked u hu with hq | ⟨v, hv⟩
      · exact .inl hq
      · have hvt : v ≠ t := by
          rintro rfl
          simp [hstmt, Pc.woken] at hv
        exact .inr ⟨v, by rwa [hpc v hvt]⟩
  · intro u v hu
    obtain ⟨hb, hq⟩ := h.woken u v (hwk u v hu)
    rw [hqueue]
    refine ⟨?_, hq⟩
    by_cases hvt : v = t
    · exact hvt ▸ hmarked
    · rw [hother v hvt, hb]
  · intro u v x hu hv
    exact h.wokenUnique u v x (hwk u x hu) (hwk v x hv)
  · intro u hu
    have hut : u ≠ t := by
      rintro rfl
      cases hmarked.symm.trans hu
    rw [hcurrent]
    exact h.running u (hother u hut ▸ hu)

/-- A wake-up function takes the first thread off its queue. That thread is BLOCKED: at `addBlock`
it would hold the lock of the queue together with the waker. -/
theorem AgreeInv.pop (h : AgreeInv s) (hlocks : LocksAgree s) {k : Waker} {rest : List Tid}
    (hstmt : s.pc t = .wakeRemove k) (hhead : s.queue k.queue = th :: rest)
    (hpc : ∀ u, u ≠ t → s'.pc u = s.pc u) (hself : s'.pc t = .wakeRelease k (some th))
    (hqueue : s'.queue = Function.update s.queue k.queue rest) (hstate : s'.state = s.state)
    (hcurrent : s'.current = s.current) : AgreeInv s' := by
  have hfirst : th ∈ s.queue k.queue := by
    rw [hhead]
    exact List.mem_cons_self
  obtain ⟨hthrest, hrest⟩ := List.nodup_cons.mp (hhead ▸ h.nodup k.queue)
  have hmem : ∀ q u, u ∈ s'.queue q ↔ u ∈ s.queue q ∧ u ≠ th := by
    intro q u
    rw [hqueue]
    by_cases hq : q = k.queue
    · subst hq
      rw [Function.update_self, hhead, List.mem_cons]
      constructor
      · exact fun hu => ⟨.inr hu, fun heq => hthrest (heq ▸ hu)⟩
      · exact fun hu => hu.1.resolve_left hu.2
    · rw [Function.update_of_ne hq]
      exact ⟨fun hu => ⟨hu, fun heq => hq (h.unique q _ th (heq ▸ hu) hfirst)⟩, fun hu => hu.1⟩
  have hnotadding : ∀ w, s.pc th ≠ .addBlock w := by
    intro w hw
    have hq := h.unique _ _ th (h.adding th w hw) hfirst
    have hth : th = t := hlocks.holds_unique (l := .queue k.queue)
      (by simp [hw, Pc.holds, hq]) (by simp [hstmt, Pc.holds])
    rw [hth, hstmt] at hw
    cases hw
  have hb : s.state th = .blocked := by
    rcases h.queued _ th hfirst with hblocked | ⟨w, hw⟩
    · exact hblocked
    · exact absurd hw (hnotadding w)
  have hwoken : (s'.pc t).woken = some th := by rw [hself]; rfl
  constructor
  · intro q u hu
    rw [hstate]
    have hold := ((hmem q u).mp hu).1
    by_cases hut : u = t
    · refine .inl ((h.queued q u hold).resolve_right ?_)
      rintro ⟨w, hw⟩
      rw [hut, hstmt] at hw
      cases hw
    · rw [hpc u hut]
      exact h.queued q u hold
  · intro u w hw
    have hut : u ≠ t := by
      rintro rfl
      cases hself.symm.trans hw
    rw [hpc u hut] at hw
    exact (hmem _ u).mpr ⟨h.adding u w hw, fun heq => hnotadding w (heq ▸ hw)⟩
  · intro q
    rw [hqueue]
    by_cases hq : q = k.queue
    · subst hq
      rwa [Function.update_self]
    · rw [Function.update_of_ne hq]
      exact h.nodup q
  · intro q q' u hu hu'
    exact h.unique q q' u ((hmem q u).mp hu).1 ((hmem q' u).mp hu').1
  · intro u hu
    rw [hstate] at hu
    by_cases huth : u = th
    · exact .inr ⟨t, by rw [hself, huth]; rfl⟩
    · rcases h.blocked u hu with ⟨q, hq⟩ | ⟨v, hv⟩
      · exact .inl ⟨q, (hmem q u).mpr ⟨hq, huth⟩⟩
      · have hvt : v ≠ t := by
          rintro rfl
          simp [hstmt, Pc.woken] at hv
        exact .inr ⟨v, by rwa [hpc v hvt]⟩
  · intro u v hu
    rw [hstate]
    rcases woken_of_pop hpc hwoken hu with ⟨-, rfl⟩ | hu
    · exact ⟨hb, fun q hv => ((hmem q v).mp hv).2 rfl⟩
    · obtain ⟨hvb, hvq⟩ := h.woken u v hu
      exact ⟨hvb, fun q hv => hvq q ((hmem q v).mp hv).1⟩
  · intro u v x hu hv
    have hnew : ∀ u, (s.pc u).woken ≠ some th := fun u hu => (h.woken u th hu).2 _ hfirst
    exact wokenUnique_pop hpc hwoken hnew h.wokenUnique hu hv
  · rw [hstate, hcurrent]
    exact h.running

/-- A wake-up function marks the thread it took off a queue READY. -/
theorem AgreeInv.ready (h : AgreeInv s) (hbefore : (s.pc t).woken = some th)
    (hpc : ∀ u, u ≠ t → s'.pc u = s.pc u) (hwoken : (s'.pc t).woken = none)
    (hafter : ∀ w, s'.pc t ≠ .addBlock w) (hqueue : s'.queue = s.queue)
    (hstate : s'.state = Function.update s.state th .ready) (hcurrent : s'.current = s.current) :
    AgreeInv s' := by
  obtain ⟨-, hfree⟩ := h.woken t th hbefore
  have hother : ∀ u, u ≠ th → s'.state u = s.state u := fun u hu => by
    rw [hstate, Function.update_of_ne hu]
  have hmarked : s'.state th = .ready := by rw [hstate, Function.update_self]
  have hwk : ∀ u v, (s'.pc u).woken = some v → u ≠ t ∧ (s.pc u).woken = some v :=
    fun u v => woken_of_none hpc hwoken
  constructor
  · intro q u hu
    rw [hqueue] at hu
    have huth : u ≠ th := fun heq => hfree q (heq ▸ hu)
    rw [hother u huth]
    by_cases hut : u = t
    · refine .inl ((h.queued q u hu).resolve_right ?_)
      rintro ⟨w, hw⟩
      rw [← hut, hw] at hbefore
      cases hbefore
    · rw [hpc u hut]
      exact h.queued q u hu
  · intro u w hw
    rw [hqueue]
    have hut : u ≠ t := by
      rintro rfl
      exact hafter w hw
    exact h.adding u w (hpc u hut ▸ hw)
  · rw [hqueue]
    exact h.nodup
  · rw [hqueue]
    exact h.unique
  · intro u hu
    rw [hqueue]
    have huth : u ≠ th := by
      rintro rfl
      cases hmarked.symm.trans hu
    rw [hother u huth] at hu
    rcases h.blocked u hu with hq | ⟨v, hv⟩
    · exact .inl hq
    · have hvt : v ≠ t := by
        rintro rfl
        exact huth (Option.some.inj (hv.symm.trans hbefore))
      exact .inr ⟨v, by rwa [hpc v hvt]⟩
  · intro u v hu
    obtain ⟨hut, hu⟩ := hwk u v hu
    obtain ⟨hb, hq⟩ := h.woken u v hu
    have hvth : v ≠ th := fun heq => hut (h.wokenUnique u t v hu (heq ▸ hbefore))
    rw [hqueue, hother v hvth]
    exact ⟨hb, hq⟩
  · intro u v x hu hv
    exact h.wokenUnique u v x (hwk u x hu).2 (hwk v x hv).2
  · intro u hu
    have huth : u ≠ th := by
      rintro rfl
      cases hmarked.symm.trans hu
    rw [hcurrent]
    exact h.running u (hother u huth ▸ hu)

/-- A statement of the current thread keeps the invariant, unless it puts a BLOCKED thread on a
queue. -/
theorem AgreeInv.exec (h : AgreeInv s) (hlocks : LocksAgree s)
    (hawake : (s.pc s.current).pushes = true → s.state s.current ≠ .blocked) :
    AgreeInv (s.exec s.current (s.pc s.current)) := by
  have hpc : ∀ u, u ≠ s.current → (s.exec s.current (s.pc s.current)).pc u = s.pc u :=
    fun u hu => exec_pc_of_ne hu _
  have hcurrent := exec_current s s.current (s.pc s.current)
  cases execEffect (s := s) (t := s.current) rfl with
  | keep hqueue hstate hwoken hbefore hafter =>
    refine h.keep hqueue (fun u => by rw [hstate]) (fun u hu => ?_) hpc hwoken hbefore hafter
    rw [hcurrent]
    exact h.running u (hstate ▸ hu)
  | push w hstmt hself hqueue hstate =>
    exact h.push hstmt (hawake (by rw [hstmt]; rfl)) hpc hself hqueue hstate hcurrent
  | block w hstmt hself hqueue hstate => exact h.block hstmt hpc hself hqueue hstate hcurrent
  | pop k th rest hstmt hhead hself hqueue hstate =>
    exact h.pop hlocks hstmt hhead hpc hself hqueue hstate hcurrent
  | ready k th hstmt hwoken hafter hqueue hstate =>
    exact h.ready (by rw [hstmt]; rfl) hpc hwoken hafter hqueue hstate hcurrent

omit [DecidableEq Tid] in
/-- Queues and program counters stay, and so do the BLOCKED threads. -/
theorem AgreeInv.congr (h : AgreeInv s) (hqueue : s'.queue = s.queue) (hpc : s'.pc = s.pc)
    (hblocked : ∀ u, s'.state u = .blocked ↔ s.state u = .blocked)
    (hrunning : ∀ u, s'.state u = .running → u = s'.current) : AgreeInv s' := by
  constructor
  · simpa only [hqueue, hpc, hblocked] using h.queued
  · simpa only [hqueue, hpc] using h.adding
  · simpa only [hqueue] using h.nodup
  · simpa only [hqueue] using h.unique
  · simpa only [hqueue, hpc, hblocked] using h.blocked
  · simpa only [hqueue, hpc, hblocked] using h.woken
  · simpa only [hpc] using h.wokenUnique
  · exact hrunning

/-- `schedule()` switches to a READY thread. -/
theorem AgreeInv.switchTo (h : AgreeInv s) (hready : s.state u = .ready) :
    AgreeInv (s.switchTo u) := by
  refine h.congr rfl rfl (fun t => (Schedules.switch u hready).blocked_iff t) fun t ht => ?_
  show t = u
  by_contra htu
  simp only [Machine.switchTo, Function.update_of_ne htu] at ht
  split at ht
  · next hrun =>
    have htc : t ≠ s.current := by
      rintro rfl
      simp at ht
    rw [Function.update_of_ne htc] at ht
    exact htc (h.running t ht)
  · next hrun => exact hrun (h.running t ht ▸ ht)

end Machine

/-! ### Runs -/

section

variable [DecidableEq Tid] {s s' : Cpu Tid} {e : CpuEvent Tid} {C : Cpu Tid → CpuEvent Tid → Prop}

theorem Cpu.locksAgree_schedules (h : s.machine.LocksAgree) (hs : s.Schedules s') :
    s'.machine.LocksAgree := by
  cases hs with
  | returns _ => exact h
  | switch u _ _ => exact h
  | keep _ _ => exact h

theorem Cpu.locksAgree_step (h : s.machine.LocksAgree) (hstep : Cpu.Step s e s') :
    s'.machine.LocksAgree := by
  cases hstep with
  | call c hidle => exact h.step (.call c hidle)
  | run _ => exact h.exec _
  | yield _ hsched => exact Cpu.locksAgree_schedules (h.exec _) hsched
  | tick hsched => exact Cpu.locksAgree_schedules h hsched
  | add u _ _ _ => exact h
  | exit u _ _ _ => exact h

theorem Cpu.locksAgree_of_reachable (h : (cpuSystem Tid).ReachableUnder C s) :
    s.machine.LocksAgree := by
  refine h.invariant (I := fun s => s.machine.LocksAgree) (fun s hs t l => ?_)
    fun s e s' hlocks _ hstep => Cpu.locksAgree_step hlocks hstep
  simp [hs.machine.pc t, hs.machine.lock l, Pc.holds]

theorem Cpu.agree_schedules (h : s.machine.AgreeInv) (hs : s.Schedules s') :
    s'.machine.AgreeInv := by
  cases hs with
  | returns _ => exact h
  | switch u _ hready => exact h.switchTo hready
  | keep _ _ => exact h

theorem Cpu.agree_init (h : s.Initial) : s.machine.AgreeInv := by
  have hnotblocked : ∀ t, s.machine.state t ≠ .blocked := by
    intro t ht
    by_cases htc : t = s.machine.current
    · rw [htc, h.machine.running] at ht
      cases ht
    · cases (h.dead t htc).symm.trans ht
  constructor
  · simp [h.machine.queue]
  · simp [h.machine.pc]
  · simp [h.machine.queue]
  · simp [h.machine.queue]
  · exact fun t ht => absurd ht (hnotblocked t)
  · simp [h.machine.pc, Pc.woken]
  · simp [h.machine.pc, Pc.woken]
  · intro t ht
    by_contra htc
    cases (h.dead t htc).symm.trans ht

/-- A change of one state to another that is neither RUNNING nor BLOCKED. -/
theorem Machine.AgreeInv.setState {m : Machine Tid} (h : m.AgreeInv) {t : Tid} {state : ThreadState}
    (hold : m.state t ≠ .blocked) (hblocked : state ≠ .blocked) (hrunning : state ≠ .running) :
    (m.setState t state).AgreeInv := by
  refine h.congr rfl rfl (fun u => ?_) fun u hu => ?_
  · by_cases hut : u = t
    · subst hut
      simp [Machine.setState, hold, hblocked]
    · simp [Machine.setState, hut]
  · have hut : u ≠ t := by
      rintro rfl
      simp [Machine.setState, hrunning] at hu
    have hsame : (m.setState t state).state u = m.state u := Function.update_of_ne hut _ _
    exact h.running u (hsame ▸ hu)

/-- The step lemma. -/
theorem Cpu.agree_step (h : s.machine.AgreeInv) (hlocks : s.machine.LocksAgree)
    (hawake : ActsAwake s e) (hstep : Cpu.Step s e s') : s'.machine.AgreeInv := by
  cases hstep with
  | call c hidle =>
    -- a call starts outside `waitqueue_add`
    have hentry : ∀ w, (c.entry : Pc Tid) ≠ .addBlock w := by cases c <;> rintro w ⟨⟩
    refine Machine.AgreeInv.keep (t := s.machine.current) h rfl (fun u => Iff.rfl) h.running
      (fun u hu => Function.update_of_ne hu _ _) ?_ ?_ ?_
    · have hself : (s.machine.begin s.machine.current c).pc s.machine.current = c.entry :=
        Function.update_self _ _ _
      rw [hidle, hself, Call.woken_entry]
      rfl
    · simp [hidle]
    · intro w
      simpa [Machine.begin] using hentry w
  | run _ => exact h.exec hlocks hawake
  | yield _ hsched => exact Cpu.agree_schedules (h.exec hlocks hawake) hsched
  | tick hsched => exact Cpu.agree_schedules h hsched
  | add u _ hnew _ => exact h.setState (by simp [hnew]) (by rintro ⟨⟩) (by rintro ⟨⟩)
  | exit u hidle _ hready =>
    have hexited : s.exit.machine.AgreeInv := h.setState hawake (by rintro ⟨⟩) (by rintro ⟨⟩)
    exact hexited.switchTo hready

/-- The run lemma. -/
theorem Cpu.agree_of_reachable (h : (cpuSystem Tid).ReachableUnder ActsAwake s) :
    s.machine.AgreeInv :=
  h.invariant₂ (I := fun s => s.machine.AgreeInv) (J := fun s => s.machine.LocksAgree)
    (fun _ hs => Cpu.locksAgree_of_reachable hs) (fun _ hs => Cpu.agree_init hs)
    fun _ _ _ hlocks hI hawake hstep => Cpu.agree_step hI hlocks hawake hstep

/-- In every run in which no BLOCKED thread waits or exits, the wait queues and the thread states
agree whenever no thread is inside a section that is protected by a lock. -/
theorem queuesAgree_of_actsAwake (h : (cpuSystem Tid).ReachableUnder ActsAwake s)
    (hout : ∀ t, ¬ (s.machine.pc t).InSection) : s.machine.QueuesAgree := by
  have hinv := Cpu.agree_of_reachable h
  refine ⟨fun q t ht => ⟨?_, ?_, fun q' ht' => hinv.unique q' q t ht' ht⟩, fun t ht => ?_,
    hinv.running⟩
  · refine (hinv.queued q t ht).resolve_right ?_
    rintro ⟨w, hw⟩
    exact hout t (.inl ⟨w.outer, by simp [hw, Pc.holds]⟩)
  · exact List.count_eq_one_of_mem (hinv.nodup q) ht
  · refine (hinv.blocked t ht).resolve_right ?_
    rintro ⟨u, hu⟩
    exact hout u (.inr ⟨t, hu⟩)

end

/-! ### Runs by choice -/

namespace Cpu

variable [DecidableEq Tid]

/-- `schedule()` returns at once, or picks `u` if that thread is READY and on the ring. -/
def pick (s : Cpu Tid) (u : Tid) : Option (Cpu Tid) :=
  if s.readyQueue = [] then some s
  else if u ∈ s.readyQueue ∧ s.machine.state u = .ready then
    some { s with machine := s.machine.switchTo u }
  else none

/-- The step for an event; a call of `schedule()` in it picks `u`. -/
def take (s : Cpu Tid) : CpuEvent Tid × Tid → Option (Cpu Tid)
  | (.call c, _) =>
    if s.machine.pc s.machine.current = .idle then
      some { s with machine := s.machine.begin s.machine.current c }
    else none
  | (.run, u) =>
    if Machine.callsSchedule (s.machine.pc s.machine.current) then s.exec.pick u else some s.exec
  | (.tick, u) => s.pick u
  | (.add v, _) =>
    if s.machine.pc s.machine.current = .idle ∧ s.machine.state v = .dead ∧ v ∉ s.readyQueue then
      some (s.add v)
    else none
  | (.exit, _) => none

theorem schedules_of_pick {s s' : Cpu Tid} {u : Tid} (h : s.pick u = some s') :
    s.Schedules s' := by
  rw [pick] at h
  split_ifs at h with hempty hready
  · obtain rfl := Option.some.inj h
    exact .returns hempty
  · obtain rfl := Option.some.inj h
    exact .switch u hready.1 hready.2

theorem step_of_take {s s' : Cpu Tid} {e : CpuEvent Tid} {u : Tid} (h : s.take (e, u) = some s') :
    Step s e s' := by
  cases e with
  | call c =>
    simp only [take] at h
    split_ifs at h with hidle
    obtain rfl := Option.some.inj h
    exact .call c hidle
  | run =>
    simp only [take] at h
    split_ifs at h with hcall
    · exact .yield hcall (schedules_of_pick h)
    · obtain rfl := Option.some.inj h
      exact .run (by simpa using hcall)
  | tick => exact .tick (schedules_of_pick h)
  | add v =>
    simp only [take] at h
    split_ifs at h with hnew
    obtain rfl := Option.some.inj h
    exact .add v hnew.1 hnew.2.1 hnew.2.2
  | exit => cases h

/-- After `thread_init`. -/
def start (first : Tid) : Cpu Tid :=
  ⟨{ Machine.start first with state := fun t => if t = first then .running else .dead }, []⟩

theorem initial_start (first : Tid) : (start first).Initial := by
  have hmachine := Machine.initial_start first
  refine ⟨⟨if_pos rfl, fun t ht => .inr (if_neg ht), hmachine.pc, hmachine.lock, hmachine.queue,
    hmachine.mutex, hmachine.pipe, hmachine.critical, hmachine.moved, hmachine.stored,
    hmachine.taken, hmachine.returned⟩, fun t ht => if_neg ht, rfl⟩

end Cpu

/-- A test of the state at the end of a run of choices tells of a reachable state. -/
theorem Cpu.exists_reachableUnder [DecidableEq Tid] {C : Cpu Tid → CpuEvent Tid → Prop}
    [∀ s e, Decidable (C s e)] {P : Cpu Tid → Prop} [DecidablePred P] (first : Tid)
    (choices : List (CpuEvent Tid × Tid))
    (h : (execAll (fun s choice => if C s choice.1 then Cpu.take s choice else none)
      (Cpu.start first) choices).any (fun s => P s) = true) :
    ∃ s, (cpuSystem Tid).ReachableUnder C s ∧ P s := by
  refine System.exists_reachableUnder _ choices (fun s choice s' hchoice => ?_)
    (Cpu.initial_start first) h
  split_ifs at hchoice with hC
  exact ⟨choice.1, hC, Cpu.step_of_take hchoice⟩

/-- A reader of an empty pipe waits, and the other thread runs. -/
theorem queuesAgree_reader : ∃ s : Cpu (Fin 2), s.machine.state 0 = .blocked ∧
    s.machine.current = 1 ∧ s.machine.QueuesAgree := by
  obtain ⟨s, hs, hstate, hcurrent, hreader, hother⟩ := Cpu.exists_reachableUnder (C := ActsAwake)
    (P := fun s => s.machine.state 0 = .blocked ∧ s.machine.current = 1 ∧
      s.machine.pc 0 = .readAcquire 0 1 ∧ s.machine.pc 1 = .idle) (0 : Fin 2)
    ((.add 1, 1) :: (.call (.read 0 1), 1) :: List.replicate 8 (.run, 1)) (by decide)
  refine ⟨s, hstate, hcurrent, queuesAgree_of_actsAwake hs fun t => ?_⟩
  have houtside : ∀ pc : Pc (Fin 2), pc = .readAcquire 0 1 ∨ pc = .idle → ¬ pc.InSection := by
    rintro pc (rfl | rfl) (⟨l, hl⟩ | ⟨th, hth⟩)
    · cases hl
    · cases hth
    · cases hl
    · cases hth
  apply houtside
  match t with
  | 0 => exact .inl hreader
  | 1 => exact .inr hother

/-- The only thread reads from an empty pipe: `schedule()` returns at once, and the loop puts the
thread on the queue again. -/
theorem not_queuesAgree : ¬ ∀ s : Cpu (Fin 1), (cpuSystem (Fin 1)).Reachable s →
    (∀ t, ¬ (s.machine.pc t).InSection) → s.machine.QueuesAgree := by
  intro hall
  obtain ⟨s, hs, hpc, hqueue⟩ := Cpu.exists_reachableUnder (C := fun _ _ => True)
    (P := fun s => s.machine.pc 0 = .waitSchedule (.pipeRead 0 1) ∧
      s.machine.queue (.pipeRead 0) = [0, 0]) (0 : Fin 1)
    ((.call (.read 0 1), 0) :: List.replicate 15 (.run, 0)) (by decide +kernel)
  have hagree := hall s hs fun t => by
    rw [Subsingleton.elim t 0, hpc]
    rintro (⟨l, hl⟩ | ⟨th, hth⟩)
    · cases hl
    · cases hth
  obtain ⟨-, hcount, -⟩ := hagree.queued (.pipeRead 0) 0 (by simp [hqueue])
  rw [hqueue] at hcount
  exact absurd hcount (by decide)

end KyroOS.Sync

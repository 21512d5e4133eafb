import KyroOS.Sync.Blocking
import KyroOS.Sync.PipeFifo

/-!
# Closing the ends of a pipe

`pipe_close_write` marks the pipe and wakes every reader, and `pipe_close_read` every
writer, under the lock of the pipe. A reader tests the mark under the same lock before
it waits, so that nobody comes to wait behind the wake-up.

## Main definitions

* `Side` — the readers and the writers of a pipe, with the call that sends them away
* `Machine.ParkedInv` — a BLOCKED thread is on its queue, or in the hand of a wake-up call
* `Machine.SentAway` — a call that sends a side away has woken all of it
* `Machine.ClosedInv` — what is true behind the mark of that call, and behind its wake-up

## Main results

* `Machine.parkedInv`, `Machine.closedInv` — both hold in every reachable state
* `Machine.ready_of_returned` — after the call nobody on that side is BLOCKED, but for the
  threads that `pipe_destroy` has in hand
-/

namespace KyroOS.Sync

open Transition

variable {Tid : Type*}

/-! ### The sides of a pipe -/

/-- The threads that can wait at a pipe: its readers, and its writers. -/
inductive Side
  | readers
  | writers
  deriving DecidableEq, Repr

namespace Side

/-- The queue of the side. -/
def queue (p : ℕ) : Side → QueueId
  | readers => .pipeRead p
  | writers => .pipeWrite p

/-- The side has been sent away: the other end of the pipe is closed. -/
def closed : Side → Pipe → Bool
  | readers, pipe => pipe.writeClosed
  | writers, pipe => pipe.readClosed

/-- The statement that sends the side away, the wake-up call after it, and what the call
that makes them returns. -/
def mark (p : ℕ) : Side → Pc Tid
  | readers => .closeWriteMark p
  | writers => .closeReadMark p

def closer (p : ℕ) : Side → Waker
  | readers => .closeWrite p
  | writers => .closeRead p

def closeRet (p : ℕ) : Side → Ret
  | readers => .closeWrite p
  | writers => .closeRead p

/-- The wake-up call of `pipe_destroy` for the side. -/
def destroyer (p : ℕ) : Side → Waker
  | readers => .destroyRead p
  | writers => .destroyWrite p

variable {side : Side} {p : ℕ}

@[simp] theorem queue_closer : (side.closer p).queue = side.queue p := by
  cases side <;> rfl

@[simp] theorem outer_closer : (side.closer p).outer = some (.pipe p) := by
  cases side <;> rfl

theorem holds_mark : (side.mark p : Pc Tid).holds (.pipe p) = true := by
  cases side <;> simp [mark, Pc.holds]

end Side

/-- Whoever waits on the queue of a side holds the lock of the pipe before. -/
theorem Waiter.outer_of_queue {w : Waiter} {side : Side} {p : ℕ} (h : w.queue = side.queue p) :
    w.outer = .pipe p := by
  cases side <;> cases w <;> simp_all [Waiter.queue, Waiter.outer, Side.queue]

/-- The wake-up calls for a side are that of `pipe_destroy` and those under the lock. -/
theorem Waker.outer_of_queue {k : Waker} {side : Side} {p : ℕ} (h : k.queue = side.queue p)
    (hk : k ≠ side.destroyer p) : k.outer = some (.pipe p) := by
  cases side <;> cases k <;> simp_all [Waker.queue, Waker.outer, Side.queue, Side.destroyer]

/-! ### What a program counter says -/

/-- On the way into a wait queue, under the lock of the caller. -/
def Pc.enqueuing : Pc Tid → Option Waiter
  | .addAcquire w | .addPush w | .addBlock w | .addRelease w | .waitRelease w => some w
  | _ => none

/-- Inside a wake-up call. -/
def Pc.wakes : Pc Tid → Option Waker
  | .wakeAcquire k | .wakeRemove k | .wakeRelease k _ | .wakeReady k _ => some k
  | _ => none

/-- A wake-up call that has taken a thread off the queue and not marked it READY yet. -/
def Pc.hand : Pc Tid → Option (Waker × Tid)
  | .wakeRelease k (some th) | .wakeReady k th => some (k, th)
  | _ => none

/-- A wake-up call that has found the queue empty. -/
def Pc.emptied : Pc Tid → Option Waker
  | .wakeRelease k none => some k
  | _ => none

/-- The value that is returned once the locks are released. -/
def Pc.ret : Pc Tid → Option Ret
  | .release _ r | .returns r => some r
  | _ => none

theorem Pc.holds_of_enqueuing {pc : Pc Tid} {w : Waiter} (h : pc.enqueuing = some w) :
    pc.holds w.outer = true := by
  cases pc <;> simp_all [Pc.enqueuing, Pc.holds]

theorem Pc.holds_of_hand {pc : Pc Tid} {k : Waker} {th : Tid} {l : LockId}
    (h : pc.hand = some (k, th)) (hl : k.outer = some l) : pc.holds l = true := by
  cases pc with
  | wakeRelease k' woken => cases woken <;> simp_all [Pc.hand, Pc.holds]
  | wakeReady k' th' => simp_all [Pc.hand, Pc.holds]
  | _ => simp [Pc.hand] at h

namespace Machine

variable [DecidableEq Tid] {s s' : Machine Tid} {t u : Tid} {p : ℕ} {e : Event}
  {stmt : Pc Tid} {side : Side}

/-! ### What one statement does -/

/-- A thread comes on its way into a wait queue from the test of its waiter only. -/
theorem enqueuing_exec {w : Waiter} (hpc : s.pc t = stmt)
    (h : ((s.exec t stmt).pc t).enqueuing = some w) :
    stmt.enqueuing = some w ∨ stmt = w.test ∧ s.MustWait w := by
  have hwaiter : ((s.exec t stmt).pc t).waiter = some w := by
    generalize (s.exec t stmt).pc t = pc at h
    cases pc <;> simp_all [Pc.enqueuing, Pc.waiter]
  refine (waiter_exec hpc hwaiter).imp_left fun hstmt => ?_
  cases stmt with
  | waitSchedule w' =>
    cases w' <;> simp [exec, goto, Pc.enqueuing, Waiter.resume] at h
  | _ => simp_all [Pc.waiter, Pc.enqueuing]

/-- The wake-up call of a side is made behind the mark only. -/
theorem wakes_exec (hpc : s.pc t = stmt)
    (h : ((s.exec t stmt).pc t).wakes = some (side.closer p)) :
    stmt.wakes = some (side.closer p) ∨ stmt = side.mark p := by
  cases stmt with
  | closeReadMark p' => cases side <;> simp_all [exec, goto, Pc.wakes, Side.closer, Side.mark]
  | closeWriteMark p' => cases side <;> simp_all [exec, goto, Pc.wakes, Side.closer, Side.mark]
  | wakeRelease k woken =>
    cases woken with
    | none =>
      cases k <;> cases side <;>
        simp [exec, spinlockRelease, Pc.wakes, Waker.after, Side.closer] at h
    | some th => exact .inl (by simpa [exec, spinlockRelease, Pc.wakes] using h)
  | wakeReady k th =>
    cases hall : k.all <;> cases k <;> cases side <;>
      simp_all [exec, goto, Pc.wakes, Waker.after, Waker.all, Side.closer]
  | waitSchedule w => cases w <;> simp [exec, goto, Pc.wakes, Waiter.resume] at h
  | _ =>
    simp only [exec, spinlockAcquire] at h
    (repeat' split at h) <;> cases side <;>
      simp_all [goto, setMutex, setPipe, setQueue, takeByte, storeByte, spinlockRelease, finish,
        Pc.wakes, Side.closer]

/-- A wake-up call finds its queue empty when it looks for the first thread. -/
theorem emptied_exec {k : Waker} (hpc : s.pc t = stmt)
    (h : ((s.exec t stmt).pc t).emptied = some k) :
    stmt = .wakeRemove k ∧ s.queue k.queue = [] := by
  cases stmt with
  | wakeRemove k' =>
    cases hq : s.queue k'.queue with
    | nil =>
      obtain rfl : k' = k := by simpa [exec, hq, goto, Pc.emptied] using h
      exact ⟨rfl, hq⟩
    | cons th rest => simp [exec, hq, goto, setQueue, Pc.emptied] at h
  | wakeRelease k' woken =>
    cases woken <;> cases k' <;> simp [exec, spinlockRelease, Pc.emptied, Waker.after] at h
  | wakeReady k' th =>
    cases hall : k'.all <;> cases k' <;> simp_all [exec, goto, Pc.emptied, Waker.after]
  | waitSchedule w => cases w <;> simp [exec, goto, Pc.emptied, Waiter.resume] at h
  | _ =>
    simp only [exec, spinlockAcquire] at h
    (repeat' split at h) <;>
      simp [goto, setMutex, setPipe, takeByte, storeByte, spinlockRelease, finish, Pc.emptied,
        hpc] at h

/-- A call that sends a side away returns after its wake-up call found the queue empty. -/
theorem ret_exec (hpc : s.pc t = stmt)
    (h : ((s.exec t stmt).pc t).ret = some (side.closeRet p)) :
    stmt.ret = some (side.closeRet p) ∨ stmt.emptied = some (side.closer p) := by
  cases stmt with
  | wakeRelease k woken =>
    cases woken with
    | none =>
      cases k <;> cases side <;>
        simp_all [exec, spinlockRelease, Pc.ret, Pc.emptied, Waker.after, Side.closeRet,
          Side.closer]
    | some th => simp [exec, spinlockRelease, Pc.ret] at h
  | wakeReady k th =>
    cases hall : k.all <;> cases k <;> cases side <;>
      simp_all [exec, goto, Pc.ret, Waker.after, Waker.all, Side.closeRet]
  | waitSchedule w =>
    cases w <;> cases side <;> simp [exec, goto, Pc.ret, Waiter.resume, Side.closeRet] at h
  | release l r => exact .inl (by simpa [exec, spinlockRelease, Pc.ret] using h)
  | _ =>
    simp only [exec, spinlockAcquire] at h
    (repeat' split at h) <;> cases side <;>
      simp_all [goto, setMutex, setPipe, setQueue, takeByte, storeByte, spinlockRelease, finish,
        Pc.ret, Side.closeRet]

/-- A wake-up call takes a thread in hand when it removes the first one of its queue. -/
theorem hand_exec {k : Waker} {th : Tid} (hpc : s.pc t = stmt)
    (h : ((s.exec t stmt).pc t).hand = some (k, th)) :
    stmt.hand = some (k, th) ∨
      stmt = .wakeRemove k ∧ ∃ rest, s.queue k.queue = th :: rest := by
  cases stmt with
  | wakeRemove k' =>
    cases hq : s.queue k'.queue with
    | nil => simp [exec, hq, goto, Pc.hand] at h
    | cons th' rest =>
      obtain ⟨rfl, rfl⟩ : k' = k ∧ th' = th := by
        simpa [exec, hq, goto, setQueue, Pc.hand] using h
      exact .inr ⟨rfl, rest, hq⟩
  | wakeRelease k' woken =>
    cases woken with
    | none => cases k' <;> simp [exec, spinlockRelease, Pc.hand, Waker.after] at h
    | some th' => exact .inl (by simpa [exec, spinlockRelease, Pc.hand] using h)
  | wakeReady k' th' =>
    cases hall : k'.all <;> cases k' <;> simp_all [exec, goto, Pc.hand, Waker.after]
  | waitSchedule w => cases w <;> simp [exec, goto, Pc.hand, Waiter.resume] at h
  | _ =>
    simp only [exec, spinlockAcquire] at h
    (repeat' split at h) <;>
      simp [goto, setMutex, setPipe, takeByte, storeByte, spinlockRelease, finish, Pc.hand,
        hpc] at h

/-- Only the mark closes an end of a pipe, and no statement opens it. -/
theorem closed_exec : side.closed ((s.exec t stmt).pipe p) = true ↔
    side.closed (s.pipe p) = true ∨ stmt = side.mark p := by
  have hset : ∀ p' (pipe : Pipe), side.closed (Function.update s.pipe p' pipe p) =
      if p = p' then side.closed pipe else side.closed (s.pipe p) := by
    intro p' pipe
    rw [Function.update_apply, apply_ite side.closed]
  cases stmt with
  | closeReadMark p' | closeWriteMark p' | destroyFree p' =>
    simp only [exec, goto, setPipe, hset]
    cases side <;> by_cases hp : p = p' <;>
      simp [Side.closed, Side.mark, hp, eq_comm (a := p')]
  | readCopy p' count dest =>
    simp only [exec]
    split_ifs
    · simp only [goto, takeByte, hset]
      cases side <;> by_cases hp : p = p' <;> simp [Side.closed, Side.mark, hp]
    · cases side <;> simp [goto, Side.mark]
  | writeLoop p' src written =>
    have hstored : side.closed ((s.storeByte t p' (src.getD written 0)).pipe p) =
        side.closed (s.pipe p) := by
      simp only [storeByte, hset]
      cases side <;> by_cases hp : p = p' <;> simp [Side.closed, hp]
    have hmark : (.writeLoop p' src written : Pc Tid) ≠ side.mark p := by
      cases side <;> simp [Side.mark]
    simp only [exec, hmark, or_false]
    split_ifs
    all_goals first | exact Iff.rfl | exact iff_of_eq (congrArg (· = true) hstored)
  | wakeRelease k woken => cases woken <;> cases side <;> simp [exec, spinlockRelease, Side.mark]
  | _ =>
    simp only [exec, spinlockAcquire]
    (repeat' split) <;> cases side <;>
      simp [goto, setMutex, setState, setQueue, spinlockRelease, finish, Side.mark]

theorem writeClosed_stays (h : (s.pipe p).writeClosed = true) :
    ((s.exec t stmt).pipe p).writeClosed = true := by
  show Side.readers.closed _ = true
  exact closed_exec.mpr (.inl h)

theorem readClosed_stays (h : (s.pipe p).readClosed = true) :
    ((s.exec t stmt).pipe p).readClosed = true := by
  show Side.writers.closed _ = true
  exact closed_exec.mpr (.inl h)

/-! ### BLOCKED threads -/

/-- A BLOCKED thread stands on the queue it waits at, or a wake-up call has it in hand. -/
structure ParkedInv (s : Machine Tid) : Prop where
  marking : ∀ t w, s.pc t = .addBlock w → t ∈ s.queue w.queue
  parked : ∀ t, s.state t = .blocked → ∃ w : Waiter, (s.pc t).WaitsAt w ∧
    (t ∈ s.queue w.queue ∨ ∃ u k, (s.pc u).hand = some (k, t) ∧ k.queue = w.queue)

/-- A thread stays on its queue until a wake-up call takes it in hand. -/
theorem mem_queue_exec {q : QueueId} (hmem : u ∈ s.queue q) :
    u ∈ (s.exec t (s.pc t)).queue q ∨
      ∃ k, s.pc t = .wakeRemove k ∧ k.queue = q ∧
        ((s.exec t (s.pc t)).pc t).hand = some (k, u) := by
  cases queueEffect_exec (s := s) (t := t) rfl with
  | keep hqueue _ => exact .inl (by rwa [hqueue])
  | push w _ _ hqueue =>
    rw [hqueue, Function.update_apply]
    split_ifs with hq
    · exact .inl (List.mem_cons_of_mem _ (hq ▸ hmem))
    · exact .inl hmem
  | pop k th rest hstmt hhead hpc hqueue =>
    by_cases hq : q = k.queue
    · subst hq
      rw [hhead] at hmem
      rcases List.mem_cons.mp hmem with rfl | hrest
      · exact .inr ⟨k, hstmt, rfl, by rw [hpc]; rfl⟩
      · exact .inl (by rwa [hqueue, Function.update_self])
    · exact .inl (by rwa [hqueue, Function.update_of_ne hq])

/-- A thread stays in hand until it is marked READY. -/
theorem hand_of_exec {k : Waker} (hhand : (s.pc u).hand = some (k, t))
    (hb : (s.exec u (s.pc u)).state t = .blocked) :
    ((s.exec u (s.pc u)).pc u).hand = some (k, t) := by
  generalize hstmt : s.pc u = stmt at hhand hb
  cases stmt with
  | wakeRelease k' woken =>
    cases woken with
    | none => simp [Pc.hand] at hhand
    | some th => simpa [exec, spinlockRelease, Pc.hand] using hhand
  | wakeReady k' th =>
    obtain ⟨-, rfl⟩ : k' = k ∧ th = t := by simpa [Pc.hand] using hhand
    simp [exec, goto, setState] at hb
  | _ => simp [Pc.hand] at hhand

theorem ParkedInv.exec (h : ParkedInv s) (hblock : BlockingInv s) (hlocks : LocksAgree s) :
    ParkedInv (s.exec s.current (s.pc s.current)) := by
  have hother : ∀ u, u ≠ s.current → (s.exec s.current (s.pc s.current)).pc u = s.pc u :=
    fun u hu => exec_pc_of_ne hu _
  refine ⟨fun t w ht => ?_, fun t hb => ?_⟩
  · by_cases htc : t = s.current
    · subst htc
      rw [addBlock_exec rfl ht]
      simp [Machine.exec, goto, setQueue]
    · -- who is about to be marked holds the lock of its queue
      rw [hother t htc] at ht
      refine (mem_queue_exec (h.marking t w ht)).resolve_right ?_
      rintro ⟨k, hremove, hq, -⟩
      refine htc (hlocks.holds_unique (l := .queue w.queue) ?_ ?_)
      · simp [ht, Pc.holds]
      · simp [hremove, Pc.holds, hq]
  · by_cases htc : t = s.current
    · subst htc
      generalize hstmt : s.pc s.current = stmt at hb hother ⊢
      by_cases hblocked : s.state s.current = .blocked
      · -- on its way to `schedule()`
        obtain ⟨w, hw⟩ := hblock.current hblocked
        obtain ⟨w', hw', hplace⟩ := h.parked _ hblocked
        have hq : w'.queue = w.queue := hw'.queue_eq (.inl hw)
        rw [hstmt] at hw
        obtain ⟨hqueue, -, hafter, -, -⟩ := exec_window (s := s) (t := s.current) hw
        refine ⟨w, hafter, ?_⟩
        rw [hqueue, ← hq]
        refine hplace.imp_right ?_
        rintro ⟨u, k, hhand, hk⟩
        refine ⟨u, k, ?_, hk⟩
        have hu : u ≠ s.current := by
          rintro rfl
          rw [hstmt] at hhand
          cases stmt <;> simp [Pc.InWindow, Pc.hand] at hw hhand
        rwa [hother u hu]
      · -- it marks itself
        cases stateEffect_exec hstmt with
        | keep hstate _ _ => exact absurd (hstate ▸ hb) hblocked
        | ready k th hready _ hstate =>
          rw [hstate, Function.update_apply] at hb
          split_ifs at hb
          exact absurd hb hblocked
        | block w hmark hpc _ =>
          subst hmark
          exact ⟨w, .inl (by rw [hpc]; rfl), .inl (h.marking _ w hstmt)⟩
    · have hblocked : s.state t = .blocked := by
        cases stateEffect_exec (s := s) (t := s.current) rfl with
        | keep hstate _ _ => rwa [hstate] at hb
        | block w _ _ hstate => rwa [hstate, Function.update_of_ne htc] at hb
        | ready k th _ _ hstate =>
          rw [hstate, Function.update_apply] at hb
          split_ifs at hb
          exact hb
      obtain ⟨w, hw, hplace⟩ := h.parked t hblocked
      rw [hother t htc]
      refine ⟨w, hw, ?_⟩
      rcases hplace with hmem | ⟨u, k, hhand, hk⟩
      · refine (mem_queue_exec hmem).imp_right ?_
        rintro ⟨k, -, hk, hhand⟩
        exact ⟨s.current, k, hhand, hk⟩
      · by_cases hu : u = s.current
        · subst hu
          exact .inr ⟨s.current, k, hand_of_exec hhand hb, hk⟩
        · exact .inr ⟨u, k, by rwa [hother u hu], hk⟩

omit [DecidableEq Tid] in
/-- Only the queues, the BLOCKED threads and the program counters matter. -/
theorem ParkedInv.congr (h : ParkedInv s) (hqueue : s'.queue = s.queue)
    (hstate : ∀ u, s'.state u = .blocked ↔ s.state u = .blocked) (hpc : s'.pc = s.pc) :
    ParkedInv s' := by
  refine ⟨fun t w ht => ?_, fun t hb => ?_⟩
  · rw [hqueue]
    exact h.marking t w (hpc ▸ ht)
  · rw [hqueue, hpc]
    exact h.parked t ((hstate t).mp hb)

theorem ParkedInv.begin (h : ParkedInv s) (c : Call) (hidle : s.pc t = .idle)
    (hrun : s.state t ≠ .blocked) : ParkedInv (s.begin t c) := by
  have hother : ∀ u, u ≠ t → (s.begin t c).pc u = s.pc u := by
    intro u hu
    simp [Machine.begin, Function.update_of_ne hu]
  refine ⟨fun u w hu => ?_, fun u hb => ?_⟩
  · by_cases hut : u = t
    · subst hut
      cases c <;> simp [Machine.begin, Call.entry] at hu
    · exact h.marking u w (hother u hut ▸ hu)
  · have hut : u ≠ t := fun hut => hrun (hut ▸ hb)
    obtain ⟨w, hw, hplace⟩ := h.parked u hb
    refine ⟨w, (hother u hut).symm ▸ hw, hplace.imp_right ?_⟩
    rintro ⟨v, k, hhand, hk⟩
    have hvt : v ≠ t := by
      rintro rfl
      simp [hidle, Pc.hand] at hhand
    exact ⟨v, k, (hother v hvt).symm ▸ hhand, hk⟩

theorem ParkedInv.step (h : ParkedInv s) (hblock : BlockingInv s) (hlocks : LocksAgree s)
    (hstep : Step s e s') : ParkedInv s' := by
  cases hstep with
  | call c hidle =>
    exact h.begin c hidle (hblock.not_blocked (by simp [hidle, Pc.InWindow]))
  | run _ => exact h.exec hblock hlocks
  | yield _ hsched => exact (h.exec hblock hlocks).congr hsched.queue hsched.blocked_iff hsched.pc
  | tick hsched => exact h.congr hsched.queue hsched.blocked_iff hsched.pc

theorem parkedInv {C : Machine Tid → Event → Prop} (h : (system Tid).ReachableUnder C s) :
    ParkedInv s := by
  refine h.invariant₂ (J := fun s => BlockingInv s ∧ LocksAgree s)
    (fun _ hs => ⟨blockingInv hs, lock_eq_some_iff_holds hs⟩) (fun s hs => ?_)
    fun _ _ _ hJ hI _ hstep => hI.step hJ.1 hJ.2 hstep
  refine ⟨fun t w ht => ?_, fun t hb => ?_⟩
  · rw [hs.pc] at ht
    cases ht
  · by_cases htc : t = s.current
    · simp [htc, hs.running] at hb
    · rcases hs.others t htc with hstate | hstate <;> simp [hstate] at hb

/-! ### Sides that have been sent away -/

/-- A call that sends the side away has woken all of it. -/
def SentAway (side : Side) (p : ℕ) (s : Machine Tid) : Prop :=
  (∃ t, (s.pc t).emptied = some (side.closer p) ∨ (s.pc t).ret = some (side.closeRet p)) ∨
    ∃ t n, (t, side.closeRet p, n) ∈ s.returned

/-- Behind the mark nobody comes to wait. Once a call has woken the side, its queue is
empty, and nobody but `pipe_destroy` has a thread of it in hand. -/
structure ClosedInv (side : Side) (p : ℕ) (s : Machine Tid) : Prop where
  marked : (∃ t, (s.pc t).wakes = some (side.closer p)) ∨ SentAway side p s →
    side.closed (s.pipe p) = true
  quiet : side.closed (s.pipe p) = true → ∀ t w, (s.pc t).enqueuing = some w →
    w.queue ≠ side.queue p
  empty : SentAway side p s → s.queue (side.queue p) = []
  hand : SentAway side p s → ∀ t k th, (s.pc t).hand = some (k, th) →
    k.queue = side.queue p → k = side.destroyer p

/-- The side is woken when its wake-up call finds the queue empty. -/
theorem sentAway_exec (h : SentAway side p (s.exec t (s.pc t))) :
    SentAway side p s ∨
      s.pc t = .wakeRemove (side.closer p) ∧ s.queue (side.queue p) = [] := by
  rcases h with ⟨u, hu⟩ | ⟨u, n, hmem⟩
  · by_cases hut : u = t
    · subst hut
      rcases hu with hu | hu
      · have hremove := emptied_exec rfl hu
        rw [Side.queue_closer] at hremove
        exact .inr hremove
      · rcases ret_exec rfl hu with hret | hemptied
        · exact .inl (.inl ⟨u, .inr hret⟩)
        · exact .inl (.inl ⟨u, .inl hemptied⟩)
    · rw [exec_pc_of_ne hut] at hu
      exact .inl (.inl ⟨u, hu⟩)
  · rcases returned_exec s t (s.pc t) with hsame | ⟨r, hreturns, hnew⟩
    · exact .inl (.inr ⟨u, n, hsame ▸ hmem⟩)
    · rw [hnew] at hmem
      rcases List.mem_cons.mp hmem with hlast | hold
      · obtain ⟨-, rfl, -⟩ := Prod.mk.injEq .. ▸ hlast
        exact .inl (.inl ⟨t, .inr (by rw [hreturns]; rfl)⟩)
      · exact .inl (.inr ⟨u, n, hold⟩)

theorem ClosedInv.exec (h : ClosedInv side p s) (hlocks : LocksAgree s) (t : Tid) :
    ClosedInv side p (s.exec t (s.pc t)) := by
  have hother : ∀ u, u ≠ t → (s.exec t (s.pc t)).pc u = s.pc u :=
    fun u hu => exec_pc_of_ne hu _
  have hstays : side.closed (s.pipe p) = true →
      side.closed ((s.exec t (s.pc t)).pipe p) = true := fun hclosed =>
    closed_exec.mpr (.inl hclosed)
  have hdone : ∀ {C : Prop}, SentAway side p (s.exec t (s.pc t)) → (SentAway side p s → C) →
      (s.pc t = .wakeRemove (side.closer p) → s.queue (side.queue p) = [] → C) → C :=
    fun hsent hold hnew => (sentAway_exec hsent).elim hold fun hremove =>
      hnew hremove.1 hremove.2
  refine ⟨fun hwaking => ?_, fun hclosed u w hu hq => ?_, fun hsent => ?_,
    fun hsent u k th hu hq => ?_⟩
  · rcases hwaking with ⟨u, hu⟩ | hsent
    · by_cases hut : u = t
      · subst hut
        rcases wakes_exec rfl hu with hwakes | hmark
        · exact hstays (h.marked (.inl ⟨u, hwakes⟩))
        · exact closed_exec.mpr (.inr hmark)
      · exact hstays (h.marked (.inl ⟨u, hother u hut ▸ hu⟩))
    · refine hdone hsent (fun hold => hstays (h.marked (.inr hold))) fun hremove _ => ?_
      exact hstays (h.marked (.inl ⟨t, by rw [hremove]; rfl⟩))
  · -- nobody comes to wait behind the mark, and nobody is on the way when it is made
    rcases closed_exec.mp hclosed with hold | hmark
    · by_cases hut : u = t
      · subst hut
        rcases enqueuing_exec rfl hu with henq | ⟨-, hwait⟩
        · exact h.quiet hold u w henq hq
        · cases side <;> cases w <;>
            simp_all [Waiter.queue, Side.queue, MustWait, Side.closed]
      · exact h.quiet hold u w (hother u hut ▸ hu) hq
    · by_cases hut : u = t
      · subst hut
        rcases enqueuing_exec rfl hu with henq | ⟨htest, -⟩
        · rw [hmark] at henq
          cases side <;> simp [Side.mark, Pc.enqueuing] at henq
        · rw [hmark] at htest
          cases side <;> cases w <;> simp [Side.mark, Waiter.test] at htest
      · rw [hother u hut] at hu
        have hheld := Pc.holds_of_enqueuing hu
        rw [Waiter.outer_of_queue hq] at hheld
        exact hut (hlocks.holds_unique hheld (hmark ▸ Side.holds_mark))
  · have hempty : s.queue (side.queue p) = [] := hdone hsent h.empty fun _ hnil => hnil
    have hclosed : side.closed (s.pipe p) = true := by
      refine hdone hsent (fun hold => h.marked (.inr hold)) fun hremove _ => ?_
      exact h.marked (.inl ⟨t, by rw [hremove]; rfl⟩)
    cases queueEffect_exec (s := s) (t := t) rfl with
    | keep hqueue _ => rwa [hqueue]
    | push w hpush _ hqueue =>
      have hne := h.quiet hclosed t w (by rw [hpush]; rfl)
      rwa [hqueue, Function.update_of_ne hne.symm]
    | pop k th rest _ hhead _ hqueue =>
      have hne : side.queue p ≠ k.queue := by
        intro hq
        rw [← hq, hempty] at hhead
        cases hhead
      rwa [hqueue, Function.update_of_ne hne]
  · by_cases hut : u = t
    · subst hut
      have hempty : s.queue (side.queue p) = [] := hdone hsent h.empty fun _ hnil => hnil
      rcases hand_exec rfl hu with hhand | ⟨-, rest, hhead⟩
      · refine hdone hsent (fun hold => h.hand hold u k th hhand hq) fun hremove _ => ?_
        rw [hremove] at hhand
        cases hhand
      · rw [hq, hempty] at hhead
        cases hhead
    · rw [hother u hut] at hu
      refine hdone hsent (fun hold => h.hand hold u k th hu hq) fun hremove _ => ?_
      -- the others that wake the side hold the lock
      by_contra hk
      refine hut (hlocks.holds_unique (l := .pipe p) ?_ ?_)
      · exact Pc.holds_of_hand hu (Waker.outer_of_queue hq hk)
      · rw [hremove]
        simp [Pc.holds]

theorem ClosedInv.begin (h : ClosedInv side p s) (c : Call) (hidle : s.pc t = .idle) :
    ClosedInv side p (s.begin t c) := by
  have hother : ∀ u, u ≠ t → (s.begin t c).pc u = s.pc u := by
    intro u hu
    simp [Machine.begin, Function.update_of_ne hu]
  have hsent : SentAway side p (s.begin t c) → SentAway side p s := by
    refine Or.imp_left ?_
    rintro ⟨u, hu⟩
    refine ⟨u, ?_⟩
    by_cases hut : u = t
    · subst hut
      cases c <;> simp [Machine.begin, Call.entry, Pc.emptied, Pc.ret] at hu
    · rwa [hother u hut] at hu
  have hwakes : (∃ u, ((s.begin t c).pc u).wakes = some (side.closer p)) →
      ∃ u, (s.pc u).wakes = some (side.closer p) := by
    rintro ⟨u, hu⟩
    refine ⟨u, ?_⟩
    by_cases hut : u = t
    · subst hut
      cases c <;> cases side <;>
        simp [Machine.begin, Call.entry, Pc.wakes, Side.closer] at hu
    · rwa [hother u hut] at hu
  refine ⟨fun hwaking => h.marked (hwaking.imp hwakes hsent), fun hclosed u w hu => ?_,
    fun hs => h.empty (hsent hs), fun hs u k th hu => ?_⟩
  · by_cases hut : u = t
    · subst hut
      cases c <;> simp [Machine.begin, Call.entry, Pc.enqueuing] at hu
    · exact h.quiet hclosed u w (hother u hut ▸ hu)
  · by_cases hut : u = t
    · subst hut
      cases c <;> simp [Machine.begin, Call.entry, Pc.hand] at hu
    · exact h.hand (hsent hs) u k th (hother u hut ▸ hu)

theorem ClosedInv.schedules (h : ClosedInv side p s) (hs : Schedules s s') :
    ClosedInv side p s' := by
  rw [hs.eq]
  exact ⟨h.marked, h.quiet, h.empty, h.hand⟩

theorem ClosedInv.step (h : ClosedInv side p s) (hlocks : LocksAgree s)
    (hstep : Step s e s') : ClosedInv side p s' := by
  cases hstep with
  | call c hidle => exact h.begin c hidle
  | run _ => exact h.exec hlocks _
  | yield _ hsched => exact (h.exec hlocks _).schedules hsched
  | tick hsched => exact h.schedules hsched

theorem closedInv {C : Machine Tid → Event → Prop} (h : (system Tid).ReachableUnder C s)
    (side : Side) (p : ℕ) : ClosedInv side p s := by
  refine h.invariant₂ (fun _ hs => lock_eq_some_iff_holds hs) (fun s hs => ?_)
    fun _ _ _ hlocks hI _ hstep => hI.step hlocks hstep
  have hsent : ¬ SentAway side p s := by
    rintro (⟨t, ht⟩ | ⟨t, n, hmem⟩)
    · simp [hs.pc, Pc.emptied, Pc.ret] at ht
    · simp [hs.returned] at hmem
  refine ⟨fun hwaking => ?_, fun _ t w ht => ?_, fun h => absurd h hsent,
    fun h => absurd h hsent⟩
  · obtain ⟨t, ht⟩ := hwaking.resolve_right hsent
    simp [hs.pc, Pc.wakes] at ht
  · simp [hs.pc, Pc.enqueuing] at ht

/-- After the call that sends a side away, a thread of it that is BLOCKED is about to be
marked READY by `pipe_destroy`. -/
theorem ready_of_returned {C : Machine Tid → Event → Prop}
    (h : (system Tid).ReachableUnder C s) {n : ℕ}
    (hreturned : (u, side.closeRet p, n) ∈ s.returned) {w : Waiter}
    (hq : w.queue = side.queue p) (hwaits : (s.pc t).WaitsAt w) (hb : s.state t = .blocked) :
    ∃ v, (s.pc v).hand = some (side.destroyer p, t) := by
  have hclosed := closedInv h side p
  have hsent : SentAway side p s := .inr ⟨u, n, hreturned⟩
  obtain ⟨w', hw', hplace⟩ := (parkedInv h).parked t hb
  rw [hw'.queue_eq hwaits, hq] at hplace
  rcases hplace with hmem | ⟨v, k, hhand, hk⟩
  · rw [hclosed.empty hsent] at hmem
    cases hmem
  · exact ⟨v, hclosed.hand hsent v k t hhand hk ▸ hhand⟩

end Machine

end KyroOS.Sync

import KyroOS.Sync.Mutex
import KyroOS.Sync.PipeClose

/-!
# Progress on a pipe

`pipe_write` wakes a reader only when it has stored its last byte, and then it wakes
one. A writer that blocks on a full pipe wakes nobody, so a reader that was waiting
when a long write began sleeps on although there is data, and the writer waits for
that reader. As long as no writer blocks while a reader waits, and at most one reader
waits when a writer leaves data behind, this cannot happen.

## Main definitions

* `Machine.Stalled` — a reader waits, there is data, and every writer is BLOCKED
* `Machine.WritesFit` — the condition on the writers

## Main results

* `Machine.not_stalled_of_writesFit` — under the condition no reachable state is
  stalled
* `Machine.exists_runsTo_stalled` — a write longer than the free space, made while a
  reader waits and nobody else writes, stalls the pipe
-/

namespace KyroOS.Sync

open Transition

variable {Tid : Type*}

/-- Inside a call of `pipe_write` on `p`. -/
def Pc.inPipeWrite (p : ℕ) : Pc Tid → Bool
  | .writeAcquire p' _ | .writeEntry p' _ | .writeLoop p' _ _ | .writeReacquire p' _ _ => p' = p
  | .addAcquire (.pipeWrite p' _ _) | .addPush (.pipeWrite p' _ _)
  | .addBlock (.pipeWrite p' _ _) | .addRelease (.pipeWrite p' _ _)
  | .waitRelease (.pipeWrite p' _ _) | .waitSchedule (.pipeWrite p' _ _) => p' = p
  | .wakeAcquire (.pipeWrite p' _) | .wakeRemove (.pipeWrite p' _)
  | .wakeRelease (.pipeWrite p' _) _ | .wakeReady (.pipeWrite p' _) _ => p' = p
  | .release _ (.write p' _) | .returns (.write p' _) => p' = p
  | _ => false

/-- On the way to closing an end of `p`. -/
def Pc.Closing (p : ℕ) : Pc Tid → Prop
  | .closeReadAcquire p' | .closeReadMark p' => p' = p
  | _ => False

/-- A writer that will wake a reader of `p` before it blocks: it is in the loop of
`pipe_write`, or in the wake-up call after it with at most `waiting` readers to wake. -/
inductive Pc.WillWake (p waiting : ℕ) : Pc Tid → Prop
  | loop (src : List Byte) (written : ℕ) : WillWake p waiting (.writeLoop p src written)
  | acquire (written : ℕ) (h : waiting ≤ 1) :
      WillWake p waiting (.wakeAcquire (.pipeWrite p written))
  | remove (written : ℕ) (h : waiting ≤ 1) :
      WillWake p waiting (.wakeRemove (.pipeWrite p written))

theorem Pc.WillWake.inPipeWrite {pc : Pc Tid} {p n : ℕ} (h : pc.WillWake p n) :
    pc.inPipeWrite p = true := by
  cases h <;> simp [Pc.inPipeWrite]

theorem Pc.WillWake.mono {pc : Pc Tid} {p n n' : ℕ} (h : pc.WillWake p n) (hn : n' ≤ n) :
    pc.WillWake p n' := by
  cases h with
  | loop src written => exact .loop src written
  | acquire written h => exact .acquire written (hn.trans h)
  | remove written h => exact .remove written (hn.trans h)

theorem Waiter.eq_pipeRead {w : Waiter} {p : ℕ} (h : w.queue = .pipeRead p) :
    ∃ count, w = .pipeRead p count := by
  cases w <;> simp_all [Waiter.queue]

namespace Machine

variable [DecidableEq Tid] {s s' : Machine Tid} {t u : Tid} {p : ℕ} {e : Event}
  {stmt : Pc Tid}

/-- A reader is BLOCKED in the read queue although there is data, and every writer
inside `pipe_write` is BLOCKED in the write queue. -/
def Stalled (p : ℕ) (s : Machine Tid) : Prop :=
  (∃ r ∈ s.queue (.pipeRead p), s.state r = .blocked) ∧ 0 < (s.pipe p).dataSize ∧
    ∀ t, (s.pc t).inPipeWrite p = true → t ∈ s.queue (.pipeWrite p) ∧ s.state t = .blocked

/-- Both ends of the pipe stay open. -/
def StaysOpen (p : ℕ) (_ : Machine Tid) (e : Event) : Prop :=
  e ≠ .call (.closeRead p) ∧ e ≠ .call (.closeWrite p) ∧ e ≠ .call (.destroy p)

/-- The writer about to take a turn of the loop of `pipe_write` on `p` finds no reader
waiting if it has to block, and at most one if it is done and there is data. -/
def writeFits (p : ℕ) (s : Machine Tid) : Pc Tid → Bool
  | .writeLoop p' src written => p' = p →
    if (written : ℤ) < longCount src then
      pipeBufSize ≤ (s.pipe p).dataSize → s.queue (.pipeRead p) = []
    else 0 < (s.pipe p).dataSize → (s.queue (.pipeRead p)).length ≤ 1
  | _ => true

/-- The condition on every turn of a writer. -/
def WritesFit (p : ℕ) (s : Machine Tid) (e : Event) : Prop :=
  e = .run → s.writeFits p (s.pc s.current) = true

instance (p : ℕ) (s : Machine Tid) (e : Event) : Decidable (WritesFit p s e) :=
  inferInstanceAs (Decidable (_ → _))

instance (p : ℕ) (s : Machine Tid) (e : Event) : Decidable (StaysOpen p s e) :=
  inferInstanceAs (Decidable (_ ∧ _ ∧ _))

/-- When there is data, no reader waits, or a writer will wake the readers. -/
structure ProgressInv (p : ℕ) (s : Machine Tid) : Prop where
  waiting : 0 < (s.pipe p).dataSize → s.queue (.pipeRead p) = [] ∨
    ∃ t, (s.pc t).WillWake p (s.queue (.pipeRead p)).length
  adding : ∀ t count, (s.pc t).adding = some (.pipeRead p count) → (s.pipe p).dataSize = 0
  isOpen : (s.pipe p).readClosed = false
  notClosing : ∀ t, ¬ (s.pc t).Closing p

/-- The read queue does not grow while there is data. -/
theorem ProgressInv.queue_exec (h : ProgressInv p s) (hdata : 0 < (s.pipe p).dataSize) :
    (s.exec t (s.pc t)).queue (.pipeRead p) = s.queue (.pipeRead p) ∨
      ∃ k, s.pc t = .wakeRemove k ∧
        (s.exec t (s.pc t)).queue (.pipeRead p) = (s.queue (.pipeRead p)).tail := by
  cases queueEffect_exec (s := s) (t := t) rfl with
  | keep hqueue _ => exact .inl (by rw [hqueue])
  | push w hpush _ hqueue =>
    have hne : .pipeRead p ≠ w.queue := by
      intro hq
      obtain ⟨count, rfl⟩ := Waiter.eq_pipeRead hq.symm
      have hempty := h.adding t count (by rw [hpush]; rfl)
      omega
    exact .inl (by rw [hqueue, Function.update_of_ne hne])
  | pop k th rest hpop hhead _ hqueue =>
    by_cases hq : .pipeRead p = k.queue
    · exact .inr ⟨k, hpop, by rw [hqueue, ← hq, Function.update_self, hq, hhead, List.tail_cons]⟩
    · exact .inl (by rw [hqueue, Function.update_of_ne hq])

/-- Only a turn of the loop of `pipe_write` adds data. -/
theorem dataSize_exec (stmt : Pc Tid)
    (h : (s.pipe p).dataSize < ((s.exec t stmt).pipe p).dataSize) :
    ∃ src written, stmt = .writeLoop p src written ∧
      (s.exec t stmt).pc t = .writeLoop p src (written + 1) := by
  cases pipeEffect_exec s t stmt with
  | keep hpipe _ _ => simp [hpipe] at h
  | take p' count dest _ _ hs' =>
    rw [hs'] at h
    by_cases hp : p = p'
    · subst hp
      simp only [goto, takeByte, Function.update_self] at h
      omega
    · simp [goto, takeByte, Function.update_of_ne hp] at h
  | store p' src written hstmt _ hs' =>
    by_cases hp : p = p'
    · subst hp
      exact ⟨src, written, hstmt, by rw [hs']; simp [goto]⟩
    · simp [hs', goto, storeByte, Function.update_of_ne hp] at h
  | mark p' _ pipe hpipe hring _ _ =>
    by_cases hp : p = p'
    · subst hp
      simp [hpipe, hring.2.2.2] at h
    · simp [hpipe, Function.update_of_ne hp] at h

/-- Only `pipe_close_read` closes the read end. -/
theorem readClosed_exec (h : stmt ≠ .closeReadMark p) :
    ((s.exec t stmt).pipe p).readClosed = (s.pipe p).readClosed := by
  have hclosed : Side.writers.closed ((s.exec t stmt).pipe p) = true ↔
      Side.writers.closed (s.pipe p) = true ∨ stmt = Side.mark p .writers := closed_exec
  rw [or_iff_left (show stmt ≠ Side.mark p .writers from h)] at hclosed
  exact Bool.eq_iff_iff.mpr hclosed

theorem closing_exec (hpc : s.pc t = stmt) (h : ((s.exec t stmt).pc t).Closing p) :
    stmt.Closing p := by
  cases stmt with
  | closeReadAcquire p' =>
    simp only [exec, spinlockAcquire] at h
    split_ifs at h <;> simpa [Pc.Closing, hpc] using h
  | wakeRelease k woken =>
    cases woken with
    | none => cases k <;> simp [exec, spinlockRelease, Pc.Closing, Waker.after] at h
    | some th => simp [exec, spinlockRelease, Pc.Closing] at h
  | waitSchedule w => cases w <;> simp [exec, goto, Pc.Closing, Waiter.resume] at h
  | wakeReady k th =>
    cases hall : k.all <;> cases k <;> simp_all [exec, goto, Pc.Closing, Waker.after]
  | _ =>
    simp only [exec, spinlockAcquire] at h
    (repeat' split at h) <;>
      simp [goto, setMutex, setPipe, setQueue, takeByte, spinlockRelease, finish,
        Pc.Closing, hpc] at h

/-- The writer that will wake a reader goes on to do so, or wakes the last one. -/
theorem ProgressInv.exec_writer (h : ProgressInv p s) (hdata : 0 < (s.pipe p).dataSize)
    (hwake : (s.pc t).WillWake p (s.queue (.pipeRead p)).length)
    (hfit : s.writeFits p (s.pc t) = true) :
    (s.exec t (s.pc t)).queue (.pipeRead p) = [] ∨
      ((s.exec t (s.pc t)).pc t).WillWake p ((s.exec t (s.pc t)).queue (.pipeRead p)).length := by
  generalize hstmt : s.pc t = stmt at hwake hfit
  cases hwake with
  | loop src written =>
    simp only [writeFits, forall_const, decide_eq_true_eq] at hfit
    simp only [Machine.exec]
    split_ifs at hfit ⊢ with hmore hfull hclosed
    · exact .inl (hfit hfull.1)
    · simp [h.isOpen] at hclosed
    · simp [h.isOpen] at hclosed
    · exact .inr (by simpa [goto] using .loop src (written + 1))
    · exact .inr (by simpa [goto] using .acquire written (hfit hdata))
  | acquire written hone =>
    simp only [Machine.exec, spinlockAcquire]
    split_ifs
    · exact .inr (by simpa using .remove written hone)
    · exact .inr (by simpa [hstmt] using .acquire written hone)
  | remove written hone =>
    left
    cases hq : s.queue (.pipeRead p) with
    | nil => simp [Machine.exec, goto, Waker.queue, hq]
    | cons th rest =>
      obtain rfl : rest = [] := by simpa [hq] using hone
      simp [Machine.exec, goto, setQueue, Waker.queue, hq]

theorem ProgressInv.exec (h : ProgressInv p s) (hlocks : LocksAgree s)
    (hfit : s.writeFits p (s.pc t) = true) :
    ProgressInv p (s.exec t (s.pc t)) := by
  have hother : ∀ u, u ≠ t → (s.exec t (s.pc t)).pc u = s.pc u :=
    fun u hu => exec_pc_of_ne hu _
  refine ⟨fun hdata' => ?_, fun u count hu => ?_, ?_, fun u hu => ?_⟩
  · by_cases hdata : 0 < (s.pipe p).dataSize
    · rcases h.waiting hdata with hnil | ⟨u, hu⟩
      · rcases h.queue_exec (t := t) hdata with hqueue | ⟨k, -, hqueue⟩ <;>
          exact .inl (by simp [hqueue, hnil])
      · by_cases hut : u = t
        · subst hut
          exact (h.exec_writer hdata hu hfit).imp_right fun hwake => ⟨u, hwake⟩
        · refine .inr ⟨u, (hother u hut).symm ▸ hu.mono ?_⟩
          rcases h.queue_exec (t := t) hdata with hqueue | ⟨k, -, hqueue⟩ <;> simp [hqueue]
    · obtain ⟨src, written, -, hpc⟩ := dataSize_exec (s.pc t)
        (lt_of_le_of_lt (Nat.le_of_not_lt hdata) hdata')
      exact .inr ⟨t, hpc ▸ .loop src (written + 1)⟩
  · -- a thread on its way to the read queue found the ring empty, and holds the lock
    have hempty : (s.pipe p).dataSize = 0 := by
      by_cases hut : u = t
      · subst hut
        rcases adding_exec rfl hu with hadd | ⟨-, hwait⟩
        · exact h.adding u count hadd
        · exact hwait.1
      · exact h.adding u count (hother u hut ▸ hu)
    by_contra hne
    obtain ⟨src, written, hstmt, hpc⟩ := dataSize_exec (s.pc t)
      (hempty.trans_lt (Nat.pos_of_ne_zero hne))
    by_cases hut : u = t
    · simp [hut, hpc, Pc.adding] at hu
    · rw [hother u hut] at hu
      have hheld : (s.pc u).holds (.pipe p) = true := by
        cases hpcu : s.pc u <;> simp [hpcu, Pc.adding] at hu <;>
          simp [Pc.holds, hu, Waiter.outer]
      exact hut (hlocks.holds_unique hheld (by simp [hstmt, Pc.holds]))
  · rw [readClosed_exec]
    · exact h.isOpen
    · intro hstmt
      exact h.notClosing t (by simp [hstmt, Pc.Closing])
  · by_cases hut : u = t
    · subst hut
      exact h.notClosing u (closing_exec rfl hu)
    · exact h.notClosing u (hother u hut ▸ hu)

theorem ProgressInv.schedules (h : ProgressInv p s) (hs : Schedules s s') :
    ProgressInv p s' := by
  refine ⟨?_, ?_, ?_, ?_⟩
  · rw [hs.pipe, hs.queue, hs.pc]
    exact h.waiting
  · rw [hs.pipe, hs.pc]
    exact h.adding
  · rw [hs.pipe]
    exact h.isOpen
  · rw [hs.pc]
    exact h.notClosing

theorem ProgressInv.begin (h : ProgressInv p s) (c : Call) (hidle : s.pc t = .idle)
    (hopen : c ≠ .closeRead p) : ProgressInv p (s.begin t c) := by
  have hother : ∀ u, u ≠ t → (s.begin t c).pc u = s.pc u := by
    intro u hu
    simp [Machine.begin, Function.update_of_ne hu]
  refine ⟨fun hdata => ?_, fun u count hu => ?_, h.isOpen, fun u hu => ?_⟩
  · rcases h.waiting hdata with hnil | ⟨u, hu⟩
    · exact .inl hnil
    · have hut : u ≠ t := by
        rintro rfl
        rw [hidle] at hu
        cases hu
      exact .inr ⟨u, (hother u hut).symm ▸ hu⟩
  · by_cases hut : u = t
    · subst hut
      cases c <;> simp [Machine.begin, Call.entry, Pc.adding] at hu
    · exact h.adding u count (hother u hut ▸ hu)
  · by_cases hut : u = t
    · subst hut
      cases c <;> simp [Machine.begin, Call.entry, Pc.Closing] at hu
      exact hopen (by rw [hu])
    · exact h.notClosing u (hother u hut ▸ hu)

theorem ProgressInv.step (h : ProgressInv p s) (hlocks : LocksAgree s)
    (hstep : Step s e s') (hopen : StaysOpen p s e) (hfit : WritesFit p s e) :
    ProgressInv p s' := by
  cases hstep with
  | call c hidle => exact h.begin c hidle fun hc => hopen.1 (by rw [hc])
  | run _ => exact h.exec hlocks (hfit rfl)
  | yield _ hsched => exact (h.exec hlocks (hfit rfl)).schedules hsched
  | tick hsched => exact h.schedules hsched

omit [DecidableEq Tid] in
/-- A writer that will wake a reader is inside `pipe_write` and on no queue. -/
theorem ProgressInv.not_stalled (h : ProgressInv p s) (hblock : BlockingInv s) :
    ¬ Stalled p s := by
  rintro ⟨⟨r, hr, -⟩, hdata, hout⟩
  obtain ⟨t, ht⟩ := (h.waiting hdata).resolve_left (List.ne_nil_of_mem hr)
  obtain ⟨w, -, hw⟩ := hblock.queued _ t (hout t ht.inPipeWrite).1
  generalize s.pc t = pc at ht hw
  cases ht <;> cases w <;> simp [Pc.WaitsAt, Pc.InWindow, Waiter.resume] at hw

/-- In every run in which the pipe stays open and the writes fit, no reachable state is
stalled. -/
theorem not_stalled_of_writesFit
    (h : (system Tid).ReachableUnder (fun s e => StaysOpen p s e ∧ WritesFit p s e) s) :
    ¬ Stalled p s := by
  refine ProgressInv.not_stalled ?_ (blockingInv h)
  refine h.invariant₂ (fun _ hs => lock_eq_some_iff_holds hs) (fun s hs => ?_)
    fun s e s' hlocks hI hC hstep => hI.step hlocks hstep hC.1 hC.2
  obtain ⟨buffer, hpipe⟩ := hs.pipe p
  refine ⟨fun _ => .inl (hs.queue _), fun t count ht => ?_, ?_, fun t ht => ?_⟩
  · simp [hs.pc, Pc.adding] at ht
  · simp [hpipe]
  · simp [hs.pc, Pc.Closing] at ht

/-! ### A long write -/

/-- A statement of the current thread closes no end of the pipe. -/
theorem allowed_run (stmt : Pc Tid) (hpc : s.pc s.current = stmt) (hcall : callsSchedule stmt = false)
    (hexec : s.exec s.current stmt = s') : (system Tid).Allowed (StaysOpen p) s s' := by
  subst hpc hexec
  exact ⟨.run, by simp [StaysOpen], .run hcall⟩

/-- The writer fills the ring byte by byte while everything else stands still. -/
theorem exists_runsTo_filled (k : ℕ) :
    ∀ (s : Machine Tid) (src : List Byte) (written : ℕ),
      s.pc s.current = .writeLoop p src written → (s.pipe p).readClosed = false →
      (s.pipe p).dataSize + k ≤ pipeBufSize → ((written + k : ℕ) : ℤ) ≤ longCount src →
      ∃ s', (system Tid).RunsTo (StaysOpen p) s s' ∧ s'.current = s.current ∧
        s'.pc = Function.update s.pc s.current (.writeLoop p src (written + k)) ∧
        s'.queue = s.queue ∧ s'.state = s.state ∧ s'.lock = s.lock ∧
        (s'.pipe p).dataSize = (s.pipe p).dataSize + k ∧ (s'.pipe p).readClosed = false := by
  induction k with
  | zero =>
    intro s src written hpc hclosed _ _
    exact ⟨s, .refl, rfl, by simp [← hpc], rfl, rfl, rfl, rfl, hclosed⟩
  | succ k ih =>
    intro s src written hpc hclosed hspace hlen
    have hstore : s.exec s.current (.writeLoop p src written) =
        (s.storeByte s.current p (src.getD written 0)).goto s.current
          (.writeLoop p src (written + 1)) := by
      have hmore : (written : ℤ) < longCount src := by omega
      have hnotfull : ¬ pipeBufSize ≤ (s.pipe p).dataSize := by omega
      simp [exec, hmore, hnotfull, hclosed]
    have hstep := allowed_run (p := p) _ hpc rfl hstore
    obtain ⟨s', hrun, hcur, hpc', hqueue, hstate, hlock, hdata, hclosed'⟩ :=
      ih ((s.storeByte s.current p (src.getD written 0)).goto s.current
        (.writeLoop p src (written + 1))) src (written + 1)
        (by simp [goto, storeByte]) (by simpa [goto, storeByte] using hclosed)
        (by simp only [goto, storeByte, Function.update_self]; omega)
        (by rwa [Nat.add_assoc, Nat.add_comm 1])
    refine ⟨s', Relation.ReflTransGen.head hstep hrun, hcur, ?_, hqueue, hstate, hlock, ?_,
      hclosed'⟩
    · rw [hpc', Nat.add_assoc, Nat.add_comm 1]
      simp [goto, storeByte]
    · rw [hdata]
      simp only [goto, storeByte, Function.update_self]
      omega

/-- A write longer than the free space, made while a reader waits and no other thread
writes, stalls the pipe: the writer blocks on the full ring and has woken nobody. -/
theorem exists_runsTo_stalled (src : List Byte) {r : Tid} (hidle : s.pc s.current = .idle)
    (hlock : s.lock (.pipe p) = none) (hqlock : s.lock (.queue (.pipeWrite p)) = none)
    (hclosed : (s.pipe p).readClosed = false) (hsize : (s.pipe p).dataSize ≤ pipeBufSize)
    (hsrc : pipeBufSize < (s.pipe p).dataSize + src.length) (hcount : src.length < 2 ^ 63)
    (hr : r ∈ s.queue (.pipeRead p)) (hblocked : s.state r = .blocked)
    (hout : ∀ t, (s.pc t).inPipeWrite p = false) :
    ∃ s', (system Tid).RunsTo (StaysOpen p) s s' ∧ Stalled p s' := by
  have hlong : longCount src = src.length := by
    rw [longCount, BitVec.toInt_eq_toNat_of_lt] <;> rw [BitVec.toNat_ofNat,
      Nat.mod_eq_of_lt (by omega)]
    omega
  -- the call enters the loop with the pipe's lock
  have henter : ∃ s₁, (system Tid).RunsTo (StaysOpen p) s s₁ ∧ s₁.current = s.current ∧
      s₁.pc = Function.update s.pc s.current (.writeLoop p src 0) ∧ s₁.queue = s.queue ∧
      s₁.state = s.state ∧ s₁.pipe = s.pipe ∧ s₁.lock (.queue (.pipeWrite p)) = none := by
    have hcall : (system Tid).Allowed (StaysOpen p) s (s.begin s.current (.write p src)) :=
      ⟨.call (.write p src), by simp [StaysOpen], .call _ hidle⟩
    refine ⟨_, .head hcall (.head (allowed_run (.writeAcquire p src) ?_ rfl rfl)
      (.head (allowed_run (.writeEntry p src) ?_ rfl rfl) .refl)), ?_⟩
    all_goals simp [begin, exec, spinlockAcquire, goto, Call.entry, hlock, hclosed, hqlock]
  obtain ⟨s₁, hrun₁, hcur₁, hpc₁, hqueue₁, hstate₁, hpipe₁, hqlock₁⟩ := henter
  obtain ⟨s₂, hrun₂, hcur₂, hpc₂, hqueue₂, hstate₂, hlock₂, hdata₂, hclosed₂⟩ :=
    exists_runsTo_filled (p := p) (pipeBufSize - (s.pipe p).dataSize) s₁ src 0
      (by simp [hpc₁, hcur₁]) (by rw [hpipe₁, hclosed]) (by rw [hpipe₁]; omega)
      (by rw [hlong]; omega)
  rw [hpipe₁, Nat.add_sub_cancel' hsize] at hdata₂
  rw [hcur₁, hpc₁, Function.update_idem, Nat.zero_add] at hpc₂
  -- it finds the ring full, and blocks
  set written := pipeBufSize - (s.pipe p).dataSize
  have hmore : (written : ℤ) < longCount src := by rw [hlong]; omega
  refine ⟨_, hrun₁.trans (hrun₂.trans
    (.head (allowed_run (.writeLoop p src written) ?_ rfl rfl)
    (.head (allowed_run (.addAcquire (.pipeWrite p src written)) ?_ rfl rfl)
    (.head (allowed_run (.addPush (.pipeWrite p src written)) ?_ rfl rfl)
    (.head (allowed_run (.addBlock (.pipeWrite p src written)) ?_ rfl rfl)
      .refl))))), ?_⟩
  · simp [hcur₂, hcur₁, hpc₂]
  · simp [exec, goto, hmore, hdata₂, hclosed₂]
  · simp [exec, goto, spinlockAcquire, hmore, hdata₂, hclosed₂, hlock₂, Waiter.queue, hqlock₁]
  · simp [exec, goto, spinlockAcquire, setQueue, hmore, hdata₂, hclosed₂, hlock₂, Waiter.queue,
      hqlock₁]
  · simp only [exec, goto, spinlockAcquire, setQueue, setState, hmore, hdata₂, hclosed₂, hlock₂,
      hcur₂, hcur₁, hpc₂, hqueue₂, hqueue₁, hstate₂, hstate₁, hqlock₁, Waiter.queue, le_refl,
      and_self, if_true, Function.update_idem]
    refine ⟨⟨r, ?_, ?_⟩, ?_, fun t ht => ?_⟩
    · simpa using hr
    · by_cases hrc : r = s.current
      · simp [hrc]
      · simpa [Function.update_of_ne hrc] using hblocked
    · simp [hdata₂, pipeBufSize]
    · by_cases htc : t = s.current
      · simp [htc]
      · simp [Function.update_of_ne htc, hout t] at ht

local instance neZero_threads : NeZero 2 := ⟨by decide⟩

/-- Two threads: thread 1 waits for data on pipe 0, and thread 0 runs. -/
def readerWaits : List (Event × Fin 2) :=
  (.call (.read 0 1), 0) :: List.replicate 8 (.run, 0)

/-- The reader of an empty pipe is not stalled while a write of one byte is under way. -/
theorem not_stalled_short_write :
    ∃ s : Machine (Fin 2), s.queue (.pipeRead 0) = [1] ∧ (s.pipe 0).dataSize = 1 ∧
      ¬ Stalled 0 s := by
  obtain ⟨s, hs, hqueue, hdata⟩ := exists_reachableUnder
    (C := fun s e => StaysOpen 0 s e ∧ WritesFit 0 s e)
    (P := fun s => s.queue (.pipeRead 0) = [1] ∧ (s.pipe 0).dataSize = 1) (1 : Fin 2)
    (readerWaits ++ (.call (.write 0 [7]), 0) :: List.replicate 4 (.run, 0))
    (by decide)
  exact ⟨s, hqueue, hdata, not_stalled_of_writesFit hs⟩

/-- A write of 4097 bytes to the empty pipe that thread 1 waits on stalls it. -/
theorem exists_stalled :
    ¬ ∀ (p : ℕ) (s : Machine (Fin 2)), (system (Fin 2)).ReachableUnder (StaysOpen p) s →
      ¬ Stalled p s := by
  intro h
  obtain ⟨s, hs, hcur, hidle, hlock, hqlock, hclosed, hempty, hr, hblocked, hout⟩ :=
    exists_reachableUnder (C := StaysOpen 0)
      (P := fun s => s.current = 0 ∧ s.pc 0 = .idle ∧ s.lock (.pipe 0) = none ∧
        s.lock (.queue (.pipeWrite 0)) = none ∧ (s.pipe 0).readClosed = false ∧
        (s.pipe 0).dataSize = 0 ∧ 1 ∈ s.queue (.pipeRead 0) ∧ s.state 1 = .blocked ∧
        ∀ t, (s.pc t).inPipeWrite 0 = false) (1 : Fin 2) readerWaits (by decide)
  obtain ⟨s', hrun, hstalled⟩ := exists_runsTo_stalled (List.replicate 4097 0)
    (hcur ▸ hidle) hlock hqlock hclosed (by simp [hempty])
    (by rw [hempty, List.length_replicate]; decide) (by rw [List.length_replicate]; decide)
    hr hblocked hout
  exact h 0 s' (hs.runsTo hrun) hstalled

end Machine

end KyroOS.Sync

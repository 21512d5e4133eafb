import KyroOS.Sync.PipeClose

/-!
# What the calls on a closed pipe return

From the test of `pipe_read` on, and from each turn of the loop of `pipe_write`, a thread
keeps the lock of the pipe until its bytes are moved, so that what it returns is settled
there.

## Main definitions

* `Pc.result` — the value that a call is about to return
* `Machine.Inside`, `Machine.Returning` — between two states of a run a thread has completed
  no call, and the first one it completes returns a given value

## Main results

* `Machine.read_of_writeClosed` — a reader gets the bytes that remain, and then 0
* `Machine.write_of_readClosed` — a writer gets `-EPIPE`, or the count it has stored
-/

namespace KyroOS.Sync

open Transition

variable {Tid : Type*}

/-- What the caller of a wake-up function returns. -/
def Waker.ret : Waker → Ret
  | mutexUnlock m => .unlock m
  | pipeRead p dest => .read p dest
  | pipeWrite p written => .write p written
  | closeRead p => .closeRead p
  | closeWrite p => .closeWrite p
  | destroyRead p | destroyWrite p => .destroy p

/-- The value of a call that has nothing to do any more but to wake threads and to release
its locks. -/
def Pc.result : Pc Tid → Option Ret
  | .wakeAcquire k | .wakeRemove k | .wakeRelease k _ | .wakeReady k _ => some k.ret
  | .destroyFree p => some (.destroy p)
  | .release _ r | .returns r => some r
  | _ => none

theorem Waker.result_after (k : Waker) : (k.after : Pc Tid).result = some k.ret := by
  cases k <;> rfl

namespace Machine

variable [DecidableEq Tid] {s s' s'' : Machine Tid} {t u : Tid} {p : ℕ} {e : Event}
  {stmt : Pc Tid} {r : Ret}

/-! ### Calls that return -/

/-- From `s` to `s'` the thread has completed no call. -/
def Inside (s : Machine Tid) (t : Tid) (s' : Machine Tid) : Prop :=
  ∃ calls, s'.returned = calls ++ s.returned ∧ ∀ call ∈ calls, call.1 ≠ t

/-- The first call that the thread completes after `s` returns `r`: it is about to do so, or
it has. -/
inductive Returning (s : Machine Tid) (t : Tid) (r : Ret) (s' : Machine Tid) : Prop
  | leaving (hinside : Inside s t s') (hresult : (s'.pc t).result = some r)
  | returned (later calls : List (Tid × Ret × ℕ)) (n : ℕ)
      (hcalls : s'.returned = later ++ (t, r, n) :: (calls ++ s.returned))
      (hother : ∀ call ∈ calls, call.1 ≠ t)

omit [DecidableEq Tid] in
theorem Inside.refl (s : Machine Tid) (t : Tid) : Inside s t s :=
  ⟨[], rfl, fun _ hmem => absurd hmem List.not_mem_nil⟩

omit [DecidableEq Tid] in
theorem Inside.congr (h : Inside s t s') (hreturned : s''.returned = s'.returned) :
    Inside s t s'' := by
  obtain ⟨calls, hcalls, hother⟩ := h
  exact ⟨calls, hreturned.trans hcalls, hother⟩

/-- Other threads may complete calls. -/
theorem Inside.exec_of_ne (h : Inside s t s') (hu : u ≠ t) (stmt : Pc Tid) :
    Inside s t (s'.exec u stmt) := by
  rcases returned_exec s' u stmt with hsame | ⟨r, -, hnew⟩
  · exact h.congr hsame
  · obtain ⟨calls, hcalls, hother⟩ := h
    refine ⟨(u, r, s'.moved u) :: calls, by rw [hnew, hcalls]; rfl, fun call hmem => ?_⟩
    rcases List.mem_cons.mp hmem with rfl | hold
    · exact hu
    · exact hother call hold

/-- A statement that is not the last one of its call completes none. -/
theorem Inside.exec (h : Inside s t s') (hstmt : ∀ r, stmt ≠ .returns r) :
    Inside s t (s'.exec u stmt) := by
  rcases returned_exec s' u stmt with hsame | ⟨r, hreturns, -⟩
  · exact h.congr hsame
  · exact absurd hreturns (hstmt r)

/-- The value of a call does not change on its way out. -/
theorem result_exec (hpc : s.pc t = stmt) (hresult : stmt.result = some r) :
    ((s.exec t stmt).pc t).result = some r ∨ stmt = .returns r := by
  cases stmt with
  | wakeAcquire k =>
    simp only [Machine.exec, spinlockAcquire]
    split_ifs
    · exact .inl (by simpa [Pc.result] using hresult)
    · exact .inl (by rw [hpc]; exact hresult)
  | wakeRemove k =>
    simp only [Machine.exec]
    split <;> exact .inl (by simpa [goto, Pc.result] using hresult)
  | wakeRelease k woken =>
    cases woken with
    | none =>
      refine .inl (Eq.trans ?_ hresult)
      simp only [Machine.exec, spinlockRelease, Function.update_self, Waker.result_after]
      rfl
    | some th => exact .inl (by simpa [Machine.exec, spinlockRelease, Pc.result] using hresult)
  | wakeReady k th =>
    cases hall : k.all with
    | true => exact .inl (by simpa [Machine.exec, goto, hall, Pc.result] using hresult)
    | false =>
      refine .inl (Eq.trans ?_ hresult)
      simp only [Machine.exec, goto, hall, Bool.false_eq_true, if_false, Function.update_self,
        Waker.result_after]
      rfl
  | destroyFree p' => exact .inl (by simpa [Machine.exec, goto, Pc.result] using hresult)
  | release l r' => exact .inl (by simpa [Machine.exec, spinlockRelease, Pc.result] using hresult)
  | returns r' =>
    obtain rfl : r' = r := by simpa [Pc.result] using hresult
    exact .inr rfl
  | _ => simp [Pc.result] at hresult

theorem Returning.exec (h : Returning s t r s') (u : Tid) :
    Returning s t r (s'.exec u (s'.pc u)) := by
  cases h with
  | leaving hinside hresult =>
    by_cases hut : u = t
    · subst hut
      generalize hstmt : s'.pc u = stmt at hresult
      rcases result_exec hstmt hresult with hnext | rfl
      · by_cases hlast : ∃ r', stmt = .returns r'
        · obtain ⟨r', rfl⟩ := hlast
          simp [Machine.exec, finish, Pc.result] at hnext
        · exact .leaving (hinside.exec fun r' hr' => hlast ⟨r', hr'⟩) hnext
      · obtain ⟨calls, hcalls, hother⟩ := hinside
        exact .returned [] calls (s'.moved u) (by simp [Machine.exec, finish, hcalls]) hother
    · refine .leaving (hinside.exec_of_ne hut _) ?_
      rwa [exec_pc_of_ne (Ne.symm hut)]
  | returned later calls n hcalls hother =>
    rcases returned_exec s' u (s'.pc u) with hsame | ⟨r', -, hnew⟩
    · exact .returned later calls n (hsame.trans hcalls) hother
    · exact .returned ((u, r', s'.moved u) :: later) calls n (by rw [hnew, hcalls]; rfl) hother

theorem Returning.begin (h : Returning s t r s') (c : Call) (hidle : s'.pc u = .idle) :
    Returning s t r (s'.begin u c) := by
  cases h with
  | leaving hinside hresult =>
    have htu : t ≠ u := by
      rintro rfl
      simp [hidle, Pc.result] at hresult
    refine .leaving (hinside.congr rfl) ?_
    simpa [Machine.begin, Function.update_of_ne htu] using hresult
  | returned later calls n hcalls hother => exact .returned later calls n hcalls hother

theorem Returning.schedules (h : Returning s t r s') (hs : Schedules s' s'') :
    Returning s t r s'' := by
  rw [hs.eq]
  cases h with
  | leaving hinside hresult => exact .leaving (hinside.congr rfl) hresult
  | returned later calls n hcalls hother => exact .returned later calls n hcalls hother

/-! ### The pipe under the lock -/

/-- While a thread holds the lock of a pipe, the others leave its bytes alone. -/
theorem contents_exec_of_ne (hlocks : LocksAgree s) (hheld : (s.pc t).holds (.pipe p) = true)
    (hu : u ≠ t) : ((s.exec u (s.pc u)).pipe p).contents = (s.pipe p).contents := by
  have hfree : (s.pc u).holds (.pipe p) ≠ true := fun hholds =>
    hu (hlocks.holds_unique hholds hheld)
  cases pipeEffect_exec s u (s.pc u) with
  | keep hpipe _ _ => rw [hpipe]
  | take p' count dest hstmt _ hs' =>
    have hp : p ≠ p' := by
      rintro rfl
      exact hfree (by rw [hstmt]; simp [Pc.holds])
    simp [hs', goto, takeByte, Function.update_of_ne hp]
  | store p' src written hstmt _ hs' =>
    have hp : p ≠ p' := by
      rintro rfl
      exact hfree (by rw [hstmt]; simp [Pc.holds])
    simp [hs', goto, storeByte, Function.update_of_ne hp]
  | mark p' _ pipe hpipe hring _ _ =>
    by_cases hp : p = p'
    · subst hp
      obtain ⟨hbuffer, hread, -, hdata⟩ := hring
      simp [hpipe, Pipe.contents, hbuffer, hread, hdata]
    · simp [hpipe, Function.update_of_ne hp]

omit [DecidableEq Tid] in
theorem contents_eq_nil (hdata : (s.pipe p).dataSize = 0) : (s.pipe p).contents = [] := by
  rw [Pipe.contents, hdata, RingBuffer.contents_zero]

/-- A turn of the copy loop takes the first of the bytes. -/
theorem contents_takeByte (hring : RingInv p s) (hdata : 0 < (s.pipe p).dataSize) :
    (s.pipe p).buffer (s.pipe p).readPos :: ((s.takeByte t p).pipe p).contents =
      (s.pipe p).contents := by
  obtain ⟨size, hsize⟩ := Nat.exists_eq_add_of_lt hdata
  rw [Nat.zero_add] at hsize
  rw [Pipe.contents, Pipe.contents, hsize, RingBuffer.contents_pop hring.readPos_lt]
  simp [takeByte, hsize]

/-! ### Readers -/

/-- A reader that has found the write end closed: it copies the bytes that remained, or it
returns them. -/
inductive Reading (s : Machine Tid) (t : Tid) (p count : ℕ) (s' : Machine Tid) : Prop
  | test (hinside : Inside s t s') (hpc : s'.pc t = .readWait p count)
      (hclosed : (s'.pipe p).writeClosed = true)
      (hcontents : (s'.pipe p).contents = (s.pipe p).contents)
  | copy (dest : List Byte) (hinside : Inside s t s') (hpc : s'.pc t = .readCopy p count dest)
      (hcontents : dest ++ (s'.pipe p).contents = (s.pipe p).contents)
      (hcount : dest.length ≤ count)
  | done (hreturning : Returning s t (.read p ((s.pipe p).contents.take count)) s')

/-- What the reader does next. -/
theorem Reading.exec_self {count : ℕ} (h : Reading s t p count s') (hring : RingInv p s') :
    Reading s t p count (s'.exec t (s'.pc t)) := by
  cases h with
  | test hinside hpc hclosed hcontents =>
    rw [hpc]
    have hinside' : Inside s t (s'.exec t (.readWait p count)) := hinside.exec (by rintro r ⟨⟩)
    by_cases hdata : (s'.pipe p).dataSize = 0
    · -- the end of the bytes
      refine .done (.leaving hinside' ?_)
      rw [← hcontents, contents_eq_nil hdata]
      simp [Machine.exec, goto, hdata, hclosed, Pc.result]
    · refine .copy [] hinside' ?_ ?_ (Nat.zero_le count)
      · simp [Machine.exec, goto, hdata]
      · rw [← hcontents]
        simp [Machine.exec, goto, hdata]
  | copy dest hinside hpc hcontents hcount =>
    rw [hpc]
    have hinside' : Inside s t (s'.exec t (.readCopy p count dest)) := hinside.exec (by rintro r ⟨⟩)
    by_cases hmore : dest.length < count ∧ 0 < (s'.pipe p).dataSize
    · refine .copy _ hinside' (by simp [Machine.exec, goto, hmore]; rfl) ?_ ?_
      · rw [← hcontents, ← contents_takeByte (t := t) hring hmore.2]
        simp [Machine.exec, goto, hmore]
      · rw [List.length_append]
        exact hmore.1
    · refine .done (.leaving hinside' ?_)
      have hdest : (s.pipe p).contents.take count = dest := by
        rw [← hcontents]
        by_cases hfull : dest.length = count
        · rw [← hfull, List.take_left]
        · have hdata : (s'.pipe p).dataSize = 0 := by omega
          rw [contents_eq_nil hdata, List.append_nil, List.take_of_length_le hcount]
      simp [Machine.exec, goto, hmore, Pc.result, Waker.ret, hdest]
  | done hreturning => exact .done (hreturning.exec t)

/-- The other threads leave the bytes alone that the reader copies. -/
theorem Reading.exec_of_ne {count : ℕ} (h : Reading s t p count s') (hlocks : LocksAgree s')
    (hu : u ≠ t) : Reading s t p count (s'.exec u (s'.pc u)) := by
  have hpc' : (s'.exec u (s'.pc u)).pc t = s'.pc t := exec_pc_of_ne hu.symm _
  cases h with
  | test hinside hpc hclosed hcontents =>
    have hheld : (s'.pc t).holds (.pipe p) = true := by simp [hpc, Pc.holds]
    refine .test (hinside.exec_of_ne hu _) (hpc'.trans hpc) ?_ ?_
    · exact writeClosed_stays hclosed
    · exact (contents_exec_of_ne hlocks hheld hu).trans hcontents
  | copy dest hinside hpc hcontents hcount =>
    have hheld : (s'.pc t).holds (.pipe p) = true := by simp [hpc, Pc.holds]
    refine .copy dest (hinside.exec_of_ne hu _) (hpc'.trans hpc) ?_ hcount
    rw [contents_exec_of_ne hlocks hheld hu, hcontents]
  | done hreturning => exact .done (hreturning.exec u)

theorem Reading.step {count : ℕ} (h : Reading s t p count s') (hring : RingInv p s')
    (hlocks : LocksAgree s') (hstep : Step s' e s'') : Reading s t p count s'' := by
  have hexec : Reading s t p count (s'.exec s'.current (s'.pc s'.current)) := by
    by_cases ht : s'.current = t
    · rw [ht]
      exact h.exec_self hring
    · exact h.exec_of_ne hlocks ht
  have hsched : ∀ {a b}, Reading s t p count a → Schedules a b → Reading s t p count b := by
    intro a b ha hab
    cases ha with
    | test hinside hpc hclosed hcontents =>
      rw [hab.eq]
      exact .test (hinside.congr rfl) hpc hclosed hcontents
    | copy dest hinside hpc hcontents hcount =>
      rw [hab.eq]
      exact .copy dest (hinside.congr rfl) hpc hcontents hcount
    | done hreturning => exact .done (hreturning.schedules hab)
  cases hstep with
  | call c hidle =>
    cases h with
    | test hinside hpc hclosed hcontents =>
      have ht : t ≠ s'.current := by
        rintro rfl
        simp [hidle] at hpc
      refine .test (hinside.congr rfl) ?_ hclosed hcontents
      simpa [Machine.begin, Function.update_of_ne ht] using hpc
    | copy dest hinside hpc hcontents hcount =>
      have ht : t ≠ s'.current := by
        rintro rfl
        simp [hidle] at hpc
      refine .copy dest (hinside.congr rfl) ?_ hcontents hcount
      simpa [Machine.begin, Function.update_of_ne ht] using hpc
    | done hreturning => exact .done (hreturning.begin c hidle)
  | run _ => exact hexec
  | yield _ hs => exact hsched hexec hs
  | tick hs => exact hsched h hs

/-- A reader that finds the write end closed does not wait. It gets the bytes that remain, as
many as it asked for, and so none when none remain. -/
theorem read_of_writeClosed {C D : Machine Tid → Event → Prop} {count : ℕ}
    (h : (system Tid).ReachableUnder C s) (hpc : s.pc t = .readWait p count)
    (hclosed : (s.pipe p).writeClosed = true) (hrun : (system Tid).RunsTo D s s') :
    Reading s t p count s' := by
  induction hrun with
  | refl => exact .test (Inside.refl s t) hpc hclosed rfl
  | tail hbefore hlast ih =>
    obtain ⟨e, -, hstep⟩ := hlast
    have hreach := h.reachable.runsTo (System.RunsTo.mono hbefore fun _ _ _ => trivial)
    exact ih.step (ringInv hreach p) (lock_eq_some_iff_holds hreach) hstep

/-! ### Writers -/

/-- What a writer returns that finds the read end closed. -/
def writeValue (p : ℕ) : Pc Tid → Option ℤ
  | .writeEntry p' _ => if p' = p then some (-ePIPE) else none
  | .writeLoop p' src written =>
    if p' = p then
      some (if (written : ℤ) < longCount src ∧ written = 0 then -ePIPE else written)
    else none
  | _ => none

/-- It leaves the loop, and wakes readers at most. -/
theorem result_of_writeValue {v : ℤ} (hvalue : writeValue p stmt = some v)
    (hclosed : (s.pipe p).readClosed = true) :
    ((s.exec t stmt).pc t).result = some (.write p v) := by
  cases stmt with
  | writeEntry p' src =>
    obtain ⟨rfl, rfl⟩ : p' = p ∧ -ePIPE = v := by simpa [writeValue] using hvalue
    simp [exec, goto, hclosed, Pc.result]
  | writeLoop p' src written =>
    obtain ⟨rfl, hv⟩ : p' = p ∧
        (if (written : ℤ) < longCount src ∧ written = 0 then -ePIPE else (written : ℤ)) = v := by
      simpa [writeValue] using hvalue
    by_cases hmore : (written : ℤ) < longCount src
    · by_cases hzero : written = 0
      · rw [if_pos ⟨hmore, hzero⟩] at hv
        subst hzero hv
        simp only [Nat.cast_zero] at hmore
        simp [exec, goto, hclosed, hmore, Pc.result]
      · rw [if_neg fun hnone => hzero hnone.2] at hv
        subst hv
        simp [exec, goto, hclosed, hmore, Nat.pos_of_ne_zero hzero, Pc.result]
    · rw [if_neg fun hnone => hmore hnone.1] at hv
      subst hv
      simp [exec, goto, hmore, Pc.result, Waker.ret]
  | _ => simp [writeValue] at hvalue

/-- A writer that finds the read end closed: it is about to see that, or it returns. -/
inductive Writing (s : Machine Tid) (t : Tid) (p : ℕ) (v : ℤ) (s' : Machine Tid) : Prop
  | test (hinside : Inside s t s') (hvalue : writeValue p (s'.pc t) = some v)
      (hclosed : (s'.pipe p).readClosed = true)
  | done (hreturning : Returning s t (.write p v) s')

theorem Writing.step {v : ℤ} (h : Writing s t p v s') (hstep : Step s' e s'') :
    Writing s t p v s'' := by
  have hexec : Writing s t p v (s'.exec s'.current (s'.pc s'.current)) := by
    cases h with
    | test hinside hvalue hclosed =>
      by_cases ht : s'.current = t
      · rw [ht]
        refine .done (.leaving (hinside.exec fun r hr => ?_) (result_of_writeValue hvalue hclosed))
        rw [hr] at hvalue
        simp [writeValue] at hvalue
      · refine .test (hinside.exec_of_ne ht _) ?_ ?_
        · rwa [exec_pc_of_ne (Ne.symm ht)]
        · exact readClosed_stays hclosed
    | done hreturning => exact .done (hreturning.exec _)
  have hsched : ∀ {a b}, Writing s t p v a → Schedules a b → Writing s t p v b := by
    intro a b ha hab
    cases ha with
    | test hinside hvalue hclosed =>
      rw [hab.eq]
      exact .test (hinside.congr rfl) hvalue hclosed
    | done hreturning => exact .done (hreturning.schedules hab)
  cases hstep with
  | call c hidle =>
    cases h with
    | test hinside hvalue hclosed =>
      have ht : t ≠ s'.current := by
        rintro rfl
        simp [hidle, writeValue] at hvalue
      refine .test (hinside.congr rfl) ?_ hclosed
      simpa [Machine.begin, Function.update_of_ne ht] using hvalue
    | done hreturning => exact .done (hreturning.begin c hidle)
  | run _ => exact hexec
  | yield _ hs => exact hsched hexec hs
  | tick hs => exact hsched h hs

/-- A writer that finds the read end closed returns, without waiting, the count that it has
stored, or `-EPIPE` when it has stored nothing. -/
theorem write_of_readClosed {C D : Machine Tid → Event → Prop} {v : ℤ}
    (h : (system Tid).ReachableUnder C s) (hvalue : writeValue p (s.pc t) = some v)
    (hclosed : (s.pipe p).readClosed = true) (hrun : (system Tid).RunsTo D s s') :
    (v = s.moved t ∨ v = -ePIPE ∧ s.moved t = 0) ∧ Writing s t p v s' := by
  constructor
  · have hcount := (countInv h).running t
    generalize s.pc t = stmt at hvalue hcount
    cases stmt with
    | writeEntry p' src =>
      obtain ⟨-, rfl⟩ : p' = p ∧ -ePIPE = v := by simpa [writeValue] using hvalue
      exact .inr ⟨rfl, hcount⟩
    | writeLoop p' src written =>
      have hmoved : s.moved t = written := hcount
      obtain ⟨-, hv⟩ : p' = p ∧
          (if (written : ℤ) < longCount src ∧ written = 0 then -ePIPE else (written : ℤ)) = v := by
        simpa [writeValue] using hvalue
      rw [hmoved]
      split_ifs at hv with hnone
      · exact .inr ⟨hv.symm, hnone.2⟩
      · exact .inl hv.symm
    | _ => simp [writeValue] at hvalue
  · exact hrun.preserves (fun _ _ _ hW _ hstep => hW.step hstep)
      (.test (Inside.refl s t) hvalue hclosed)

/-- Nothing is stored in a pipe whose read end is closed. -/
theorem stored_exec (hclosed : (s.pipe p).readClosed = true) :
    (s.exec t stmt).stored p = s.stored p := by
  cases stmt with
  | writeLoop p' src written =>
    simp only [exec]
    by_cases hp : p = p'
    · subst hp
      simp only [hclosed]
      split_ifs <;> simp_all [goto]
    · split_ifs <;> simp [goto, storeByte, Function.update_of_ne hp]
  | wakeRelease k woken => cases woken <;> rfl
  | idle => rfl
  | _ =>
    simp only [exec, spinlockAcquire]
    (repeat' split) <;> rfl

end Machine

end KyroOS.Sync

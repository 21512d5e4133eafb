import KyroOS.Lib.RingBuffer
import KyroOS.Sync.LockDiscipline

/-!
# A pipe is a queue of bytes

Whatever the interleaving of its readers and writers, a pipe hands out the bytes in
the order in which they were stored, each of them once, and a call returns the number
of bytes it moved.

## Main definitions

* `Pipe.contents` — the bytes in the ring
* `Machine.RingInv` — the positions of a pipe and its bytes
* `Machine.CountInv` — the local counts of the calls

## Main results

* `Machine.ringInv`, `Machine.countInv` — both hold in every reachable state
* `Machine.pipe_fifo` — the two together
-/

namespace KyroOS.Sync

open Transition

variable {Tid : Type*}

/-- The bytes in the ring, the next one to be read first. -/
def Pipe.contents (pipe : Pipe) : List Byte :=
  RingBuffer.contents pipeBufSize pipe.buffer pipe.readPos pipe.dataSize

/-- What a completed pipe call says about the number `n` of bytes it moved: the count it
returns, and no byte at all when it returns an error. -/
def Ret.Counts (n : ℕ) : Ret → Prop
  | read _ dest => dest.length = n
  | write _ value => value = n ∨ value = -ePIPE ∧ n = 0
  | _ => True

/-- What the local variables of a waiting call say about the bytes it moved so far. -/
def Waiter.Counts (n : ℕ) : Waiter → Prop
  | mutexLock _ => True
  | pipeRead _ _ => n = 0
  | pipeWrite _ _ written => n = written

def Waker.Counts (n : ℕ) : Waker → Prop
  | pipeRead _ dest => n = dest.length
  | pipeWrite _ written => n = written
  | _ => True

/-- What the local variables of a call say about the bytes it moved so far. -/
def Pc.Counts (n : ℕ) : Pc Tid → Prop
  | .readAcquire _ _ | .readWait _ _ | .writeAcquire _ _ | .writeEntry _ _ => n = 0
  | .readCopy _ _ dest => n = dest.length
  | .writeLoop _ _ written | .writeReacquire _ _ written => n = written
  | .addAcquire w | .addPush w | .addBlock w | .addRelease w | .waitRelease w
  | .waitSchedule w => w.Counts n
  | .wakeAcquire k | .wakeRemove k | .wakeRelease k _ | .wakeReady k _ => k.Counts n
  | .release _ r | .returns r => r.Counts n
  | _ => True

theorem Waker.counts_after {k : Waker} {n : ℕ} (h : k.Counts n) :
    (k.after : Pc Tid).Counts n := by
  cases k <;> simp_all [Waker.after, Waker.Counts, Pc.Counts, Ret.Counts]

theorem Waiter.counts_resume {w : Waiter} {n : ℕ} (h : w.Counts n) :
    (w.resume : Pc Tid).Counts n := by
  cases w <;> simp_all [Waiter.resume, Waiter.Counts, Pc.Counts, Ret.Counts]

theorem Call.counts_entry (c : Call) : (c.entry : Pc Tid).Counts 0 := by
  cases c <;> simp [Call.entry, Pc.Counts, Waker.Counts]

namespace Machine

variable [DecidableEq Tid] {s s' : Machine Tid} {t u : Tid} {p : ℕ} {e : Event}
  {stmt : Pc Tid}

/-! ### What one statement does to the pipes -/

/-- The effect of a statement of `t` on the pipes: none, a byte leaves a ring, a byte
enters a ring, or a flag of a pipe is set. -/
inductive PipeEffect (s : Machine Tid) (t : Tid) (stmt : Pc Tid) (s' : Machine Tid) : Prop
  | keep (hpipe : s'.pipe = s.pipe) (htaken : s'.taken = s.taken)
      (hstored : s'.stored = s.stored)
  | take (p count : ℕ) (dest : List Byte) (hstmt : stmt = .readCopy p count dest)
      (hdata : 0 < (s.pipe p).dataSize)
      (hs' : s' = (s.takeByte t p).goto t
        (.readCopy p count (dest ++ [(s.pipe p).buffer (s.pipe p).readPos])))
  | store (p : ℕ) (src : List Byte) (written : ℕ) (hstmt : stmt = .writeLoop p src written)
      (hspace : (s.pipe p).dataSize < pipeBufSize)
      (hs' : s' = (s.storeByte t p (src.getD written 0)).goto t
        (.writeLoop p src (written + 1)))
  | mark (p : ℕ) (hstmt : stmt = .closeReadMark p ∨ stmt = .closeWriteMark p ∨
        stmt = .destroyFree p)
      (pipe : Pipe) (hpipe : s'.pipe = Function.update s.pipe p pipe)
      (hring : pipe.buffer = (s.pipe p).buffer ∧ pipe.readPos = (s.pipe p).readPos ∧
        pipe.writePos = (s.pipe p).writePos ∧ pipe.dataSize = (s.pipe p).dataSize)
      (htaken : s'.taken = s.taken) (hstored : s'.stored = s.stored)

theorem pipeEffect_exec (s : Machine Tid) (t : Tid) (stmt : Pc Tid) :
    PipeEffect s t stmt (s.exec t stmt) := by
  cases stmt with
  | readCopy p count dest =>
    simp only [exec]
    split_ifs with hmore
    · exact .take p count dest rfl hmore.2 rfl
    · exact .keep rfl rfl rfl
  | writeLoop p src written =>
    simp only [exec]
    split_ifs with hmore hfull hclosed
    · exact .keep rfl rfl rfl
    · exact .keep rfl rfl rfl
    · exact .keep rfl rfl rfl
    · refine .store p src written rfl ?_ rfl
      by_contra hspace
      exact hfull ⟨Nat.le_of_not_lt hspace, by simpa using hclosed⟩
    · exact .keep rfl rfl rfl
  | closeReadMark p => exact .mark p (.inl rfl) _ rfl ⟨rfl, rfl, rfl, rfl⟩ rfl rfl
  | closeWriteMark p => exact .mark p (.inr (.inl rfl)) _ rfl ⟨rfl, rfl, rfl, rfl⟩ rfl rfl
  | destroyFree p => exact .mark p (.inr (.inr rfl)) _ rfl ⟨rfl, rfl, rfl, rfl⟩ rfl rfl
  | wakeRelease k woken => cases woken <;> exact .keep rfl rfl rfl
  | _ =>
    simp only [exec, spinlockAcquire]
    (repeat' split) <;> exact .keep rfl rfl rfl

/-! ### The ring -/

/-- The positions of a pipe, and its bytes: those handed out, followed by those in the
ring, are those stored. -/
structure RingInv (p : ℕ) (s : Machine Tid) : Prop where
  dataSize_le : (s.pipe p).dataSize ≤ pipeBufSize
  readPos_lt : (s.pipe p).readPos < pipeBufSize
  writePos_eq : (s.pipe p).writePos = ((s.pipe p).readPos + (s.pipe p).dataSize) % pipeBufSize
  fifo : s.taken p ++ (s.pipe p).contents = s.stored p

theorem RingInv.takeByte (h : RingInv p s) (hdata : 0 < (s.pipe p).dataSize) :
    RingInv p (s.takeByte t p) := by
  obtain ⟨size, hsize⟩ := Nat.exists_eq_add_of_lt hdata
  rw [Nat.zero_add] at hsize
  have hle := h.dataSize_le
  have hpos := h.writePos_eq
  have hfifo := h.fifo
  rw [hsize] at hle hpos
  rw [Pipe.contents, hsize, RingBuffer.contents_pop h.readPos_lt] at hfifo
  refine ⟨?_, ?_, ?_, ?_⟩ <;>
    simp only [Machine.takeByte, Function.update_self, hsize, Nat.add_sub_cancel]
  · omega
  · exact Nat.mod_lt _ (by decide)
  · rw [hpos, RingBuffer.tail_pop]
  · simpa [Pipe.contents] using hfifo

theorem RingInv.storeByte (h : RingInv p s) (hspace : (s.pipe p).dataSize < pipeBufSize)
    (byte : Byte) : RingInv p (s.storeByte t p byte) := by
  refine ⟨?_, ?_, ?_, ?_⟩ <;> simp only [Machine.storeByte, Function.update_self]
  · exact hspace
  · exact h.readPos_lt
  · rw [h.writePos_eq, RingBuffer.tail_push]
  · rw [Pipe.contents, h.writePos_eq, RingBuffer.contents_push hspace, ← List.append_assoc]
    congr 1
    exact h.fifo

omit [DecidableEq Tid] in
/-- Only the ring of the pipe itself matters. -/
theorem RingInv.congr (h : RingInv p s) (hbuffer : (s'.pipe p).buffer = (s.pipe p).buffer)
    (hread : (s'.pipe p).readPos = (s.pipe p).readPos)
    (hwrite : (s'.pipe p).writePos = (s.pipe p).writePos)
    (hdata : (s'.pipe p).dataSize = (s.pipe p).dataSize) (htaken : s'.taken p = s.taken p)
    (hstored : s'.stored p = s.stored p) : RingInv p s' := by
  refine ⟨?_, ?_, ?_, ?_⟩
  · rw [hdata]
    exact h.dataSize_le
  · rw [hread]
    exact h.readPos_lt
  · rw [hwrite, hread, hdata]
    exact h.writePos_eq
  · rw [Pipe.contents, hbuffer, hread, hdata, htaken, hstored]
    exact h.fifo

theorem RingInv.exec (h : RingInv p s) (t : Tid) (stmt : Pc Tid) :
    RingInv p (s.exec t stmt) := by
  cases pipeEffect_exec s t stmt with
  | keep hpipe htaken hstored =>
    exact h.congr (by rw [hpipe]) (by rw [hpipe]) (by rw [hpipe]) (by rw [hpipe])
      (by rw [htaken]) (by rw [hstored])
  | take p' count dest _ hdata hs' =>
    rw [hs']
    by_cases hp : p = p'
    · subst hp
      exact (h.takeByte (t := t) hdata).congr rfl rfl rfl rfl rfl rfl
    · apply h.congr <;> simp [goto, Machine.takeByte, Function.update_of_ne hp]
  | store p' src written _ hspace hs' =>
    rw [hs']
    by_cases hp : p = p'
    · subst hp
      exact (h.storeByte (t := t) hspace _).congr rfl rfl rfl rfl rfl rfl
    · apply h.congr <;> simp [goto, Machine.storeByte, Function.update_of_ne hp]
  | mark p' _ pipe hpipe hring htaken hstored =>
    obtain ⟨hbuffer, hread, hwrite, hdata⟩ := hring
    by_cases hp : p = p'
    · subst hp
      apply h.congr <;> simp [hpipe, hbuffer, hread, hwrite, hdata, htaken, hstored]
    · apply h.congr <;> simp [hpipe, Function.update_of_ne hp, htaken, hstored]

theorem RingInv.step (h : RingInv p s) (hstep : Step s e s') : RingInv p s' := by
  cases hstep with
  | call c _ => exact h.congr rfl rfl rfl rfl rfl rfl
  | run _ => exact h.exec _ _
  | yield _ hsched =>
    rw [hsched.eq]
    exact (h.exec _ _).congr rfl rfl rfl rfl rfl rfl
  | tick hsched =>
    rw [hsched.eq]
    exact h.congr rfl rfl rfl rfl rfl rfl

theorem ringInv {C : Machine Tid → Event → Prop} (h : (system Tid).ReachableUnder C s)
    (p : ℕ) : RingInv p s := by
  refine h.invariant (fun s hs => ?_) fun _ _ _ hI _ hstep => hI.step hstep
  obtain ⟨buffer, hpipe⟩ := hs.pipe p
  refine ⟨?_, ?_, ?_, ?_⟩ <;> simp [hpipe, hs.taken, hs.stored, pipeBufSize, Pipe.contents]

/-! ### The counts -/

/-- The local variables of every call in progress, and the values returned by the
completed calls, count the bytes that were moved. -/
structure CountInv (s : Machine Tid) : Prop where
  running : ∀ t, (s.pc t).Counts (s.moved t)
  returned : ∀ t r n, (t, r, n) ∈ s.returned → r.Counts n

theorem moved_exec_of_ne (h : u ≠ t) (stmt : Pc Tid) :
    (s.exec t stmt).moved u = s.moved u := by
  cases stmt with
  | idle => rfl
  | wakeRelease k woken => cases woken <;> rfl
  | _ =>
    simp only [exec, spinlockAcquire]
    (repeat' split) <;> first | rfl | exact Function.update_of_ne h _ _

/-- The count a statement leaves agrees with the bytes it moved. -/
theorem counts_exec (hpc : s.pc t = stmt) (h : stmt.Counts (s.moved t)) :
    ((s.exec t stmt).pc t).Counts ((s.exec t stmt).moved t) := by
  cases stmt with
  | wakeRelease k woken =>
    cases woken with
    | none => simpa [exec, spinlockRelease] using Waker.counts_after h
    | some th => simpa [exec, spinlockRelease, Pc.Counts] using h
  | wakeReady k th =>
    cases hall : k.all with
    | true => simpa [exec, goto, setState, hall, Pc.Counts] using h
    | false => simpa [exec, goto, setState, hall] using Waker.counts_after h
  | waitSchedule w => simpa [exec, goto] using Waiter.counts_resume h
  | _ =>
    simp only [exec, spinlockAcquire]
    (repeat' split) <;>
      simp_all [goto, setMutex, setPipe, setState, setQueue, takeByte, storeByte,
        spinlockRelease, finish, Pc.Counts, Waiter.Counts, Waker.Counts, Ret.Counts]

theorem CountInv.exec (h : CountInv s) (t : Tid) : CountInv (s.exec t (s.pc t)) := by
  refine ⟨fun u => ?_, fun u r n hmem => ?_⟩
  · by_cases hut : u = t
    · subst hut
      exact counts_exec rfl (h.running u)
    · rw [exec_pc_of_ne hut, moved_exec_of_ne hut]
      exact h.running u
  · rcases returned_exec s t (s.pc t) with hsame | ⟨r', hreturns, hnew⟩
    · exact h.returned u r n (hsame ▸ hmem)
    · rw [hnew] at hmem
      rcases List.mem_cons.mp hmem with hlast | hold
      · obtain ⟨rfl, rfl, rfl⟩ := Prod.mk.injEq .. ▸ hlast
        have hcounts := h.running u
        rwa [hreturns] at hcounts
      · exact h.returned u r n hold

theorem CountInv.step (h : CountInv s) (hstep : Step s e s') : CountInv s' := by
  cases hstep with
  | call c hidle =>
    refine ⟨fun u => ?_, h.returned⟩
    by_cases hu : u = s.current
    · simpa [begin, hu] using Call.counts_entry c
    · simpa [begin, Function.update_of_ne hu] using h.running u
  | run _ => exact h.exec _
  | yield _ hsched =>
    rw [hsched.eq]
    exact ⟨(h.exec _).running, (h.exec _).returned⟩
  | tick hsched =>
    rw [hsched.eq]
    exact ⟨h.running, h.returned⟩

theorem countInv {C : Machine Tid → Event → Prop} (h : (system Tid).ReachableUnder C s) :
    CountInv s := by
  refine h.invariant (fun s hs => ⟨fun t => ?_, fun t r n hmem => ?_⟩)
    fun _ _ _ hI _ hstep => hI.step hstep
  · simp [hs.pc, Pc.Counts]
  · simp [hs.returned] at hmem

/-! ### The pipe as a queue -/

/-- No thread destroys the pipe. -/
def KeepsPipe (p : ℕ) (_ : Machine Tid) (e : Event) : Prop := e ≠ .call (.destroy p)

instance (p : ℕ) (s : Machine Tid) (e : Event) : Decidable (KeepsPipe p s e) :=
  inferInstanceAs (Decidable (_ ≠ _))

end Machine

end KyroOS.Sync

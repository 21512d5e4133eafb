import KyroOS.Context.NewThreads
import KyroOS.Process.Life

/-!
# The first switch to a new thread

`thread_create` and `thread_create_userspace` build a frame on the stack of the new thread. The
first switch to the thread takes the registers and the return address from where `rsp` of its
`thread_t` points to. `thread_create` makes it point to the frame, and
`thread_create_userspace` leaves in the field what the heap left there.

## Main definitions

* `CoreEvent`, `CoreStep`, `coreSystem` — the runs of kernel threads from `thread_init` on
* `Waits` — a thread that has not been switched to yet, and its frame
* `StartsKernel`, `StartsUser` — what the first switch to a thread shall lead to

## Main results

* `Waits.step` — other threads leave the frame of a new thread alone
* `first_switch` — the first switch to a kernel thread starts it, and to a user thread exactly when
  its record happened to hold the address of the frame
-/

namespace KyroOS.Context

open KyroOS.Memory KyroOS.Threads KyroOS.Process Transition

/-! ### The steps -/

/-- A call of `schedule` selects `t`. It calls `thread_switch` with the kernel `k` and some
registers, on the stack of the current thread, and `u` is the state after the `ret`. -/
structure Switches (s : Core) (t : Word) (k : Kernel) (u : Core) : Prop where
  schedule : ∃ turns, schedule turns s.kernel = .ok (k, some (s.kernel.currentThread, t))
  switch : ∃ c : Cpu, c.gpr .rdi = s.kernel.currentThread ∧ c.gpr .rsi = t ∧
    48 ≤ (c.gpr .rsp).toNat ∧
    (∀ a ∈ foreignCells s.kernel,
      a.toNat < (c.gpr .rsp).toNat - 48 ∨ (c.gpr .rsp).toNat ≤ a.toNat) ∧
    u = run threadSwitchCode 0 ⟨c, k⟩

/-- What happens on the processor. -/
inductive CoreEvent
  | work
  | setState
  | create
  | schedule
  | switch (t : Word)

/-- One step. Where code in C runs, the registers afterwards are any. -/
inductive CoreStep : Core → CoreEvent → Core → Prop
  | work {s s' : Core} (h : Works s.kernel s'.kernel) : CoreStep s .work s'
  /-- The current thread blocks. -/
  | block {s : Core} (c : Cpu) :
    CoreStep s .setState ⟨c, s.kernel.setState s.kernel.currentThread .blocked⟩
  /-- A thread is woken. -/
  | wake {s : Core} {p : Word} (c : Cpu) : CoreStep s .setState ⟨c, s.kernel.setState p .ready⟩
  | exit {s : Core} (c : Cpu) : CoreStep s .setState ⟨c, threadExit s.kernel⟩
  | createKernel {s s' : Core} {sym : Symbols} {func arg t : Word} {record kstack : Kmalloc}
    (h : CreatesKernel sym func arg record kstack s.kernel t s'.kernel) : CoreStep s .create s'
  | createUser {s s' : Core} {sym : Symbols} {entry pml4 programBreak console t : Word}
    {argv : List (List Byte)} {record kstack : Kmalloc}
    (h : CreatesUser sym entry pml4 programBreak argv console record kstack s.kernel t s'.kernel) :
    CoreStep s .create s'
  /-- `schedule` comes back without a switch. -/
  | schedule {s s' : Core} {turns : ℕ} (h : schedule turns s.kernel = .ok (s'.kernel, none)) :
    CoreStep s .schedule s'
  | switch {s u : Core} {t : Word} {k : Kernel} (h : Switches s t k u) : CoreStep s (.switch t) u

/-- The runs from `thread_init` on. -/
def coreSystem : System Core CoreEvent where
  init s := ∃ k block rsp, k.live = ∅ ∧ threadInit k block rsp = .ok s.kernel
  step := CoreStep

/-- The thread `t` is not switched to. -/
def NotSelected (t : Word) (_ : Core) (e : CoreEvent) : Prop := e ≠ .switch t

/-! ### What a new thread starts with -/

/-- `thread_switch` was called with the kernel `k`, has loaded the stack pointer of `t` from where
`base` was, and has led to `u`: `thread_starter` runs there and takes `func` and `arg` from the
stack, and nothing else. -/
structure StartsKernel (sym : Symbols) (func arg base top t : Word) (k : Kernel) (u : Core) :
    Prop where
  loaded : (k.thread t).rsp = base
  starter : u.cpu.rip = sym.threadStarter
  func : (run threadStarter 0 u).cpu.gpr .rdi = func
  arg : (run threadStarter 0 u).cpu.gpr .rsi = arg
  rsp : (run threadStarter 0 u).cpu.gpr .rsp = top

/-- The same for a user thread: `userspace_thread_starter` runs with the number and the array of
arguments in the registers, and its `iretq` goes to user mode at `entry`. -/
structure StartsUser (sym : Symbols) (entry count array base t : Word) (k : Kernel) (u : Core) :
    Prop where
  loaded : (k.thread t).rsp = base
  starter : u.cpu.rip = sym.userspaceThreadStarter
  argc : u.cpu.gpr .rbx = count
  argv : u.cpu.gpr .r12 = array
  rip : (run userspaceThreadStarter 0 u).cpu.rip = entry
  cs : (run userspaceThreadStarter 0 u).cpu.cs = 0x1B
  rflags : (run userspaceThreadStarter 0 u).cpu.rflags = 0x202
  rsp : (run userspaceThreadStarter 0 u).cpu.gpr .rsp = array
  ss : (run userspaceThreadStarter 0 u).cpu.ss = 0x23

/-! ### A new thread waits -/

/-- The thread `t` has not run yet. Its record holds the stack pointer `sp`, and the words stand
at the top of its stack. -/
structure Waits (k : Kernel) (t block sp : Word) (words : List Word) : Prop where
  live : t ∈ k.live
  current : t ≠ k.currentThread
  state : (k.thread t).state ≠ .dead
  rsp : (k.thread t).rsp = sp
  stack : (k.thread t).stack = block
  zero : block ≠ 0
  fits : block.toNat + kernelStackSize < 2 ^ 64
  short : 8 * words.length ≤ kernelStackSize
  frame : Stands k.kstack (frameAddress block words.length) words

section Waits

variable {k k' : Kernel} {s s' : Core} {t p block sp : Word} {words : List Word} {e : CoreEvent}

/-- A thread waits as long as its record keeps some fields and its stack is left alone. -/
theorem Waits.congr (h : Waits k t block sp words) (hlive : t ∈ k'.live)
    (hcurrent : t ≠ k'.currentThread) (hstate : (k'.thread t).state ≠ .dead)
    (hrsp : (k'.thread t).rsp = (k.thread t).rsp)
    (hstack : (k'.thread t).stack = (k.thread t).stack)
    (hkstack : ∀ a ∈ stackCells block, k'.kstack a = k.kstack a) : Waits k' t block sp words := by
  refine ⟨hlive, hcurrent, hstate, hrsp.trans h.rsp, hstack.trans h.stack, h.zero, h.fits, h.short,
    ?_⟩
  have hbase := toNat_frameAddress h.fits h.short
  have hwords := h.short
  have hfits := h.fits
  refine h.frame.congr (by omega) fun a hle hlt => hkstack a ⟨h.zero, ?_, ?_⟩
  · omega
  · omega

/-- The stack of a waiting thread is one of another thread. -/
theorem Waits.foreign (h : Waits k t block sp words) : stackCells block ⊆ foreignCells k :=
  fun _ ha => ⟨t, h.live, h.current, by rwa [h.stack]⟩

theorem Waits.setState (h : Waits k t block sp words) {state : ThreadState}
    (hstate : state ≠ .dead ∨ p ≠ t) : Waits (k.setState p state) t block sp words := by
  refine h.congr h.live h.current ?_ (setState_fields k p t state Thread.rsp fun _ _ => rfl)
    (setState_fields k p t state Thread.stack fun _ _ => rfl) fun _ _ => rfl
  by_cases hp : t = p
  · subst hp
    rw [Kernel.setState, setThread_self]
    exact hstate.resolve_right (not_not.mpr rfl)
  · rw [Kernel.setState, setThread_of_ne _ _ hp]
    exact h.state

theorem Waits.works (h : Waits k t block sp words) (hw : Works k k') :
    Waits k' t block sp words := by
  have hsame := hw.thread t h.current
  refine h.congr (hw.live ▸ h.live) (hw.currentThread ▸ h.current) (hsame ▸ h.state) (by rw [hsame])
    (by rw [hsame]) fun a ha => hw.kstack a (h.foreign ha)

theorem Waits.searched (h : Waits k t block sp words) (hs : Searched k k') :
    Waits k' t block sp words :=
  h.congr (hs.live t h.live (.inl h.state)) (hs.currentThread ▸ h.current)
    ((hs.field Thread.state (fun _ _ => rfl) t).trans_ne h.state)
    (hs.field Thread.rsp (fun _ _ => rfl) t) (hs.field Thread.stack (fun _ _ => rfl) t)
    fun a _ => by rw [hs.kstack]

/-- Selecting another thread. -/
theorem Waits.select (h : Waits k t block sp words) {old new : Word} (hne : t ≠ new) :
    Waits (Threads.select k old new) t block sp words := by
  refine h.congr (select_live k old new ▸ h.live) hne ?_
    (select_fields k old new t Thread.rsp fun _ _ => rfl)
    (select_fields k old new t Thread.stack fun _ _ => rfl) fun a _ => ?_
  · rw [select_state, if_neg hne]
    split_ifs
    · exact nofun
    · exact h.state
  · unfold Threads.select
    dsimp only
    split_ifs <;> rfl

end Waits

/-! ### Creating threads -/

section Creates

variable {sym : Symbols} {k k' : Kernel} {t func arg entry pml4 programBreak console : Word}
  {argv : List (List Byte)} {record kstack : Kmalloc}

/-- A new user thread waits, with what its record held as its stack pointer. -/
theorem CreatesUser.waits
    (h : CreatesUser sym entry pml4 programBreak argv console record kstack k t k') (ht : t ≠ 0)
    (hcurrent : k.currentThread ∈ k.live) : t = record.block ∧
      Waits k' t kstack.block (k.thread t).rsp (newUserFrame sym entry argv).reverse := by
  have hend := threadCreateUserspace_end h.ok
  cases hend with
  | noRecord => exact absurd rfl ht
  | noPage => exact absurd rfl ht
  | noStack => exact absurd rfl ht
  | created vmm hblock hstack hmap hvmm hheap hlive hsame hkstack hnew hthread =>
    obtain ⟨next, hnew⟩ := hnew
    have hshort : 8 * (newUserFrame sym entry argv).length ≤ kernelStackSize :=
      (by decide : 8 * 12 ≤ kernelStackSize)
    refine ⟨rfl, ?_, ?_, ?_, ?_, ?_, hstack, h.stack.fits, ?_, ?_⟩
    · rw [hlive]
      exact Finset.mem_insert_self _ _
    · rw [hsame]
      rintro heq
      exact h.fresh (heq ▸ hcurrent)
    · rw [hnew]
      exact nofun
    · rw [hnew]
    · rw [hnew]
    · rwa [List.length_reverse]
    · rw [hkstack, copyArguments_snd]
      exact stands_frame h.stack.fits hshort _

/-- A new kernel thread waits, with the address of its frame as its stack pointer. -/
theorem CreatesKernel.waits (h : CreatesKernel sym func arg record kstack k t k') (ht : t ≠ 0)
    (hcurrent : k.currentThread ∈ k.live) : t = record.block ∧
      Waits k' t kstack.block (frameAddress kstack.block 9) (kernelFrame sym func arg).reverse := by
  have hend := threadCreate_end h.ok
  cases hend with
  | noRecord => exact absurd rfl ht
  | noStack => exact absurd rfl ht
  | created hblock hstack hvmm hheap hlive hsame hkstack hnew hthread =>
    obtain ⟨next, hnew⟩ := hnew
    have hshort : 8 * (kernelFrame sym func arg).length ≤ kernelStackSize :=
      (by decide : 8 * 9 ≤ kernelStackSize)
    refine ⟨rfl, ?_, ?_, ?_, ?_, ?_, hstack, h.stack.fits, ?_, ?_⟩
    · rw [hlive]
      exact Finset.mem_insert_self _ _
    · rw [hsame]
      rintro heq
      exact h.fresh (heq ▸ hcurrent)
    · rw [hnew]
      exact nofun
    · rw [hnew]
      exact pushAll_snd _ _ _
    · rw [hnew]
    · rwa [List.length_reverse]
    · rw [hkstack]
      exact stands_frame h.stack.fits hshort _

end Creates

/-! ### Runs -/

section Runs

variable {sym : Symbols} {k k' : Kernel} {s s' u : Core} {t new block sp : Word}
  {words frame : List Word} {e : CoreEvent}

/-- The frame of a new thread is pushed to its own stack. -/
theorem Waits.builds {record stack : Word} (h : Waits k t block sp words)
    (hb : Builds k k' record stack frame) (hne : t ≠ record) (hstack : NewStack k stack)
    (hshort : 8 * frame.length ≤ kernelStackSize) : Waits k' t block sp words := by
  obtain ⟨next, hnext⟩ := hb.thread t hne
  refine h.congr ((hb.live t hne).mpr h.live) (hb.currentThread ▸ h.current) ?_ ?_ ?_ fun a ha => ?_
  · rw [hnext]
    exact h.state
  · rw [hnext]
  · rw [hnext]
  · rcases hb.kstack with hsame | ⟨hzero, hpush⟩
    · rw [hsame]
    · have hnot : a ∉ stackCells stack := fun hin =>
        (hstack.apart t h.live).le_bot ⟨hin, h.stack.symm ▸ ha⟩
      have htop := toNat_stackTop hstack.fits
      rw [hpush]
      refine pushAll_of_outside (by omega) ?_
      by_contra hin
      rw [htop] at hin
      exact hnot ⟨hzero, by omega, by omega⟩

/-- The registers are saved on the stack of the current thread. -/
theorem Switches.run (h : Switches s t k u) : ∃ c : Cpu, ∃ mem : Word → Word,
    u.kernel = { threadSwitch k s.kernel.currentThread t (c.gpr .rsp - 48) with kstack := mem } ∧
      Resumed mem (k.thread t).rsp c u.cpu ∧
      ∀ a ∈ foreignCells s.kernel, mem a = s.kernel.kstack a := by
  obtain ⟨turns, hschedule⟩ := h.schedule
  obtain ⟨-, hne, k₁, hsearched, -, -, -, hk⟩ := schedule_some hschedule
  obtain ⟨c, hrdi, hrsi, hroom, hforeign, rfl⟩ := h.switch
  obtain ⟨hkernel, hresumed⟩ := run_threadSwitchCode ⟨c, k⟩ hrdi hrsi hne
  have hkstack : k.kstack = s.kernel.kstack := by
    rw [hk, ← hsearched.kstack, setTssStack, select]
    dsimp only
    split_ifs <;> rfl
  have hlength : 8 * (savedWords c).length = 48 := rfl
  rw [pushAll_snd] at hkernel
  refine ⟨c, _, hkernel, hresumed, fun a ha => ?_⟩
  show (pushAll k.kstack (c.gpr .rsp) (savedWords c)).1 a = _
  rw [pushAll_of_outside (hlength ▸ hroom) (hlength ▸ hforeign a ha), hkstack]

/-- A switch to another thread. -/
theorem Waits.switch (h : Waits s.kernel t block sp words) (hs : Switches s new k u)
    (hne : t ≠ new) : Waits u.kernel t block sp words := by
  obtain ⟨turns, hschedule⟩ := hs.schedule
  obtain ⟨-, -, k₁, hsearched, -, -, -, hk⟩ := schedule_some hschedule
  obtain ⟨c, mem, hkernel, -, hmem⟩ := hs.run
  have hselect : Waits (Threads.select k₁ s.kernel.currentThread new) t block sp words :=
    (h.searched hsearched).select hne
  have hrecord : k.thread t = (Threads.select k₁ s.kernel.currentThread new).thread t := by
    rw [hk, setTssStack_thread]
  have hthread : u.kernel.thread t = (Threads.select k₁ s.kernel.currentThread new).thread t := by
    rw [hkernel, ← hrecord]
    exact threadSwitch_thread_of_ne k new _ h.current
  refine hselect.congr ?_ ?_ (hthread ▸ hselect.state) (by rw [hthread]) (by rw [hthread])
    fun a ha => ?_
  · rw [hkernel]
    show t ∈ (threadSwitch k _ _ _).live
    rw [threadSwitch_live, hk, setTssStack_live]
    exact hselect.live
  · rw [hkernel]
    show t ≠ (threadSwitch k _ _ _).currentThread
    rw [threadSwitch_currentThread, hk, setTssStack_currentThread]
    exact hne
  · rw [hkernel]
    refine (hmem a (h.foreign ha)).trans ?_
    rw [← hsearched.kstack, Threads.select]
    dsimp only
    split_ifs <;> rfl

/-- The step lemma. -/
theorem Waits.step (h : Waits s.kernel t block sp words) (hsel : NotSelected t s e)
    (hstep : CoreStep s e s') : Waits s'.kernel t block sp words := by
  cases hstep with
  | work hw => exact h.works hw
  | block c => exact h.setState (.inl (by decide))
  | wake c => exact h.setState (.inl (by decide))
  | exit c => exact h.setState (.inr h.current.symm)
  | createKernel hc =>
    refine h.builds hc.builds ?_ hc.stack (by decide : 8 * 9 ≤ kernelStackSize)
    rintro rfl
    exact hc.fresh h.live
  | createUser hc =>
    refine h.builds hc.builds ?_ hc.stack (by decide : 8 * 12 ≤ kernelStackSize)
    rintro rfl
    exact hc.fresh h.live
  | schedule hok =>
    obtain ⟨k₁, hsearched, hk | hk⟩ := schedule_none hok
    · rw [hk]
      exact h.searched hsearched
    · rw [hk]
      exact (h.searched hsearched).select h.current
  | switch hs =>
    refine h.switch hs ?_
    rintro rfl
    exact hsel rfl

/-- The run lemma. -/
theorem Waits.run (h : Waits s.kernel t block sp words)
    (hrun : coreSystem.RunsTo (NotSelected t) s s') : Waits s'.kernel t block sp words :=
  hrun.preserves (I := fun s => Waits s.kernel t block sp words)
    (fun _ _ _ hI hC hstep => hI.step hC hstep) h

/-- The current thread has a record. -/
theorem currentThread_mem (h : coreSystem.Reachable s) :
    s.kernel.currentThread ∈ s.kernel.live := by
  refine h.invariant (I := fun s => s.kernel.currentThread ∈ s.kernel.live) ?_ ?_
  · rintro s ⟨k, block, rsp, -, hinit⟩
    rw [threadInit] at hinit
    split_ifs at hinit
    rw [← Except.ok.inj hinit]
    exact Finset.mem_insert_self _ _
  · intro s e s' hI _ hstep
    cases hstep with
    | work hw => rwa [hw.currentThread, hw.live]
    | block c => exact hI
    | wake c => exact hI
    | exit c => exact hI
    | createKernel hc =>
      have hb := hc.builds
      rw [hb.currentThread, hb.live _ fun heq => hc.fresh (heq ▸ hI)]
      exact hI
    | createUser hc =>
      have hb := hc.builds
      rw [hb.currentThread, hb.live _ fun heq => hc.fresh (heq ▸ hI)]
      exact hI
    | schedule hok =>
      obtain ⟨k₁, hsearched, hk | hk⟩ := schedule_none hok
      · rw [hk, hsearched.currentThread]
        exact hsearched.live _ hI (.inr rfl)
      · rw [hk, select_currentThread, select_live]
        exact hsearched.live _ hI (.inr rfl)
    | @switch _ t k hs =>
      obtain ⟨turns, hschedule⟩ := hs.schedule
      obtain ⟨-, -, k₁, -, hlive, -, -, hk⟩ := schedule_some hschedule
      obtain ⟨c, mem, hkernel, -, -⟩ := hs.run
      rw [hkernel]
      show (threadSwitch k _ _ _).currentThread ∈ (threadSwitch k _ _ _).live
      rw [threadSwitch_currentThread, threadSwitch_live, hk, setTssStack_currentThread,
        setTssStack_live, select_currentThread, select_live]
      exact hlive

/-- At the first switch to a thread its stack pointer is still the one of its record, and its frame
stands where it was built. -/
theorem Waits.selected (h : Waits s.kernel t block sp words) (hs : Switches s t k u) :
    (k.thread t).rsp = sp ∧ (∃ c, Resumed u.kernel.kstack sp c u.cpu) ∧
      Stands u.kernel.kstack (frameAddress block words.length) words := by
  obtain ⟨turns, hschedule⟩ := hs.schedule
  obtain ⟨-, -, k₁, hsearched, -, -, -, hk⟩ := schedule_some hschedule
  obtain ⟨c, mem, hkernel, hresumed, hmem⟩ := hs.run
  have hrsp : (k.thread t).rsp = sp := by
    rw [hk, setTssStack_thread, select_fields _ _ _ _ Thread.rsp fun _ _ => rfl]
    exact (hsearched.field Thread.rsp (fun _ _ => rfl) t).trans h.rsp
  have hkstack : u.kernel.kstack = mem := by rw [hkernel]
  have hbase := toNat_frameAddress h.fits h.short
  have hshort := h.short
  have hfits := h.fits
  rw [hkstack]
  refine ⟨hrsp, ⟨c, hrsp ▸ hresumed⟩, h.frame.congr (by omega) fun a hle hlt =>
    hmem a (h.foreign ⟨h.zero, ?_, ?_⟩)⟩
  · omega
  · omega

end Runs

/-! ### The first switch -/

section FirstSwitch

variable {sym : Symbols} {k k' : Kernel} {s s₀ s₁ u : Core} {c c' : Cpu}
  {t func arg entry pml4 programBreak console block : Word} {argv : List (List Byte)}
  {record kstack : Kmalloc}

/-- The frame of `thread_create` starts the thread. -/
theorem startsKernel_of_frame (hloaded : (k.thread t).rsp = frameAddress block 9)
    (hresumed : Resumed u.kernel.kstack (frameAddress block 9) c u.cpu)
    (hframe : Stands u.kernel.kstack (frameAddress block 9) (kernelFrame sym func arg).reverse) :
    StartsKernel sym func arg (frameAddress block 9) (stackTop block) t k u := by
  have hsplit : (kernelFrame sym func arg).reverse =
      restoredOrder.map (fun _ => 0) ++ [sym.threadStarter] ++ [func, arg] := rfl
  obtain ⟨hsaved, hrest⟩ := stands_append.mp (hsplit ▸ hframe)
  have hrsp : u.cpu.gpr .rsp = frameAddress block 9 + 56 := hresumed.rsp
  have hpops := run_pops [.rdi, .rsi] (by decide) (by decide) u
  have hvalues := hpops.values (fun r => if r = .rdi then func else arg) (hrsp ▸ hrest)
  refine ⟨hloaded, (hresumed.values _ _ hsaved).2, hvalues .rdi (by simp), hvalues .rsi (by simp),
    hpops.rsp.trans ?_⟩
  rw [hrsp, frameAddress, BitVec.add_assoc]
  exact BitVec.sub_add_cancel ..

/-- The frame of `thread_create_userspace` starts the thread, when `rsp` of its record points to
it. -/
theorem startsUser_of_frame (hloaded : (k.thread t).rsp = frameAddress block 12)
    (hresumed : Resumed u.kernel.kstack (frameAddress block 12) c u.cpu)
    (hframe : Stands u.kernel.kstack (frameAddress block 12)
      (newUserFrame sym entry argv).reverse) :
    StartsUser sym entry (BitVec.ofNat 64 argv.length) (argvAddress argv) (frameAddress block 12) t
      k u := by
  have hsplit : (newUserFrame sym entry argv).reverse =
      restoredOrder.map (fun r => if r = .rbx then BitVec.ofNat 64 argv.length
        else if r = .r12 then argvAddress argv else 0) ++ [sym.userspaceThreadStarter] ++
      [entry, 0x1B, 0x202, argvAddress argv, 0x23] := rfl
  obtain ⟨hsaved, hrest⟩ := stands_append.mp (hsplit ▸ hframe)
  obtain ⟨hregs, hback⟩ := hresumed.values _ _ hsaved
  have hrsp : u.cpu.gpr .rsp = frameAddress block 12 + 56 := hresumed.rsp
  -- the frame of `iretq` is at the stack pointer now
  have hiretq : Stands u.kernel.kstack (u.cpu.gpr .rsp)
      [entry, 0x1B, 0x202, argvAddress argv, 0x23] := hrsp ▸ hrest
  exact ⟨hloaded, hback, hregs .rbx (by decide), hregs .r12 (by decide),
    hiretq.get (i := 0) (by simp), hiretq.get (i := 1) (by simp), hiretq.get (i := 2) (by simp), hiretq.get (i := 3) (by simp),
    hiretq.get (i := 4) (by simp)⟩

/-- The first switch to a thread of `thread_create` starts it with its function and argument. -/
theorem CreatesKernel.starts (h : CreatesKernel sym func arg record kstack s₀.kernel t s₁.kernel)
    (ht : t ≠ 0) (hs₀ : coreSystem.Reachable s₀) (hrun : coreSystem.RunsTo (NotSelected t) s₁ s)
    (hswitch : Switches s t k u) :
    StartsKernel sym func arg (frameAddress kstack.block 9) (stackTop kstack.block) t k u := by
  obtain ⟨-, hwaits⟩ := h.waits ht (currentThread_mem hs₀)
  obtain ⟨hloaded, ⟨c, hresumed⟩, hframe⟩ := (hwaits.run hrun).selected hswitch
  exact startsKernel_of_frame hloaded hresumed hframe

/-- The first switch to a thread of `thread_create_userspace` takes the stack pointer that was in
the record before the call. -/
theorem CreatesUser.starts_iff
    (h : CreatesUser sym entry pml4 programBreak argv console record kstack s₀.kernel t s₁.kernel)
    (ht : t ≠ 0) (hs₀ : coreSystem.Reachable s₀) (hrun : coreSystem.RunsTo (NotSelected t) s₁ s)
    (hswitch : Switches s t k u) :
    StartsUser sym entry (BitVec.ofNat 64 argv.length) (argvAddress argv)
        (frameAddress kstack.block 12) t k u ↔
      (s₀.kernel.thread t).rsp = frameAddress kstack.block 12 := by
  obtain ⟨-, hwaits⟩ := h.waits ht (currentThread_mem hs₀)
  obtain ⟨hloaded, ⟨c, hresumed⟩, hframe⟩ := (hwaits.run hrun).selected hswitch
  constructor
  · exact fun hstarts => hloaded.symm.trans hstarts.loaded
  · intro hsp
    rw [hsp] at hloaded hresumed
    exact startsUser_of_frame hloaded hresumed hframe

/-- A kernel thread always starts as its creator asked for, and a user thread exactly when the
record that the heap gave held the address of the frame already. -/
theorem first_switch (hs₀ : coreSystem.Reachable s₀) (ht : t ≠ 0)
    (hrun : coreSystem.RunsTo (NotSelected t) s₁ s) (hswitch : Switches s t k u) :
    (∀ func arg record kstack,
      CreatesKernel sym func arg record kstack s₀.kernel t s₁.kernel →
        StartsKernel sym func arg (frameAddress kstack.block 9) (stackTop kstack.block) t k u) ∧
    ∀ entry pml4 programBreak argv console record kstack,
      CreatesUser sym entry pml4 programBreak argv console record kstack s₀.kernel t s₁.kernel →
        (StartsUser sym entry (BitVec.ofNat 64 argv.length) (argvAddress argv)
            (frameAddress kstack.block 12) t k u ↔
          (s₀.kernel.thread t).rsp = frameAddress kstack.block 12) :=
  ⟨fun _ _ _ _ h => h.starts ht hs₀ hrun hswitch,
    fun _ _ _ _ _ _ _ h => h.starts_iff ht hs₀ hrun hswitch⟩

/-- The only thread of the ring is switched to. -/
theorem schedule_alone (hqueue : k.readyQueue = t) (hnext : k.next t = t) (ht : t ∈ k.live)
    (hcurrent : k.currentThread ∈ k.live) (hzero : 0 ∉ k.live)
    (hready : (k.thread t).state = .ready) (hne : k.currentThread ≠ t) : schedule 1 k =
      .ok (setTssStack (select k k.currentThread t) t, some (k.currentThread, t)) := by
  have hcurr : (searchStart k).curr = t := by
    rw [searchStart, hqueue]
    exact hnext
  have hsearch : searchFrom k 1 = ({ searchStart k with chosen := (searchStart k).curr }, .ended) :=
    search_done (turn_ready (s := searchStart k) k.currentThread (hcurr ▸ ht) (hcurr ▸ hready))
  have hcurrent₀ : k.currentThread ≠ 0 := fun h0 => hzero (h0 ▸ hcurrent)
  have hqueue₀ : k.readyQueue ≠ 0 := fun h0 => hzero (h0 ▸ hqueue.symm ▸ ht)
  unfold schedule
  rw [if_neg (not_or.mpr ⟨hcurrent₀, hqueue₀⟩), if_neg (not_not.mpr (hqueue.symm ▸ ht)), hsearch,
    hcurr]
  exact dispatch_switch ht hcurrent hready hne

/-- The registers when the first thread of this machine calls `thread_switch`. -/
def callingCpu : Cpu where
  gpr r := if r = .rdi then 0x1000 else if r = .rsi then 0x2000 else 0x8000
  rip := 0
  cs := 0x08
  rflags := 0x2
  ss := 0

/-- The machine after `thread_init`, with a heap that gives out clear blocks. -/
def bootCore : Core := ⟨callingCpu, (threadInit bigKernel 0x1000 0).toOption.getD bigKernel⟩

theorem init_bootCore : coreSystem.init bootCore := ⟨bigKernel, 0x1000, 0, rfl, rfl⟩

/-- The first thread has no stack of the heap. -/
theorem newStack_bootCore : NewStack bootCore.kernel 0x10000 where
  fits := by decide
  apart := by
    intro p hp
    have hlive : bootCore.kernel.live = {0x1000} := by decide
    rw [hlive, Finset.mem_singleton] at hp
    subst hp
    exact Set.disjoint_left.mpr fun a _ ha => ha.1 rfl

/-- A program is started on that machine, and its thread is switched to. -/
theorem exists_first_switch : ∃ s₁ k u,
    CreatesUser ⟨0x400, 0x500⟩ 0x400000 0xFFFF800000002000 0x400001 [] 0 ⟨0x2000, none⟩
      ⟨0x10000, none⟩ bootCore.kernel 0x2000 s₁.kernel ∧ Switches s₁ 0x2000 k u := by
  obtain ⟨vmm, hmap, -⟩ := mapUserStack_room (r := 0xFFFF800000002000) (n := 1022)
    (stackPages userStackStart) bigVmm_inv.reserves (by
      rw [stackPages, List.length_map, List.length_range]
      exact bigVmm_room)
  -- the new thread is alone on the ring
  obtain ⟨k, hadd, hqueue, hnext, hlive, hcurrent, hready, hstack⟩ : ∃ k, schedulerAddThread
      (newUser ⟨0x400, 0x500⟩ bootCore.kernel 0x400000 0xFFFF800000002000 0x400001 [] 0
        ⟨0x2000, none⟩ ⟨0x10000, none⟩ vmm) 0x2000 = .ok k ∧
      k.readyQueue = 0x2000 ∧ k.next 0x2000 = 0x2000 ∧ k.live = {0x2000, 0x1000} ∧
      k.currentThread = 0x1000 ∧ (k.thread 0x2000).state = .ready ∧
      (k.thread 0x2000).stack = 0x10000 :=
    ⟨_, (if_neg (by decide)).trans (if_pos rfl), rfl, rfl, rfl, rfl, rfl, rfl⟩
  have hcreate : threadCreateUserspace ⟨0x400, 0x500⟩ bootCore.kernel 0x400000 0xFFFF800000002000
      0x400001 [] 0 ⟨0x2000, none⟩ ⟨0x10000, none⟩ = .ok (k, 0x2000) :=
    threadCreateUserspace_of_mapped (by decide) (by decide) hmap hadd
  have hschedule := schedule_alone hqueue hnext (by simp [hlive]) (by simp [hlive, hcurrent])
    (by rw [hlive]; decide) hready (by rw [hcurrent]; decide)
  refine ⟨⟨callingCpu, k⟩, _, _, ⟨by decide, newStack_bootCore, hcreate⟩, ⟨1, hschedule⟩,
    callingCpu, hcurrent.symm, rfl, by decide, ?_, rfl⟩
  -- the first thread calls from its own stack
  rintro a ⟨p, hp, hne, ha⟩
  have hp' : p = 0x2000 := by
    rw [hlive, Finset.mem_insert, Finset.mem_singleton] at hp
    exact hp.resolve_right (hcurrent ▸ hne)
  subst hp'
  rw [hstack] at ha
  exact .inr ((by decide : (0x8000 : ℕ) ≤ 0x10000).trans ha.2.1)

/-- The record of that thread held no stack pointer. -/
theorem not_startsUser : ¬ ∀ sym entry pml4 programBreak argv console record kstack s₀ s₁ s t k u,
    coreSystem.Reachable s₀ → t ≠ 0 →
    CreatesUser sym entry pml4 programBreak argv console record kstack s₀.kernel t s₁.kernel →
    coreSystem.RunsTo (NotSelected t) s₁ s → Switches s t k u →
    StartsUser sym entry (BitVec.ofNat 64 argv.length) (argvAddress argv)
      (frameAddress kstack.block 12) t k u := by
  intro hall
  obtain ⟨s₁, k, u, hcreate, hswitch⟩ := exists_first_switch
  have hstarts := hall _ _ _ _ _ _ _ _ bootCore s₁ s₁ _ k u ⟨_, init_bootCore, .refl⟩ (by decide)
    hcreate .refl hswitch
  have hiff := hcreate.starts_iff (by decide) ⟨_, init_bootCore, .refl⟩ .refl hswitch
  have hrecord := hiff.mp hstarts
  exact absurd hrecord (by decide)

/-- The first switch to the thread of that program. -/
theorem first_switch_boot : ∃ s₁ k u, Switches s₁ 0x2000 k u ∧
    (StartsUser ⟨0x400, 0x500⟩ 0x400000 0 (argvAddress []) (frameAddress 0x10000 12) 0x2000 k u ↔
      (bootCore.kernel.thread 0x2000).rsp = frameAddress 0x10000 12) := by
  obtain ⟨s₁, k, u, hcreate, hswitch⟩ := exists_first_switch
  exact ⟨s₁, k, u, hswitch, (first_switch ⟨_, init_bootCore, .refl⟩ (by decide) .refl hswitch).2
    _ _ _ _ _ _ _ hcreate⟩

end FirstSwitch

end KyroOS.Context

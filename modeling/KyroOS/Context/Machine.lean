import KyroOS.Context.Frames
import KyroOS.Context.NewThreads
import KyroOS.Lib.Transition

/-!
# Threads that are interrupted and switched

Threads run on one processor. They are interrupted, make system calls, and are switched by
`schedule` and `thread_switch`, any number of times and nested in any way. Each thread writes to
its own stack only, below what is saved there. What was saved on the stacks is recorded beside the
state, for the statements only: no step depends on it but in where the running code may write.

## Main definitions

* `Machine` — the state, with the record of what was saved
* `MachineStep`, `machineSystem` — the steps, and their runs from `thread_init` on
* `MachineInv` — what was saved is on the stacks, and CR3 is that of the running thread
* `SameThreads` — what code in C leaves alone in the records of the threads

## Main results

* `MachineInv.sameThreads` — the code of the running thread keeps the invariant
* `MachineInv.create` — new threads keep it
-/

namespace KyroOS.Context

open KyroOS.Memory KyroOS.Threads Transition

/-- From where to where the stack of a thread goes. The first thread has the stack that the machine
was started with. -/
def stackRange (boot : ℕ × ℕ) (stack : Word) : ℕ × ℕ :=
  if stack = 0 then boot else (stack.toNat, stack.toNat + kernelStackSize)

/-- The state, and what is saved on the stack of each thread. -/
structure Machine where
  core : Core
  frames : Word → List Frame
  /-- The thread that is about to call `thread_switch`: `schedule` has made another one current. -/
  leaving : Option Word

namespace Machine

variable (boot : ℕ × ℕ) (m : Machine)

/-- The thread whose code the processor runs. -/
def running : Word := m.leaving.getD m.core.kernel.currentThread

/-- The running thread is not in a call of `schedule` that has selected a thread, and not on its way
back from an interrupt. -/
def Working : Prop := m.leaving = none ∧ ¬ Exiting (m.frames m.running)

/-- The stack of a thread. -/
def range (p : Word) : ℕ × ℕ := stackRange boot (m.core.kernel.thread p).stack

/-- From the memory of the stacks to `mem` the running code has written on its own stack, below what
is saved there, or to the saved `rax` of the system call that it works for. -/
def OwnWrites (mem : Word → Word) : Prop :=
  ∀ a, mem a ≠ m.core.kernel.kstack a →
    (m.range boot m.running).1 ≤ a.toNat ∧ a.toNat < (m.range boot m.running).2 ∧
      ¬ KeptCell (m.range boot m.running).2 (m.frames m.running) a

/-- The address is on the stack of the running thread and not above what is saved there, and there
are `n` bytes below it. -/
def Room (n sp : ℕ) : Prop :=
  (m.range boot m.running).1 + n ≤ sp ∧
    sp ≤ limit (m.range boot m.running).2 (m.frames m.running)

end Machine

/-! ### The steps -/

/-- What happens on the processor. -/
inductive MachineEvent
  | work
  | setState
  | create
  | interrupt (syscall : Bool)
  | exit
  | return
  | schedule
  /-- `thread_switch` is called with these registers, and returns to `back`. -/
  | switch (c : Cpu) (back : Word)

/-- The current thread blocks or exits, or a thread is woken. -/
inductive SetsState (k : Kernel) : Kernel → Prop
  | block : SetsState k (k.setState k.currentThread .blocked)
  | wake (p : Word) : SetsState k (k.setState p .ready)
  | exit : SetsState k (threadExit k)

/-- A block for a stack is not in the memory that the machine was started with. -/
def OffBoot (boot : ℕ × ℕ) (stack : Word) : Prop :=
  stack ≠ 0 → boot.2 ≤ stack.toNat ∨ stack.toNat + kernelStackSize ≤ boot.1

/-- One step. -/
inductive MachineStep (boot : ℕ × ℕ) (m : Machine) : MachineEvent → Machine → Prop
  /-- The code of the running thread. It is in user mode only when nothing is saved. -/
  | work {core : Core} (hwork : m.Working) (hw : Works m.core.kernel core.kernel)
    (hhdm : core.kernel.vmm.hhdm = m.core.kernel.vmm.hhdm)
    (hown : m.OwnWrites boot core.kernel.kstack)
    (huser : core.cpu.User →
      m.frames m.running = [] ∧ (m.core.kernel.thread m.running).stack ≠ 0) :
    MachineStep boot m .work { m with core }
  | setState {k : Kernel} (hwork : m.Working) (h : SetsState m.core.kernel k) :
    MachineStep boot m .setState { m with core := ⟨m.core.cpu, k⟩ }
  | createKernel {k : Kernel} {sym : Symbols} {func arg t : Word} {record kstack : Kmalloc}
    (hwork : m.Working)
    (h : CreatesKernel sym func arg record kstack m.core.kernel t k)
    (hboot : OffBoot boot kstack.block) :
    MachineStep boot m .create
      ⟨⟨m.core.cpu, k⟩, Function.update m.frames record.block [], none⟩
  | createUser {k : Kernel} {sym : Symbols} {entry pml4 programBreak console t : Word}
    {argv : List (List Byte)} {record kstack : Kmalloc} (hwork : m.Working)
    (h : CreatesUser sym entry pml4 programBreak argv console record kstack m.core.kernel t k)
    (hboot : OffBoot boot kstack.block) :
    MachineStep boot m .create
      ⟨⟨m.core.cpu, k⟩, Function.update m.frames record.block [], none⟩
  /-- An IRQ is delivered, or the thread makes a system call. -/
  | interrupt {syscall : Bool} {number : Word} (hleaving : m.leaving = none)
    (henabled : syscall = false → m.core.cpu.Enabled)
    (hwork : syscall = true → ¬ Exiting (m.frames m.running))
    (hroom : ¬ m.core.cpu.User → m.Room boot 191 (m.core.cpu.gpr .rsp).toNat) :
    MachineStep boot m (.interrupt syscall)
      ⟨run (entryCode number) 0 m.core.interrupt,
        Function.update m.frames m.running
          (.interrupted syscall (m.core.interruptStack - 176) m.core.cpu 0 :: m.frames m.running),
        none⟩
  /-- An instruction of the way back. The handler has come back with the stack pointer that it was
  called with. -/
  | exit {syscall : Bool} {base : Word} {c : Cpu} {n : ℕ} {rest : List Frame} {i : Instr}
    (hleaving : m.leaving = none)
    (hframes : m.frames m.running = .interrupted syscall base c n :: rest)
    (hrsp : n = 0 → m.core.cpu.gpr .rsp = base)
    (hcode : (exitCode syscall)[n]? = some i) (hne : i ≠ .iretq) :
    MachineStep boot m .exit
      ⟨m.core.exec i,
        Function.update m.frames m.running (.interrupted syscall base c (n + 1) :: rest), none⟩
  | return {syscall : Bool} {base : Word} {c : Cpu} {n : ℕ} {rest : List Frame}
    (hleaving : m.leaving = none)
    (hframes : m.frames m.running = .interrupted syscall base c n :: rest)
    (hcode : (exitCode syscall)[n]? = some .iretq) :
    MachineStep boot m .return
      ⟨m.core.exec .iretq, Function.update m.frames m.running rest, none⟩
  /-- `schedule` comes back without a switch. -/
  | schedule {k : Kernel} {turns : ℕ} (hwork : m.Working)
    (hkernel : ¬ m.core.cpu.User) (hok : schedule turns m.core.kernel = .ok (k, none)) :
    MachineStep boot m .schedule { m with core := ⟨m.core.cpu, k⟩ }
  /-- `schedule` has selected a thread. -/
  | select {k : Kernel} {turns : ℕ} {old new : Word} (hwork : m.Working)
    (hkernel : ¬ m.core.cpu.User)
    (hok : schedule turns m.core.kernel = .ok (k, some (old, new))) :
    MachineStep boot m .schedule ⟨⟨m.core.cpu, k⟩, m.frames, some old⟩
  /-- `thread_switch`, called with the registers `c` and the stack `mem`. -/
  | switch {old : Word} {c : Cpu} {mem : Word → Word} (hleaving : m.leaving = some old)
    (hkernel : ¬ c.User) (hrdi : c.gpr .rdi = old)
    (hrsi : c.gpr .rsi = m.core.kernel.currentThread) (hown : m.OwnWrites boot mem)
    (hroom : m.Room boot 56 ((c.gpr .rsp).toNat + 8)) :
    MachineStep boot m (.switch c (mem (c.gpr .rsp)))
      ⟨run threadSwitchCode 0 ⟨c, { m.core.kernel with kstack := mem }⟩,
        Function.update
          (Function.update m.frames old (.switched c (mem (c.gpr .rsp)) :: m.frames old))
          m.core.kernel.currentThread (m.frames m.core.kernel.currentThread).tail,
        none⟩

/-- The runs from `thread_init` on. -/
def machineSystem (boot : ℕ × ℕ) : System Machine MachineEvent where
  init m := (∃ k block rsp, k.live = ∅ ∧ threadInit k block rsp = .ok m.core.kernel) ∧
    ¬ m.core.cpu.User ∧ (∀ p, m.frames p = []) ∧ m.leaving = none ∧
    boot.1 ≤ boot.2 ∧ boot.2 < 2 ^ 64
  step := MachineStep boot

/-! ### The invariant -/

/-- What was saved is on the stacks, and CR3 is that of the running thread. -/
structure MachineInv (boot : ℕ × ℕ) (m : Machine) : Prop where
  running : m.running ∈ m.core.kernel.live
  current : m.core.kernel.currentThread ∈ m.core.kernel.live
  fits : ∀ p ∈ m.core.kernel.live, (m.range boot p).1 ≤ (m.range boot p).2 ∧
    (m.range boot p).2 < 2 ^ 64
  apart : ∀ p ∈ m.core.kernel.live, ∀ q ∈ m.core.kernel.live, p ≠ q →
    (m.range boot p).2 ≤ (m.range boot q).1 ∨ (m.range boot q).2 ≤ (m.range boot p).1
  frames : ∀ p ∈ m.core.kernel.live,
    FramesOn m.core.kernel.kstack (m.range boot p).1 (m.range boot p).2 (m.frames p)
  /-- Interrupted user code has a stack of the heap. -/
  owned : ∀ p ∈ m.core.kernel.live, ∀ f ∈ m.frames p, f.User →
    (m.core.kernel.thread p).stack ≠ 0
  /-- The other threads have not run yet, or have been switched away from. -/
  saved : ∀ p ∈ m.core.kernel.live, p ≠ m.running → m.frames p = [] ∨
    ∃ c back rest, m.frames p = .switched c back :: rest ∧
      (m.core.kernel.thread p).rsp = c.gpr .rsp - 48
  user : m.core.cpu.User → m.frames m.running = [] ∧
    (m.core.kernel.thread m.running).stack ≠ 0 ∧ m.leaving = none
  tss : (m.core.kernel.thread m.core.kernel.currentThread).stack ≠ 0 →
    m.core.kernel.tssRsp0 = stackTop (m.core.kernel.thread m.core.kernel.currentThread).stack
  cr3 : m.core.kernel.cr3 =
    m.core.kernel.vmm.virtToPhys (m.core.kernel.thread m.running).pml4
  leaving : ∀ old, m.leaving = some old →
    old ≠ m.core.kernel.currentThread ∧ ¬ Exiting (m.frames old)
  linked : ∀ p ∈ m.core.kernel.live, Linked (m.frames p)
  continues : Continues m.core.cpu (m.frames m.running)

/-- From `k` to `k'` threads may have been freed, and the other records keep what the processor
uses. -/
structure SameThreads (k k' : Kernel) : Prop where
  hhdm : k'.vmm.hhdm = k.vmm.hhdm
  cr3 : k'.cr3 = k.cr3
  tssRsp0 : k'.tssRsp0 = k.tssRsp0
  currentThread : k'.currentThread = k.currentThread
  subset : k'.live ⊆ k.live
  current : k.currentThread ∈ k.live → k.currentThread ∈ k'.live
  stack : ∀ p, (k'.thread p).stack = (k.thread p).stack
  pml4 : ∀ p, (k'.thread p).pml4 = (k.thread p).pml4
  rsp : ∀ p, (k'.thread p).rsp = (k.thread p).rsp

section SameThreads

variable {k k' : Kernel} {old new : Word}

theorem Works.sameThreads (h : Works k k') (hhdm : k'.vmm.hhdm = k.vmm.hhdm) :
    SameThreads k k' := by
  have hfield : ∀ {α : Type} (g : Thread → α),
      (∀ t programBreak fdTable, g { t with programBreak, fdTable } = g t) →
        ∀ p, g (k'.thread p) = g (k.thread p) := by
    intro α g hg p
    by_cases hp : p = k.currentThread
    · obtain ⟨programBreak, fdTable, hown⟩ := h.own
      rw [hp, hown, hg]
    · rw [h.thread p hp]
  exact ⟨hhdm, h.cr3, h.tssRsp0, h.currentThread, h.live.subset, fun hmem => h.live.symm ▸ hmem,
    hfield Thread.stack fun _ _ _ => rfl, hfield Thread.pml4 fun _ _ _ => rfl,
    hfield Thread.rsp fun _ _ _ => rfl⟩

theorem sameThreads_setState (k : Kernel) (p : Word) (state : ThreadState) :
    SameThreads k (k.setState p state) :=
  ⟨rfl, rfl, rfl, rfl, subset_rfl, fun h => h,
    fun q => setState_fields k p q state Thread.stack fun _ _ => rfl,
    fun q => setState_fields k p q state Thread.pml4 fun _ _ => rfl,
    fun q => setState_fields k p q state Thread.rsp fun _ _ => rfl⟩

theorem SetsState.sameThreads (h : SetsState k k') : SameThreads k k' ∧ k'.kstack = k.kstack := by
  cases h with
  | block => exact ⟨sameThreads_setState _ _ _, rfl⟩
  | wake p => exact ⟨sameThreads_setState _ _ _, rfl⟩
  | exit => exact ⟨sameThreads_setState _ _ _, rfl⟩

theorem Searched.sameThreads (h : Searched k k') : SameThreads k k' where
  hhdm := h.hhdm
  cr3 := h.cr3
  tssRsp0 := h.tssRsp0
  currentThread := h.currentThread
  subset := h.subset
  current := fun hmem => h.live _ hmem (.inr rfl)
  stack := h.field Thread.stack fun _ _ => rfl
  pml4 := h.field Thread.pml4 fun _ _ => rfl
  rsp := h.field Thread.rsp fun _ _ => rfl

/-- Selecting a thread, the current thread aside. -/
theorem select_machine (k : Kernel) (old new : Word) : (select k old new).vmm = k.vmm ∧
    (select k old new).cr3 = k.cr3 ∧ (select k old new).tssRsp0 = k.tssRsp0 ∧
    (select k old new).kstack = k.kstack := by
  unfold select
  dsimp only
  split_ifs <;> exact ⟨rfl, rfl, rfl, rfl⟩

/-- A thread that goes on running. -/
theorem sameThreads_select (k : Kernel) (old : Word) :
    SameThreads k (select k old k.currentThread) := by
  obtain ⟨hvmm, hcr3, htss, -⟩ := select_machine k old k.currentThread
  exact ⟨by rw [hvmm], hcr3, htss, rfl, (select_live _ _ _).subset,
    fun h => (select_live k old k.currentThread).symm ▸ h,
    fun q => select_fields k old _ q Thread.stack fun _ _ => rfl,
    fun q => select_fields k old _ q Thread.pml4 fun _ _ => rfl,
    fun q => select_fields k old _ q Thread.rsp fun _ _ => rfl⟩

theorem SameThreads.trans {k'' : Kernel} (h : SameThreads k k') (h' : SameThreads k' k'') :
    SameThreads k k'' where
  hhdm := h'.hhdm.trans h.hhdm
  cr3 := h'.cr3.trans h.cr3
  tssRsp0 := h'.tssRsp0.trans h.tssRsp0
  currentThread := h'.currentThread.trans h.currentThread
  subset := h'.subset.trans h.subset
  current := fun hmem => h.currentThread ▸ h'.current (h.currentThread.symm ▸ h.current hmem)
  stack := fun p => (h'.stack p).trans (h.stack p)
  pml4 := fun p => (h'.pml4 p).trans (h.pml4 p)
  rsp := fun p => (h'.rsp p).trans (h.rsp p)

/-- A call of `schedule` that comes back. -/
theorem sameThreads_of_schedule {turns : ℕ} (hok : schedule turns k = .ok (k', none)) :
    SameThreads k k' ∧ k'.kstack = k.kstack := by
  obtain ⟨k₁, hsearched, rfl | rfl⟩ := schedule_none hok
  · exact ⟨hsearched.sameThreads, hsearched.kstack⟩
  · have hselect := sameThreads_select k₁ k.currentThread
    rw [hsearched.currentThread] at hselect
    refine ⟨hsearched.sameThreads.trans hselect, ?_⟩
    rw [(select_machine _ _ _).2.2.2, hsearched.kstack]

end SameThreads

/-! ### The running thread goes on -/

section Step

variable {boot : ℕ × ℕ} {m m' : Machine} {p : Word} {mem : Word → Word} {core : Core}

theorem running_of_none (h : m.leaving = none) : m.running = m.core.kernel.currentThread := by
  rw [Machine.running, h, Option.getD_none]

/-- What is saved stands when the running code has written. -/
theorem MachineInv.frames_own (h : MachineInv boot m) (hown : m.OwnWrites boot mem)
    (hp : p ∈ m.core.kernel.live) :
    FramesOn mem (m.range boot p).1 (m.range boot p).2 (m.frames p) := by
  have hfits := h.fits p hp
  by_cases hrun : p = m.running
  · subst hrun
    refine (h.frames _ hp).keep hfits.2 fun a ha => ?_
    by_contra hne
    exact (hown a hne).2.2 ha
  · have hapart := h.apart p hp m.running h.running hrun
    have hlimit := (h.frames p hp).le_limit hfits.1
    refine (h.frames p hp).congr hfits.2 fun a hle hlt => ?_
    by_contra hne
    have hin := hown a hne
    omega

theorem Machine.OwnWrites.refl (m : Machine) : m.OwnWrites boot m.core.kernel.kstack :=
  fun _ h => absurd rfl h

/-- The running thread stays the same, and writes to its own stack. -/
theorem MachineInv.sameThreads (h : MachineInv boot m) (hwork : m.Working)
    (hs : SameThreads m.core.kernel core.kernel) (hown : m.OwnWrites boot core.kernel.kstack)
    (huser : core.cpu.User →
      m.frames m.running = [] ∧ (m.core.kernel.thread m.running).stack ≠ 0) :
    MachineInv boot { m with core } := by
  have hrange : ∀ p, ({ m with core } : Machine).range boot p = m.range boot p := by
    intro p
    rw [Machine.range, Machine.range, hs.stack p]
  have hrun : ({ m with core } : Machine).running = m.running := by
    rw [Machine.running, Machine.running, hs.currentThread]
  have hcurrent := running_of_none hwork.1
  refine ⟨?_, ?_, fun p hp => ?_, fun p hp q hq => ?_, fun p hp => ?_, fun p hp f hf huserf => ?_,
    fun p hp hne => ?_, fun hu => ?_, fun hstack => ?_, ?_, fun old hold => ?_, fun p hp => ?_, ?_⟩
  · rw [hrun, hcurrent]
    exact hs.current h.current
  · show core.kernel.currentThread ∈ core.kernel.live
    rw [hs.currentThread]
    exact hs.current h.current
  · rw [hrange]
    exact h.fits p (hs.subset hp)
  · rw [hrange, hrange]
    exact h.apart p (hs.subset hp) q (hs.subset hq)
  · rw [hrange]
    exact h.frames_own hown (hs.subset hp)
  · show (core.kernel.thread p).stack ≠ 0
    rw [hs.stack p]
    exact h.owned p (hs.subset hp) f hf huserf
  · show m.frames p = [] ∨ ∃ c back rest, m.frames p = .switched c back :: rest ∧
      (core.kernel.thread p).rsp = c.gpr .rsp - 48
    rw [hs.rsp p]
    exact h.saved p (hs.subset hp) (hrun ▸ hne)
  · obtain ⟨hnil, hzero⟩ := huser hu
    refine ⟨hrun ▸ hnil, ?_, hwork.1⟩
    rw [hrun]
    exact (hs.stack _).trans_ne hzero
  · show core.kernel.tssRsp0 = stackTop (core.kernel.thread core.kernel.currentThread).stack
    have hstack' : (core.kernel.thread core.kernel.currentThread).stack ≠ 0 := hstack
    rw [hs.currentThread, hs.stack] at hstack'
    rw [hs.tssRsp0, hs.currentThread, hs.stack]
    exact h.tss hstack'
  · rw [hrun]
    show core.kernel.cr3 = (core.kernel.thread m.running).pml4 - core.kernel.vmm.hhdm
    rw [hs.cr3, hs.pml4, hs.hhdm]
    exact h.cr3
  · exact absurd (hwork.1.symm.trans hold) nofun
  · exact h.linked p (hs.subset hp)
  · rw [hrun]
    exact continues_of_not_exiting hwork.2

/-! ### New threads -/

/-- A new stack is apart from those in use. -/
theorem NewStack.range_apart {stack : Word} (h : NewStack m.core.kernel stack)
    (hboot : OffBoot boot stack) (hzero : stack ≠ 0) (hp : p ∈ m.core.kernel.live) :
    (m.range boot p).2 ≤ stack.toNat ∨ stack.toNat + kernelStackSize ≤ (m.range boot p).1 := by
  unfold Machine.range stackRange
  by_cases hstack : (m.core.kernel.thread p).stack = 0
  · rw [if_pos hstack]
    exact hboot hzero
  · rw [if_neg hstack]
    by_contra hover
    have hfits := h.fits
    obtain ⟨w, hw⟩ : ∃ w : Word, w = (m.core.kernel.thread p).stack := ⟨_, rfl⟩
    have hdisjoint := Set.disjoint_left.mp (h.apart p hp)
    rw [← hw] at hover hdisjoint hstack
    -- the higher one of the two lower ends is on both
    rcases le_total w.toNat stack.toNat with hle | hle
    · exact hdisjoint ⟨hzero, le_rfl, by simp [kernelStackSize]⟩ ⟨hstack, hle, by omega⟩
    · exact hdisjoint ⟨hzero, hle, by omega⟩ ⟨hstack, le_rfl, by simp [kernelStackSize]⟩

theorem MachineInv.create (h : MachineInv boot m) (hleaving : m.leaving = none) {k : Kernel}
    {block stack : Word} {frame : List Word} (hb : Builds m.core.kernel k block stack frame)
    (hfresh : block ∉ m.core.kernel.live) (hstack : NewStack m.core.kernel stack)
    (hboot : OffBoot boot stack) (hshort : 8 * frame.length ≤ kernelStackSize) :
    MachineInv boot ⟨⟨m.core.cpu, k⟩, Function.update m.frames block [], none⟩ := by
  obtain ⟨m', hm'⟩ : ∃ m' : Machine,
    m' = ⟨⟨m.core.cpu, k⟩, Function.update m.frames block [], none⟩ := ⟨_, rfl⟩
  have hcurrent := running_of_none hleaving
  have hne : ∀ p ∈ m.core.kernel.live, p ≠ block := fun p hp heq => hfresh (heq ▸ hp)
  have hfield : ∀ {α : Type} (g : Thread → α), (∀ t next, g { t with next } = g t) →
      ∀ p ≠ block, g (k.thread p) = g (m.core.kernel.thread p) := by
    intro α g hg p hp
    obtain ⟨next, hnext⟩ := hb.thread p hp
    rw [hnext, hg]
  have hold : ∀ p ≠ block, m'.range boot p = m.range boot p := by
    intro p hp
    rw [hm', Machine.range, Machine.range, hfield Thread.stack (fun _ _ => rfl) p hp]
  have hnew : block ∈ k.live → stack ≠ 0 ∧
      m'.range boot block = (stack.toNat, stack.toNat + kernelStackSize) := by
    intro hmem
    obtain ⟨hrecord, hzero⟩ := hb.new hmem
    rw [hm', Machine.range, hrecord, stackRange, if_neg hzero]
    exact ⟨hzero, rfl⟩
  have hframes : ∀ p ≠ block, m'.frames p = m.frames p := by
    intro p hp
    rw [hm']
    exact Function.update_of_ne hp _ _
  have hnone : m'.frames block = [] := by
    rw [hm']
    exact Function.update_self _ _ _
  -- the frame is pushed to the new stack
  have hkstack : ∀ p ∈ m.core.kernel.live, ∀ a : Word, (m.range boot p).1 ≤ a.toNat →
      a.toNat < (m.range boot p).2 → k.kstack a = m.core.kernel.kstack a := by
    intro p hp a hle hlt
    rcases hb.kstack with hsame | ⟨hzero, hpush⟩
    · rw [hsame]
    · have htop := toNat_stackTop hstack.fits
      have hapart := hstack.range_apart hboot hzero hp
      rw [hpush]
      exact pushAll_of_outside (by omega) (by omega)
  have hrun : m'.running = m.running := by
    rw [hcurrent, ← hb.currentThread, hm']
    rfl
  have hk : m'.core.kernel = k := by rw [hm']
  have hlive : ∀ p ∈ k.live, p ≠ block → p ∈ m.core.kernel.live :=
    fun p hp hpb => (hb.live p hpb).mp hp
  have hcurrent' : k.currentThread ∈ m.core.kernel.live := hb.currentThread.symm ▸ h.current
  have hrunning := hne _ h.running
  rw [← hm']
  refine ⟨?_, ?_, fun p hp => ?_, fun p hp q hq hpq => ?_, fun p hp => ?_,
    fun p hp f hf huserf => ?_, fun p hp hpr => ?_, fun hu => ?_, ?_, ?_, fun old hold => ?_,
    fun p hp => ?_, ?_⟩
  · rw [hrun, hk, hb.live _ hrunning]
    exact h.running
  · rw [hk, hb.live _ (hne _ hcurrent')]
    exact hcurrent'
  · rw [hk] at hp
    by_cases hpb : p = block
    · subst hpb
      rw [(hnew hp).2]
      exact ⟨Nat.le_add_right _ _, hstack.fits⟩
    · rw [hold p hpb]
      exact h.fits p (hlive p hp hpb)
  · rw [hk] at hp hq
    by_cases hpb : p = block
    · subst hpb
      obtain ⟨hzero, hrange⟩ := hnew hp
      rw [hrange, hold q hpq.symm]
      exact (hstack.range_apart hboot hzero (hlive q hq hpq.symm)).symm
    · by_cases hqb : q = block
      · subst hqb
        obtain ⟨hzero, hrange⟩ := hnew hq
        rw [hrange, hold p hpb]
        exact hstack.range_apart hboot hzero (hlive p hp hpb)
      · rw [hold p hpb, hold q hqb]
        exact h.apart p (hlive p hp hpb) q (hlive q hq hqb) hpq
  · rw [hk] at hp ⊢
    by_cases hpb : p = block
    · subst hpb
      rw [hnone]
      trivial
    · have hp' := hlive p hp hpb
      have hlimit := (h.frames p hp').le_limit (h.fits p hp').1
      rw [hold p hpb, hframes p hpb]
      exact (h.frames p hp').congr (h.fits p hp').2 fun a hle hlt =>
        hkstack p hp' a (hlimit.trans hle) hlt
  · rw [hk] at hp ⊢
    by_cases hpb : p = block
    · rw [hpb, hnone] at hf
      exact absurd hf List.not_mem_nil
    · rw [hframes p hpb] at hf
      rw [hfield Thread.stack (fun _ _ => rfl) p hpb]
      exact h.owned p (hlive p hp hpb) f hf huserf
  · rw [hk] at hp ⊢
    by_cases hpb : p = block
    · rw [hpb]
      exact .inl hnone
    · rw [hframes p hpb, hfield Thread.rsp (fun _ _ => rfl) p hpb]
      exact h.saved p (hlive p hp hpb) (hrun ▸ hpr)
  · obtain ⟨hnil, hzero, -⟩ := h.user (by rwa [hm'] at hu)
    rw [hrun, hk, hframes _ hrunning, hfield Thread.stack (fun _ _ => rfl) _ hrunning, hm']
    exact ⟨hnil, hzero, rfl⟩
  · rw [hk, hb.currentThread, hb.tssRsp0,
      hfield Thread.stack (fun _ _ => rfl) _ (hne _ h.current)]
    exact h.tss
  · rw [hrun, hk, hb.cr3, Vmm.virtToPhys, hb.hhdm,
      hfield Thread.pml4 (fun _ _ => rfl) _ hrunning]
    exact h.cr3
  · rw [hm'] at hold
    cases hold
  · rw [hk] at hp
    by_cases hpb : p = block
    · rw [hpb, hnone]
      trivial
    · rw [hframes p hpb]
      exact h.linked p (hlive p hp hpb)
  · rw [hrun, hframes _ hrunning, hm']
    exact h.continues

end Step

end KyroOS.Context

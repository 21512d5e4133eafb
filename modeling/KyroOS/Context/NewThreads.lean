import KyroOS.Context.Schedule
import KyroOS.Threads.UserSpace
import Mathlib.Order.CompletePartialOrder

/-!
# New threads and their stacks

A kernel stack is a block of the heap of 8 KiB. `thread_create` and `thread_create_userspace` push a
frame at its upper end, for the first `thread_switch` to the new thread.

## Main definitions

* `stackCells`, `NewStack` — the cells of a stack, and a block for a new one
* `CreatesKernel`, `CreatesUser` — calls of the two functions
* `argvAddress`, `frameAddress` — where the arguments and the frame are

## Main results

* `CreatesKernel.builds`, `CreatesUser.builds` — what a call leaves alone
* `stands_frame` — the frame stands at its address
-/

namespace KyroOS.Context

open KyroOS.Memory KyroOS.Threads

/-! ### Stacks -/

/-- The cells of the kernel stack at `stack`. The first thread has none of the heap. -/
def stackCells (stack : Word) : Set Word :=
  {a | stack ≠ 0 ∧ stack.toNat ≤ a.toNat ∧ a.toNat < stack.toNat + kernelStackSize}

/-- The cells of the stacks of other threads than the current one. -/
def foreignCells (k : Kernel) : Set Word :=
  {a | ∃ p ∈ k.live, p ≠ k.currentThread ∧ a ∈ stackCells (k.thread p).stack}

/-- A block for a new stack, which overlaps no stack in use. -/
structure NewStack (k : Kernel) (stack : Word) : Prop where
  fits : stack.toNat + kernelStackSize < 2 ^ 64
  apart : ∀ p ∈ k.live, Disjoint (stackCells stack) (stackCells (k.thread p).stack)

/-! ### What threads do -/

/-- What the code of the current thread does between calls of the scheduler: it changes the memory,
its own record and its own stack. -/
structure Works (k k' : Kernel) : Prop where
  cr3 : k'.cr3 = k.cr3
  tssRsp0 : k'.tssRsp0 = k.tssRsp0
  live : k'.live = k.live
  readyQueue : k'.readyQueue = k.readyQueue
  currentThread : k'.currentThread = k.currentThread
  nextThreadId : k'.nextThreadId = k.nextThreadId
  thread : ∀ p ≠ k.currentThread, k'.thread p = k.thread p
  own : ∃ programBreak fdTable, k'.thread k.currentThread =
    { k.thread k.currentThread with programBreak, fdTable }
  kstack : ∀ a ∈ foreignCells k, k'.kstack a = k.kstack a

/-- A call of `thread_create` that returns `t`. -/
structure CreatesKernel (sym : Symbols) (func arg : Word) (record kstack : Kmalloc) (k : Kernel)
    (t : Word) (k' : Kernel) : Prop where
  fresh : record.block ∉ k.live
  stack : NewStack k kstack.block
  ok : threadCreate sym k func arg record kstack = .ok (k', t)

/-- A call of `thread_create_userspace` that returns `t`. -/
structure CreatesUser (sym : Symbols) (entry pml4 programBreak : Word) (argv : List (List Byte))
    (console : Word) (record kstack : Kmalloc) (k : Kernel) (t : Word) (k' : Kernel) : Prop where
  fresh : record.block ∉ k.live
  stack : NewStack k kstack.block
  ok : threadCreateUserspace sym k entry pml4 programBreak argv console record kstack = .ok (k', t)

/-- The user stack pointer below the argument strings. -/
def stringsEnd (sp : Word) : List (List Byte) → Word
  | [] => sp
  | arg :: argv => stringsEnd (alignStack (sp - BitVec.ofNat 64 (arg.length + 1))) argv

/-- The user address of the array of arguments. -/
def argvAddress (argv : List (List Byte)) : Word :=
  alignStack (stringsEnd userStackTop argv - BitVec.ofNat 64 ((argv.length + 1) * 8))

/-- The address of a frame of `n` words on the stack at `stack`. -/
def frameAddress (stack : Word) (n : ℕ) : Word := stackTop stack - BitVec.ofNat 64 (8 * n)

/-! ### Addresses -/

section Addresses

variable {stack : Word} {frame : List Word}

theorem toNat_stackTop (h : stack.toNat + kernelStackSize < 2 ^ 64) :
    (stackTop stack).toNat = stack.toNat + kernelStackSize := by
  have hsize : (BitVec.ofNat 64 kernelStackSize).toNat = kernelStackSize := by decide
  rw [stackTop, BitVec.toNat_add, hsize, Nat.mod_eq_of_lt h]

theorem toNat_frameAddress {n : ℕ} (h : stack.toNat + kernelStackSize < 2 ^ 64)
    (hn : 8 * n ≤ kernelStackSize) :
    (frameAddress stack n).toNat = stack.toNat + kernelStackSize - 8 * n := by
  have htop := toNat_stackTop h
  rw [kernelStackSize] at *
  rw [frameAddress, BitVec.toNat_sub_of_le, htop, BitVec.toNat_ofNat, Nat.mod_eq_of_lt (by omega)]
  rw [BitVec.le_def, htop, BitVec.toNat_ofNat, Nat.mod_eq_of_lt (by omega)]
  omega

/-- What was pushed stands at the address of the frame. -/
theorem stands_frame (hfits : stack.toNat + kernelStackSize < 2 ^ 64)
    (hshort : 8 * frame.length ≤ kernelStackSize) (mem : Word → Word) :
    Stands (pushAll mem (stackTop stack) frame).1 (frameAddress stack frame.reverse.length)
      frame.reverse := by
  have htop := toNat_stackTop hfits
  have hstands : Stands (pushAll mem (stackTop stack) frame).1
      (pushAll mem (stackTop stack) frame).2 frame.reverse := stands_pushAll mem (by omega)
  rwa [pushAll_snd, ← List.length_reverse] at hstands

end Addresses

/-! ### What creations leave alone -/

section DirectMap

variable {v v' : Vmm} {k : Kernel}

theorem nextTable_hhdm {table next : Word} {i : ℕ} {message : String}
    (h : nextTable v table i message = .ok (v', next)) : v'.hhdm = v.hhdm := by
  unfold nextTable at h
  split at h
  · rw [(Prod.mk.inj (Except.ok.inj h)).1]
  · dsimp only at h
    split_ifs at h
    rw [← (Prod.mk.inj (Except.ok.inj h)).1]
    rfl

theorem vmmMapPage_hhdm {pml4 virt phys flags : Word} (h : vmmMapPage v pml4 virt phys flags = .ok v') :
    v'.hhdm = v.hhdm := by
  obtain ⟨⟨v₁, pdpt⟩, h₁, h⟩ := Outcome.bind_eq_ok.mp h
  obtain ⟨⟨v₂, pd⟩, h₂, h⟩ := Outcome.bind_eq_ok.mp h
  obtain ⟨⟨v₃, pt⟩, h₃, h⟩ := Outcome.bind_eq_ok.mp h
  rw [← Except.ok.inj h]
  exact (nextTable_hhdm h₃).trans ((nextTable_hhdm h₂).trans (nextTable_hhdm h₁))

theorem mapUserStack_hhdm {pml4 : Word} {virts : List Word} {mapped : Bool}
    (h : mapUserStack v pml4 virts = .ok (v', mapped)) : v'.hhdm = v.hhdm := by
  induction virts generalizing v with
  | nil => rw [(Prod.mk.inj (Except.ok.inj h)).1]
  | cons virt virts ih =>
    rw [mapUserStack] at h
    dsimp only at h
    split_ifs at h
    · rw [← (Prod.mk.inj (Except.ok.inj h)).1]
    · obtain ⟨v₁, hmap, h⟩ := Outcome.bind_eq_ok.mp h
      exact (ih h).trans ((vmmMapPage_hhdm hmap).trans rfl)

theorem memcpyLoop_hhdm (v : Vmm) (pml4 : Word) (turns : ℕ) (virt : Word) (src : List Byte) :
    (memcpyLoop v pml4 turns virt src).hhdm = v.hhdm := by
  induction turns generalizing v virt src with
  | zero => rfl
  | succ turns ih =>
    rw [memcpyLoop]
    dsimp only
    split_ifs
    · rfl
    · rfl
    · exact ih _ _ _

theorem copyArguments_hhdm (v : Vmm) (pml4 : Word) (argv : List (List Byte)) :
    (copyArguments v pml4 argv).1.hhdm = v.hhdm := by
  have hstrings : ∀ (sp : Word) (argv : List (List Byte)) (v : Vmm),
      (copyStrings v pml4 sp argv).1.hhdm = v.hhdm := by
    intro sp argv
    induction argv generalizing sp with
    | nil => exact fun v => rfl
    | cons arg argv ih => exact fun v => (ih _ _).trans (memcpyLoop_hhdm _ _ _ _ _)
  exact (memcpyLoop_hhdm _ _ _ _ _).trans (hstrings _ _ _)

theorem kmalloc_hhdm (k : Kernel) (m : Kmalloc) : (k.kmalloc m).vmm.hhdm = k.vmm.hhdm := by
  obtain ⟨-, pmm, hvmm, -⟩ := kmalloc_eq k m
  rw [hvmm]

theorem kmalloc_cr3 (k : Kernel) (m : Kmalloc) : (k.kmalloc m).cr3 = k.cr3 := by
  rw [(kmalloc_eq k m).1]

theorem kmalloc_tssRsp0 (k : Kernel) (m : Kmalloc) : (k.kmalloc m).tssRsp0 = k.tssRsp0 := by
  rw [(kmalloc_eq k m).1]

end DirectMap

/-- What a creation does to the rest: its record is at `block`, and the frame is on the stack at
`stack`. -/
structure Builds (k k' : Kernel) (block stack : Word) (frame : List Word) : Prop where
  hhdm : k'.vmm.hhdm = k.vmm.hhdm
  cr3 : k'.cr3 = k.cr3
  tssRsp0 : k'.tssRsp0 = k.tssRsp0
  currentThread : k'.currentThread = k.currentThread
  live : ∀ p ≠ block, p ∈ k'.live ↔ p ∈ k.live
  thread : ∀ p ≠ block, ∃ next, k'.thread p = { k.thread p with next }
  new : block ∈ k'.live → (k'.thread block).stack = stack ∧ stack ≠ 0
  kstack : k'.kstack = k.kstack ∨
    stack ≠ 0 ∧ k'.kstack = (pushAll k.kstack (stackTop stack) frame).1

section Builds

variable {sym : Symbols} {k k' : Kernel} {t func arg entry pml4 programBreak console : Word}
  {argv : List (List Byte)} {record kstack : Kmalloc} {frame : List Word}

theorem copyStrings_snd (v : Vmm) (pml4 sp : Word) (argv : List (List Byte)) :
    (copyStrings v pml4 sp argv).2.1 = stringsEnd sp argv := by
  induction argv generalizing v sp with
  | nil => rfl
  | cons arg argv ih => exact ih _ _

theorem copyArguments_snd (v : Vmm) (pml4 : Word) (argv : List (List Byte)) :
    (copyArguments v pml4 argv).2 = argvAddress argv := by
  rw [argvAddress, ← copyStrings_snd v pml4]
  rfl

/-- The frame of a user thread. -/
def newUserFrame (sym : Symbols) (entry : Word) (argv : List (List Byte)) : List Word :=
  userFrame sym entry (argvAddress argv) (BitVec.ofNat 64 argv.length)

/-- A call changes the registers of the processor for nobody, and no stack when it fails. -/
theorem createUser_keeps
    (hok : threadCreateUserspace sym k entry pml4 programBreak argv console record kstack =
      .ok (k', t)) :
    k'.cr3 = k.cr3 ∧ k'.tssRsp0 = k.tssRsp0 ∧ (t = 0 → k'.kstack = k.kstack) := by
  unfold threadCreateUserspace at hok
  extract_lets k₁ block stack k₂ at hok
  have hcr3₁ : k₁.cr3 = k.cr3 := kmalloc_cr3 k record
  have htss₁ : k₁.tssRsp0 = k.tssRsp0 := kmalloc_tssRsp0 k record
  have hkstack₁ : k₁.kstack = k.kstack := kmalloc_kstack k record
  by_cases hzero : block = 0
  · rw [if_pos hzero] at hok
    obtain ⟨rfl, -⟩ := Prod.mk.inj (Except.ok.inj hok)
    exact ⟨hcr3₁, htss₁, fun _ => hkstack₁⟩
  rw [if_neg hzero] at hok
  obtain ⟨⟨vmm, mapped⟩, -, hok⟩ := Outcome.bind_eq_ok.mp hok
  cases mapped with
  | false =>
    obtain ⟨rfl, -⟩ := Prod.mk.inj (Except.ok.inj hok)
    exact ⟨hcr3₁, htss₁, fun _ => hkstack₁⟩
  | true =>
    dsimp -zeta only at hok
    rw [if_neg (by simp)] at hok
    extract_lets k₃ k₄ vmm' k₅ k₆ at hok
    have hcr3₃ : k₃.cr3 = k.cr3 := (kmalloc_cr3 _ _).trans hcr3₁
    have htss₃ : k₃.tssRsp0 = k.tssRsp0 := (kmalloc_tssRsp0 _ _).trans htss₁
    by_cases hstack : stack = 0
    · rw [if_pos hstack] at hok
      obtain ⟨rfl, -⟩ := Prod.mk.inj (Except.ok.inj hok)
      exact ⟨hcr3₃, htss₃, fun _ => (kmalloc_kstack _ _).trans hkstack₁⟩
    · rw [if_neg hstack] at hok
      obtain ⟨k₇, hadd, hend⟩ := Outcome.bind_eq_ok.mp hok
      obtain ⟨rfl, rfl⟩ := Prod.mk.inj (Except.ok.inj hend)
      have hlinks := relinks_schedulerAddThread hadd
      exact ⟨hlinks.cr3.trans hcr3₃, hlinks.tssRsp0.trans htss₃, fun h0 => absurd h0 hzero⟩

theorem create_keeps (hok : threadCreate sym k func arg record kstack = .ok (k', t)) :
    k'.cr3 = k.cr3 ∧ k'.tssRsp0 = k.tssRsp0 ∧ (t = 0 → k'.kstack = k.kstack) := by
  unfold threadCreate at hok
  extract_lets k₁ block stack k₂ k₃ k₄ at hok
  have hcr3₁ : k₁.cr3 = k.cr3 := kmalloc_cr3 k record
  have htss₁ : k₁.tssRsp0 = k.tssRsp0 := kmalloc_tssRsp0 k record
  have hkstack₁ : k₁.kstack = k.kstack := kmalloc_kstack k record
  have hcr3₂ : k₂.cr3 = k.cr3 := (kmalloc_cr3 _ _).trans hcr3₁
  have htss₂ : k₂.tssRsp0 = k.tssRsp0 := (kmalloc_tssRsp0 _ _).trans htss₁
  by_cases hzero : block = 0
  · rw [if_pos hzero] at hok
    obtain ⟨rfl, -⟩ := Prod.mk.inj (Except.ok.inj hok)
    exact ⟨hcr3₁, htss₁, fun _ => hkstack₁⟩
  rw [if_neg hzero] at hok
  by_cases hstack : stack = 0
  · rw [if_pos hstack] at hok
    obtain ⟨rfl, -⟩ := Prod.mk.inj (Except.ok.inj hok)
    exact ⟨hcr3₂, htss₂, fun _ => (kmalloc_kstack _ _).trans hkstack₁⟩
  · rw [if_neg hstack] at hok
    obtain ⟨mem, rsp, hpush⟩ : ∃ mem rsp,
        pushAll k₄.kstack (stackTop stack) (kernelFrame sym func arg) = (mem, rsp) := ⟨_, _, rfl⟩
    rw [hpush] at hok
    obtain ⟨k₇, hadd, hend⟩ := Outcome.bind_eq_ok.mp hok
    obtain ⟨rfl, rfl⟩ := Prod.mk.inj (Except.ok.inj hend)
    have hlinks := relinks_schedulerAddThread hadd
    exact ⟨hlinks.cr3.trans hcr3₂, hlinks.tssRsp0.trans htss₂, fun h0 => absurd h0 hzero⟩

/-- A creation that failed has freed its record. -/
theorem builds_of_failed {block : Word} (hhdm : k'.vmm.hhdm = k.vmm.hhdm)
    (hkeeps : k'.cr3 = k.cr3 ∧ k'.tssRsp0 = k.tssRsp0 ∧ ((0 : Word) = 0 → k'.kstack = k.kstack))
    (hfresh : block ∉ k.live) (hlive : k'.live = (insert block k.live).erase block)
    (hcurrent : k'.currentThread = k.currentThread)
    (hthread : ∀ p ≠ block, k'.thread p = k.thread p) (stack : Word) :
    Builds k k' block stack frame where
  hhdm := hhdm
  cr3 := hkeeps.1
  tssRsp0 := hkeeps.2.1
  currentThread := hcurrent
  live := fun p _ => by rw [hlive, Finset.erase_insert hfresh]
  thread := fun p hp => ⟨(k.thread p).next, hthread p hp⟩
  new := fun hmem => absurd (hlive ▸ hmem) (Finset.notMem_erase _ _)
  kstack := .inl (hkeeps.2.2 rfl)

theorem builds_of_kmalloc {block : Word} (hfresh : block ∉ k.live) (hk : k' = k.kmalloc record)
    (stack : Word) : Builds k k' block stack frame where
  hhdm := by rw [hk, kmalloc_hhdm]
  cr3 := by rw [hk, kmalloc_cr3]
  tssRsp0 := by rw [hk, kmalloc_tssRsp0]
  currentThread := by rw [hk, kmalloc_currentThread]
  live := fun p _ => by rw [hk, kmalloc_live]
  thread := fun p _ => ⟨(k.thread p).next, by rw [hk, kmalloc_thread]⟩
  new := fun hmem => absurd (by rwa [hk, kmalloc_live] at hmem) hfresh
  kstack := .inl (by rw [hk, kmalloc_kstack])

theorem CreatesUser.builds
    (h : CreatesUser sym entry pml4 programBreak argv console record kstack k t k') :
    Builds k k' record.block kstack.block (newUserFrame sym entry argv) := by
  have hend := threadCreateUserspace_end h.ok
  have hkeeps := createUser_keeps h.ok
  cases hend with
  | noRecord hblock hk => exact builds_of_kmalloc h.fresh hk _
  | noPage vmm hblock hmap hvmm hheap hlive hcurrent hthread =>
    refine builds_of_failed ?_ hkeeps h.fresh hlive hcurrent hthread _
    rw [hvmm, vmmDestroyAddressSpace_hhdm, mapUserStack_hhdm hmap, kmalloc_hhdm]
  | noStack vmm hblock hmap hvmm hheap hlive hcurrent hthread =>
    refine builds_of_failed ?_ hkeeps h.fresh hlive hcurrent hthread _
    rw [hvmm, vmmDestroyAddressSpace_hhdm, unmapAndFree_hhdm, kmalloc_hhdm, mapUserStack_hhdm hmap,
      kmalloc_hhdm]
  | created vmm hblock hstack hmap hvmm hheap hlive hcurrent hkstack hnew hthread =>
    obtain ⟨next, hnew⟩ := hnew
    refine ⟨?_, hkeeps.1, hkeeps.2.1, hcurrent, fun p hp => ?_, hthread,
      fun _ => ⟨by rw [hnew], hstack⟩, .inr ⟨hstack, ?_⟩⟩
    · rw [hvmm, copyArguments_hhdm, kmalloc_hhdm, mapUserStack_hhdm hmap, kmalloc_hhdm]
    · rw [hlive, Finset.mem_insert, or_iff_right hp]
    · rw [hkstack, copyArguments_snd]
      rfl

theorem CreatesKernel.builds (h : CreatesKernel sym func arg record kstack k t k') :
    Builds k k' record.block kstack.block (kernelFrame sym func arg) := by
  have hend := threadCreate_end h.ok
  have hkeeps := create_keeps h.ok
  cases hend with
  | noRecord hblock hk => exact builds_of_kmalloc h.fresh hk _
  | noStack hblock hvmm hheap hlive hcurrent hthread =>
    refine builds_of_failed ?_ hkeeps h.fresh hlive hcurrent hthread _
    rw [hvmm, kmalloc_hhdm, kmalloc_hhdm]
  | created hblock hstack hvmm hheap hlive hcurrent hkstack hnew hthread =>
    obtain ⟨next, hnew⟩ := hnew
    refine ⟨?_, hkeeps.1, hkeeps.2.1, hcurrent, fun p hp => ?_, hthread,
      fun _ => ⟨by rw [hnew], hstack⟩, .inr ⟨hstack, hkstack⟩⟩
    · rw [hvmm, kmalloc_hhdm, kmalloc_hhdm]
    · rw [hlive, Finset.mem_insert, or_iff_right hp]

end Builds

end KyroOS.Context

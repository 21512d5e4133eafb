import KyroOS.Memory.Vmm
import Mathlib.Order.Interval.Finset.Nat

/-!
# Threads and the kernel's data about them

A `thread_t` is a block of the heap. The kernel's data are the records at such blocks, the
ring of threads behind `ready_queue`, the current thread and the memory of the kernel
stacks. The heap itself is left abstract: a call of `kmalloc` returns some block or `NULL`,
and may have taken a run of free pages for the heap by `morecore`.

`thread_switch` reads two fields of a `thread_t` by their offsets. The layout of the record
follows the rules of C: every field starts at the next multiple of its alignment.

## Main definitions

* `Thread`, `ThreadField`, `ThreadField.offset` — the record and its layout
* `Kernel` — the kernel's data
* `Kmalloc`, `Kernel.kmalloc` — a call of `kmalloc`
* `schedulerAddThread` — a thread enters the ring

## Main results

* `offset_rsp`, `offset_pml4` — the offsets that `thread_switch` uses
-/

namespace KyroOS.Threads

open KyroOS.Memory

/-- `KERNEL_STACK_SIZE`. -/
def kernelStackSize : ℕ := 8192

/-- `fd_type_t`. -/
inductive FdType
  | none
  | file
  | socket
  deriving DecidableEq, Repr

/-- `fd_entry_t`. The pointers of the two views of the union share a word. -/
structure FdEntry where
  type : FdType
  /-- `data.file.node` and `data.sock`. -/
  node : Word
  offset : Word
  flags : BitVec 32

/-- `thread_t`. The file descriptor table has `MAX_FILES` entries. -/
structure Thread where
  id : Word
  state : ThreadState
  stack : Word
  userStackBase : Word
  rsp : Word
  pml4 : Word
  programBreak : Word
  initialProgramBreak : Word
  fdTable : Fin 16 → FdEntry
  next : Word

/-! ### The layout of `thread_t` -/

/-- The fields of `thread_t`. -/
inductive ThreadField
  | id
  | state
  | stack
  | userStackBase
  | rsp
  | pml4
  | programBreak
  | initialProgramBreak
  | fdTable
  | next
  deriving DecidableEq

namespace ThreadField

/-- The fields in the order of their declaration. -/
def declared : List ThreadField :=
  [id, state, stack, userStackBase, rsp, pml4, programBreak, initialProgramBreak, fdTable, next]

/-- The size of a field. An `fd_entry_t` is a padded tag and a union of 24 bytes. -/
def size : ThreadField → ℕ
  | state => 4
  | fdTable => 16 * (8 + 24)
  | _ => 8

def align : ThreadField → ℕ
  | state => 4
  | _ => 8

/-- The first multiple of `a` from `n` on. -/
def alignUp (n a : ℕ) : ℕ := (n + a - 1) / a * a

/-- The offset of `f` when the fields from `fields` on are laid out from `start`. -/
def offsetIn (f : ThreadField) : List ThreadField → ℕ → ℕ
  | [], start => start
  | g :: fields, start =>
    if f = g then alignUp start g.align else offsetIn f fields (alignUp start g.align + g.size)

/-- The offset of a field. -/
def offset (f : ThreadField) : ℕ := offsetIn f declared 0

theorem offset_rsp : offset rsp = 32 := by decide

theorem offset_pml4 : offset pml4 = 40 := by decide

end ThreadField

/-- The 8-byte word at an offset of the record, where a field of that size is. -/
def Thread.load (t : Thread) (offset : ℕ) : Option Word :=
  if offset = ThreadField.id.offset then some t.id
  else if offset = ThreadField.stack.offset then some t.stack
  else if offset = ThreadField.userStackBase.offset then some t.userStackBase
  else if offset = ThreadField.rsp.offset then some t.rsp
  else if offset = ThreadField.pml4.offset then some t.pml4
  else if offset = ThreadField.programBreak.offset then some t.programBreak
  else if offset = ThreadField.initialProgramBreak.offset then some t.initialProgramBreak
  else if offset = ThreadField.next.offset then some t.next
  else none

/-- Writing an 8-byte word at an offset of the record. -/
def Thread.store (t : Thread) (offset : ℕ) (w : Word) : Option Thread :=
  if offset = ThreadField.id.offset then some { t with id := w }
  else if offset = ThreadField.stack.offset then some { t with stack := w }
  else if offset = ThreadField.userStackBase.offset then some { t with userStackBase := w }
  else if offset = ThreadField.rsp.offset then some { t with rsp := w }
  else if offset = ThreadField.pml4.offset then some { t with pml4 := w }
  else if offset = ThreadField.programBreak.offset then some { t with programBreak := w }
  else if offset = ThreadField.initialProgramBreak.offset then
    some { t with initialProgramBreak := w }
  else if offset = ThreadField.next.offset then some { t with next := w }
  else none

/-! ### The kernel's data -/

/-- The data of the thread system. `NULL` is 0. -/
structure Kernel where
  vmm : Vmm
  /-- The register CR3: the physical address of the top-level table. -/
  cr3 : Word
  /-- The stack pointer the processor loads when it enters the kernel from user mode. -/
  tssRsp0 : Word
  /-- The records at the addresses of blocks. -/
  thread : Word → Thread
  /-- The blocks that hold a `thread_t` and are not freed. -/
  live : Finset Word
  /-- The memory of the kernel stacks, in 8-byte cells. -/
  kstack : Word → Word
  /-- The pages that the heap acquired. -/
  heapPages : Finset ℕ
  nextThreadId : Word
  readyQueue : Word
  currentThread : Word

/-- A call of `kmalloc`: the block it returns, 0 for `NULL`, and the run of pages that
`morecore` got for it, the first page and the number of pages. -/
structure Kmalloc where
  block : Word
  run : Option (ℕ × ℕ)

namespace Kernel

/-- What a call of `kmalloc` does to the page allocator. Only free pages are taken. -/
def kmalloc (k : Kernel) (m : Kmalloc) : Kernel :=
  match m.run with
  | none => k
  | some (i, count) =>
    if k.vmm.pmm.RunFree i count then
      { k with
        vmm := { k.vmm with pmm := pmmTakeRun k.vmm.pmm i count }
        heapPages := k.heapPages ∪ Finset.Ico i (i + count) }
    else k

/-- Writing to the record at `p`. -/
def setThread (k : Kernel) (p : Word) (f : Thread → Thread) : Kernel :=
  { k with thread := Function.update k.thread p (f (k.thread p)) }

/-- `p->next = q`. -/
def setNext (k : Kernel) (p q : Word) : Kernel := k.setThread p fun t => { t with next := q }

/-- `p->state = state`. -/
def setState (k : Kernel) (p : Word) (state : ThreadState) : Kernel :=
  k.setThread p fun t => { t with state }

/-- `vmm_get_current_pml4`. -/
def currentPml4 (k : Kernel) : Word := k.vmm.physToVirt k.cr3

/-- Following the links. -/
def next (k : Kernel) (p : Word) : Word := (k.thread p).next

end Kernel

/-- `scheduler_add_thread`. -/
def schedulerAddThread (k : Kernel) (t : Word) : Outcome Kernel :=
  if t = 0 then return k
  else if k.readyQueue = 0 then return { k.setNext t t with readyQueue := t }
  else if k.readyQueue ∉ k.live then throw .fault
  else
    let k := k.setNext t (k.next k.readyQueue)
    return { k.setNext k.readyQueue t with readyQueue := t }

/-! ### Writing a record -/

section SetThread

variable (k : Kernel) (p q w : Word) (f : Thread → Thread) (state : ThreadState)

@[simp] theorem setThread_self : (k.setThread p f).thread p = f (k.thread p) := by
  simp [Kernel.setThread]

theorem setThread_of_ne {p q : Word} (h : q ≠ p) :
    (k.setThread p f).thread q = k.thread q := by
  simp [Kernel.setThread, h]

@[simp] theorem setThread_live : (k.setThread p f).live = k.live := rfl
@[simp] theorem setThread_readyQueue : (k.setThread p f).readyQueue = k.readyQueue := rfl
@[simp] theorem setThread_currentThread : (k.setThread p f).currentThread = k.currentThread := rfl
@[simp] theorem setThread_vmm : (k.setThread p f).vmm = k.vmm := rfl
@[simp] theorem setThread_cr3 : (k.setThread p f).cr3 = k.cr3 := rfl
@[simp] theorem setThread_kstack : (k.setThread p f).kstack = k.kstack := rfl
@[simp] theorem setThread_tssRsp0 : (k.setThread p f).tssRsp0 = k.tssRsp0 := rfl

@[simp] theorem setNext_next : (k.setNext p w).next = Function.update k.next p w := by
  funext q
  by_cases hq : q = p
  · rw [hq, Function.update_self, Kernel.next, Kernel.setNext, setThread_self]
  · rw [Function.update_of_ne hq, Kernel.next, Kernel.setNext, setThread_of_ne _ _ hq]
    rfl

@[simp] theorem setState_next : (k.setState p state).next = k.next := by
  funext q
  by_cases hq : q = p
  · rw [hq, Kernel.next, Kernel.setState, setThread_self]
    rfl
  · rw [Kernel.next, Kernel.setState, setThread_of_ne _ _ hq]
    rfl

/-- Links aside, `p->next = w` changes nothing. -/
theorem setNext_fields {α : Type} (g : Thread → α) (hg : ∀ t w, g { t with next := w } = g t) :
    g ((k.setNext p w).thread q) = g (k.thread q) := by
  by_cases hq : q = p
  · rw [hq, Kernel.setNext, setThread_self, hg]
  · rw [Kernel.setNext, setThread_of_ne _ _ hq]

/-- States aside, `p->state = state` changes nothing. -/
theorem setState_fields {α : Type} (g : Thread → α) (hg : ∀ t s, g { t with state := s } = g t) :
    g ((k.setState p state).thread q) = g (k.thread q) := by
  by_cases hq : q = p
  · rw [hq, Kernel.setState, setThread_self, hg]
  · rw [Kernel.setState, setThread_of_ne _ _ hq]

end SetThread

end KyroOS.Threads

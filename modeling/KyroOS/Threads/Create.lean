import KyroOS.Memory.UserMemory
import KyroOS.Threads.Scheduler

/-!
# Creating threads

`thread_create` and `thread_create_userspace` fill a new `thread_t` and build a frame on
its kernel stack that the first `thread_switch` to it unwinds. The calls of `kmalloc` are
arguments here; a block keeps what it held before until its fields are written.

## Main definitions

* `Symbols` — the addresses of the assembly entry points
* `threadInit`, `threadCreate`, `threadCreateUserspace`
* `mapUserStack`, `copyArguments` — the parts of the latter that work on user memory
-/

namespace KyroOS.Threads

open KyroOS.Memory

/-- The addresses of the code that a new thread starts at. -/
structure Symbols where
  threadStarter : Word
  userspaceThreadStarter : Word

/-- An unused entry of the file descriptor table. -/
def emptyFd : FdEntry := ⟨.none, 0, 0, 0⟩

/-- `O_RDONLY` and `O_WRONLY`. -/
def oRdonly : BitVec 32 := 1
def oWronly : BitVec 32 := 2

/-- `thread_init`, with the block for the main thread and the stack pointer it runs on. -/
def threadInit (k : Kernel) (block rsp : Word) : Outcome Kernel :=
  if block = 0 then throw (.panic "Failed to allocate main kernel thread!")
  else
    let k := { k with live := insert block k.live, currentThread := block }
    let k := k.setThread block fun t =>
      { t with
        id := k.nextThreadId
        state := .running
        stack := 0
        userStackBase := 0
        pml4 := k.currentPml4
        rsp
        next := 0
        fdTable := fun _ => emptyFd }
    -- `scheduler_init`
    return { k with nextThreadId := k.nextThreadId + 1, readyQueue := 0 }

/-- Pushing words on a stack in memory: the memory and the stack pointer afterwards. -/
def pushAll (mem : Word → Word) (sp : Word) : List Word → (Word → Word) × Word
  | [] => (mem, sp)
  | w :: ws => pushAll (Function.update mem (sp - 8) w) (sp - 8) ws

/-- The top of the kernel stack at `stack`. -/
def stackTop (stack : Word) : Word := stack + BitVec.ofNat 64 kernelStackSize

/-- What `thread_create` pushes: the arguments of `thread_entry`, the return address of
`thread_switch` and the registers it pops. -/
def kernelFrame (sym : Symbols) (func arg : Word) : List Word :=
  [arg, func, sym.threadStarter, 0, 0, 0, 0, 0, 0]

/-- `thread_create`, with the calls of `kmalloc` for the record and the kernel stack. The
result is the new thread, or 0. -/
def threadCreate (sym : Symbols) (k : Kernel) (func arg : Word) (record kstack : Kmalloc) :
    Outcome (Kernel × Word) :=
  let k := k.kmalloc record
  let block := record.block
  let stack := kstack.block
  if block = 0 then return (k, 0)
  else
    let k := { k with live := insert block k.live }.kmalloc kstack
    let k := k.setThread block fun t => { t with stack }
    if stack = 0 then return (k.kfree block, 0)
    else do
      let k := k.setThread block fun t =>
        { t with
          userStackBase := 0
          pml4 := k.currentPml4
          id := k.nextThreadId
          state := .ready
          fdTable := fun _ => emptyFd }
      let (kstack, rsp) := pushAll k.kstack (stackTop stack) (kernelFrame sym func arg)
      let k := { k with nextThreadId := k.nextThreadId + 1, kstack }
      let k := k.setThread block fun t => { t with rsp }
      let k ← schedulerAddThread k block
      return (k, block)

/-! ### User threads -/

/-- The lowest page of a user stack. -/
def userStackStart : Word := userStackTop - BitVec.ofNat 64 userStackSize

/-- The loop that allocates and maps the user stack; `false` when a page cannot be
allocated. -/
def mapUserStack (v : Vmm) (pml4 : Word) : List Word → Outcome (Vmm × Bool)
  | [] => return (v, true)
  | virt :: virts => do
    let (pmm, page) := pmmAllocPage v.pmm
    let v := { v with pmm }
    if page = 0 then return (v, false)
    let v ← vmmMapPage v pml4 virt page (pagePresent ||| pageWrite ||| pageUser)
    mapUserStack v pml4 virts

/-- Rounding a user stack pointer down to 16 bytes. -/
def alignStack (sp : Word) : Word := sp &&& ~~~ 0xF#64

/-- The loop that copies the argument strings, each with its terminator: the stack pointer
afterwards and the addresses of the strings. -/
def copyStrings (v : Vmm) (pml4 sp : Word) : List (List Byte) → Vmm × Word × List Word
  | [] => (v, sp, [])
  | arg :: argv =>
    let sp := alignStack (sp - BitVec.ofNat 64 (arg.length + 1))
    let v := vmmMemcpyToUserspace v pml4 sp (arg ++ [0])
    let (v, last, pointers) := copyStrings v pml4 sp argv
    (v, last, sp :: pointers)

/-- The bytes of a word in memory. -/
def wordBytes (w : Word) : List Byte := (List.range 8).map fun i => w.extractLsb' (8 * i) 8

/-- The argument block: the strings, and below them the array of their addresses. The
result is the address of the array, which is the user stack pointer too. -/
def copyArguments (v : Vmm) (pml4 : Word) (argv : List (List Byte)) : Vmm × Word :=
  let (v, sp, pointers) := copyStrings v pml4 userStackTop argv
  let sp := alignStack (sp - BitVec.ofNat 64 ((argv.length + 1) * 8))
  (vmmMemcpyToUserspace v pml4 sp ((pointers ++ [0]).flatMap wordBytes), sp)

/-- The file descriptors of a user thread: the first three are the console, if there is one,
and keep their old contents under the tag `FD_TYPE_NONE` if not. -/
def userFdTable (console : Word) (old : Fin 16 → FdEntry) (i : Fin 16) : FdEntry :=
  if i.val < 3 then
    if console ≠ 0 then ⟨.file, console, 0, if i.val = 0 then oRdonly else oWronly⟩
    else { old i with type := .none }
  else emptyFd

/-- What `thread_create_userspace` pushes: the frame of `iretq`, the return address of
`thread_switch` and the registers it pops. -/
def userFrame (sym : Symbols) (entry userSp argc : Word) : List Word :=
  [0x23, userSp, 0x202, 0x1B, entry, sym.userspaceThreadStarter, 0, argc, userSp, 0, 0, 0]

/-- `thread_create_userspace`, with the node of the console, or 0, and the calls of
`kmalloc`. The address of the frame is not stored anywhere. -/
def threadCreateUserspace (sym : Symbols) (k : Kernel) (entry pml4 programBreak : Word)
    (argv : List (List Byte)) (console : Word) (record kstack : Kmalloc) :
    Outcome (Kernel × Word) :=
  let k := k.kmalloc record
  let block := record.block
  let stack := kstack.block
  if block = 0 then return (k, 0)
  else do
    let k := { k with live := insert block k.live }.setThread block fun t => { t with pml4 }
    let (vmm, mapped) ← mapUserStack k.vmm pml4 (stackPages userStackStart)
    if !mapped then
      return ({ k with vmm := vmmDestroyAddressSpace vmm pml4 }.kfree block, 0)
    let k := { k with vmm }.kmalloc kstack
    let k := k.setThread block fun t => { t with userStackBase := userStackStart, stack }
    if stack = 0 then
      let vmm := unmapAndFree k.vmm pml4 (stackPages userStackStart)
      return ({ k with vmm := vmmDestroyAddressSpace vmm pml4 }.kfree block, 0)
    let k := k.setThread block fun t =>
      { t with
        id := k.nextThreadId
        state := .ready
        programBreak
        initialProgramBreak := programBreak
        fdTable := userFdTable console t.fdTable }
    let (vmm, userSp) := copyArguments k.vmm pml4 argv
    let (kstack, _) := pushAll k.kstack (stackTop stack)
      (userFrame sym entry userSp (BitVec.ofNat 64 argv.length))
    let k := { k with nextThreadId := k.nextThreadId + 1, vmm, kstack }
    let k ← schedulerAddThread k block
    return (k, block)

/-! ### A small machine -/

/-- A record for a new thread. -/
def readyThread (id : Word) : Thread where
  id := id
  state := .ready
  stack := 0
  userStackBase := 0
  rsp := 0
  pml4 := 0
  programBreak := 0
  initialProgramBreak := 0
  fdTable _ := emptyFd
  next := 0

/-- A machine whose memory is clear. -/
def clearKernel : Kernel where
  vmm := ⟨⟨fun _ => 0, 0, 0, 0⟩, fun _ => 0, 0, 0⟩
  cr3 := 0
  tssRsp0 := 0
  thread _ := readyThread 0
  live := ∅
  kstack _ := 0
  heapPages := ∅
  nextThreadId := 0
  readyQueue := 0
  currentThread := 0

end KyroOS.Threads

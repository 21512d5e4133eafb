import KyroOS.Memory.DestroyCalls
import KyroOS.Process.Life
import KyroOS.Threads.Runnable

/-!
# `elf_exec_as_thread` without memory

A call of `elf_exec_as_thread` gets a buffer, a top-level table, pages for the segments and their
tables, a record, a stack and a kernel stack. A `NULL` for a page of a segment or for a table is a
panic. The others are looked at, but for the buffer only the call then says so: the test of the
top-level table is made on its address in the direct map, and what `thread_create_userspace`
returns is not looked at.

## Main definitions

* `AllocSite`, `AllocCall` — what is asked of the allocators
* `createLog`, `execLog` — the calls of the allocators, in their order
* `ExecAtomic` — a call that meets a `NULL` has failed and left everything as it was, and a call
  that returns 0 has added a thread

## Main results

* `execAtomic_iff` — a call is atomic exactly when it gets all but the buffer
* `not_execAtomic` — without a record for the thread it returns 0
-/

namespace KyroOS.Process

open KyroOS.Memory KyroOS.Threads KyroOS.Elf

/-! ### The calls of the allocators -/

/-- The places at which the call goes on after a `NULL`. -/
inductive AllocSite
  | buffer
  | topTable
  | record
  | stackPage
  | kernelStack
  deriving DecidableEq

/-- A `NULL`, a block of the heap that the call got, and one that it gave back. -/
inductive AllocCall
  | null (site : AllocSite)
  | block (p : Word)
  | free (p : Word)
  deriving DecidableEq

/-- The heap's blocks after the calls of a log. -/
def blocksAfter (log : List AllocCall) (blocks : Finset Word) : Finset Word :=
  log.foldl (fun blocks call =>
    match call with
    | .null _ => blocks
    | .block p => insert p blocks
    | .free p => blocks.erase p) blocks

/-- The calls of `thread_create_userspace`. -/
def createLog (k : Kernel) (pml4 : Word) (record kstack : Kmalloc) : List AllocCall :=
  if record.block = 0 then [.null .record]
  else
    .block record.block ::
      match mapUserStack (k.kmalloc record).vmm pml4 (stackPages userStackStart) with
      | .error _ => []
      | .ok (_, false) => [.null .stackPage, .free record.block]
      | .ok (_, true) =>
        if kstack.block = 0 then [.null .kernelStack, .free record.block]
        else [.block kstack.block]

/-- The calls of `elf_exec_as_thread`. -/
def execLog (k : Kernel) (file : Option Image) (buffer record kstack : Kmalloc) : List AllocCall :=
  match file with
  | none => []
  | some image =>
    if buffer.block = 0 then [.null .buffer]
    else
      let k := k.kmalloc buffer
      let (vmm, pml4) := vmmCreateAddressSpace k.vmm
      .block buffer.block ::
        -- the page is `NULL`, which is not what the test is about
        (if (pmmAllocPage k.vmm.pmm).2 = 0 then [.null .topTable] else []) ++
        if pml4 = 0 then [.free buffer.block]
        else
          match elfLoad vmm pml4 image with
          | .error _ => []
          | .ok (vmm, result) =>
            .free buffer.block ::
              if result.entryPoint ≠ 0 then createLog { k with vmm } pml4 record kstack else []

/-- From `k` to `k'` the ring stayed as it was. -/
structure SameRing (k k' : Kernel) : Prop where
  readyQueue : k'.readyQueue = k.readyQueue
  next : ∀ p, k.OnReadyQueue p → k'.next p = k.next p

/-- From `k` to `k'` one thread came to the ring. -/
def AddsThread (k k' : Kernel) : Prop :=
  ∃ t, ¬ k.OnReadyQueue t ∧ ∀ p, k'.OnReadyQueue p ↔ k.OnReadyQueue p ∨ p = t

/-- A call from `k` to `k'` that returned `result`. -/
structure ExecAtomic (k k' : Kernel) (result : ℤ) (blocks : Finset Word) (log : List AllocCall) :
    Prop where
  onNull : ∀ site, .null site ∈ log → result = -1 ∧ k'.vmm.pmm.bitmap = k.vmm.pmm.bitmap ∧
    blocksAfter log blocks = blocks ∧ SameRing k k'
  zero_iff : result = 0 ↔ AddsThread k k'

/-- The call gets what it asks for, but for the buffer perhaps. The test of the top-level table
works when the direct map starts at 0, and then the buffer must not have taken a page. -/
def ExecServed (k : Kernel) (buffer : Kmalloc) (log : List AllocCall) : Prop :=
  ∀ site, .null site ∈ log → site = .buffer ∨
    site = .topTable ∧ k.vmm.hhdm = 0 ∧ (k.kmalloc buffer).vmm.pmm.bitmap = k.vmm.pmm.bitmap

/-! ### The ring -/

section Ring

variable {k k' : Kernel} {t : Word}

theorem kmalloc_none (k : Kernel) (block : Word) : k.kmalloc ⟨block, none⟩ = k := rfl

theorem kmalloc_next (k : Kernel) (m : Kmalloc) : (k.kmalloc m).next = k.next := by
  funext p
  rw [Kernel.next, kmalloc_thread]
  rfl

theorem kmalloc_readyQueue (k : Kernel) (m : Kmalloc) :
    (k.kmalloc m).readyQueue = k.readyQueue := by
  rw [(kmalloc_eq k m).1]

theorem ringInv_withVmm (h : RingInv k) (v : Vmm) : RingInv { k with vmm := v } :=
  h.congr rfl rfl rfl rfl

/-- The ring is the same, and so no thread came to it. -/
theorem not_addsThread (hnext : k'.next = k.next) (hqueue : k'.readyQueue = k.readyQueue) :
    ¬ AddsThread k k' := by
  rintro ⟨t, hnot, hall⟩
  have hold : k'.OnReadyQueue t ↔ k.OnReadyQueue t := onReadyQueue_congr hnext hqueue
  exact hnot (hold.mp ((hall t).mpr (.inr rfl)))

/-- A thread at a new block is added to the ring. -/
theorem addsThread_place {k₀ : Kernel} {thread : Thread} (h : RingInv k)
    (hnext : k₀.next = k.next) (hqueue : k₀.readyQueue = k.readyQueue) (hlive : k₀.live = k.live)
    (hcurrent : k₀.currentThread = k.currentThread) (ht : t ≠ 0) (hfresh : t ∉ k.live)
    (hadd : schedulerAddThread (k₀.place t thread) t = .ok k') : AddsThread k k' := by
  have h₀ : RingInv k₀ := h.congr hnext hqueue hlive hcurrent
  have hoff : ∀ l, OnRing k₀ l → t ∉ l := fun _ => OnRing.notMem_of_fresh (hlive ▸ hfresh)
  have h' := h₀.add ht hoff hadd
  have hsame : ∀ p, k₀.OnReadyQueue p ↔ k.OnReadyQueue p := fun p => onReadyQueue_congr hnext hqueue
  obtain ⟨-, -, -, -, hring⟩ := h₀.add_ring ht hoff hadd
  refine ⟨t, fun hon => ?_, fun p => ?_⟩
  · obtain ⟨l, hl⟩ := h.ring.resolve_left hon.1
    exact hfresh (hl.live t ((hl.onReadyQueue_iff h).mp hon))
  · rw [← hsame]
    rcases hring with ⟨hempty, hnew⟩ | ⟨l, hl, hnew⟩
    · rw [hnew.onReadyQueue_iff h', List.mem_singleton]
      exact (or_iff_right fun hon => hon.1 hempty).symm
    · rw [hnew.onReadyQueue_iff h', hl.onReadyQueue_iff h₀, List.mem_append, List.mem_singleton]

end Ring

/-! ### Creating the thread -/

section Create

variable {sym : Symbols} {k k' : Kernel} {entry pml4 programBreak console t : Word}
  {argv : List (List Byte)} {record kstack : Kmalloc} {vmm : Vmm}

/-- The new thread is all that differs before it enters the ring. -/
theorem newUser_eq_place : ∃ (k₀ : Kernel) (thread : Thread),
    newUser sym k entry pml4 programBreak argv console record kstack vmm =
      k₀.place record.block thread ∧
    k₀.next = k.next ∧ k₀.readyQueue = k.readyQueue ∧ k₀.live = k.live ∧
    k₀.currentThread = k.currentThread := by
  generalize hnew : newUser sym k entry pml4 programBreak argv console record kstack vmm = k₁
  unfold newUser at hnew
  extract_lets k₂ block stack k₃ k₄ k₅ k₆ at hnew
  have hlive₃ : k₃.live = insert block k.live := congrArg (insert block) (kmalloc_live k record)
  have hthread₃ : ∀ p ≠ block, k₃.thread p = k.thread p := fun p hp =>
    (setThread_of_ne _ _ hp).trans (congrFun (kmalloc_thread k record) p)
  have hlive₄ : k₄.live = insert block k.live := (kmalloc_live _ _).trans hlive₃
  have hthread₄ : ∀ p ≠ block, k₄.thread p = k.thread p := fun p hp =>
    (congrFun (kmalloc_thread _ _) p).trans (hthread₃ p hp)
  have hthread₆ : ∀ p ≠ block, k₆.thread p = k.thread p := fun p hp =>
    (setThread_of_ne _ _ hp).trans ((setThread_of_ne _ _ hp).trans (hthread₄ p hp))
  have hqueue : k₆.readyQueue = k.readyQueue :=
    (kmalloc_readyQueue _ _).trans (kmalloc_readyQueue k record)
  have hcurrent : k₆.currentThread = k.currentThread :=
    (kmalloc_currentThread _ _).trans (kmalloc_currentThread k record)
  refine ⟨{ k₁ with thread := k.thread, live := k.live }, k₁.thread block, ?_, rfl, ?_, rfl, ?_⟩
  · have hthread : k₁.thread = Function.update k.thread block (k₁.thread block) := by
      funext p
      by_cases hp : p = block
      · rw [hp, Function.update_self]
      · rw [Function.update_of_ne hp, ← hnew]
        exact hthread₆ p hp
    have hlive : k₁.live = insert block k.live := by
      rw [← hnew]
      exact hlive₄
    rw [Kernel.place, ← hthread, ← hlive]
  · rw [← hnew]
    exact hqueue
  · rw [← hnew]
    exact hcurrent

/-- A call that gets no page for the stack ends without a thread. -/
theorem threadCreateUserspace_unmapped (sym : Symbols) (entry programBreak console : Word)
    (argv : List (List Byte)) (kstack : Kmalloc) (hblock : record.block ≠ 0)
    (hmap : mapUserStack (k.kmalloc record).vmm pml4 (stackPages userStackStart) =
      .ok (vmm, false)) :
    ∃ k', threadCreateUserspace sym k entry pml4 programBreak argv console record kstack =
      .ok (k', 0) := by
  unfold threadCreateUserspace
  dsimp -zeta only
  extract_lets k₁ block stack k₂
  rw [if_neg hblock]
  have hmap₂ : mapUserStack k₂.vmm pml4 (stackPages userStackStart) = .ok (vmm, false) := hmap
  rw [hmap₂]
  exact ⟨_, rfl⟩

theorem createLog_of_mapped (hblock : record.block ≠ 0) (hstack : kstack.block ≠ 0)
    (hmap : mapUserStack (k.kmalloc record).vmm pml4 (stackPages userStackStart) = .ok (vmm, true)) :
    createLog k pml4 record kstack = [.block record.block, .block kstack.block] := by
  rw [createLog, if_neg hblock, hmap]
  exact congrArg (AllocCall.block record.block :: ·) (if_neg hstack)

/-- A call meets a `NULL`, or it gets two blocks and adds the thread. -/
theorem createLog_spec
    (hok : threadCreateUserspace sym k entry pml4 programBreak argv console record kstack =
      .ok (k', t)) :
    (∃ site, .null site ∈ createLog k pml4 record kstack ∧ site ≠ .buffer ∧ site ≠ .topTable) ∨
      createLog k pml4 record kstack = [.block record.block, .block kstack.block] ∧
      record.block ≠ 0 ∧ ∃ vmm, schedulerAddThread
        (newUser sym k entry pml4 programBreak argv console record kstack vmm) record.block =
          .ok k' := by
  cases threadCreateUserspace_end hok with
  | noRecord hblock =>
    rw [createLog, if_pos hblock]
    exact .inl ⟨.record, by simp⟩
  | noPage vmm hblock hmap =>
    rw [createLog, if_neg hblock, hmap]
    exact .inl ⟨.stackPage, by simp⟩
  | noStack vmm hblock hmap =>
    -- with a kernel stack it would return the thread
    have hstack : kstack.block = 0 := by
      by_contra hstack
      rw [threadCreateUserspace_mapped hblock hstack hmap] at hok
      obtain ⟨k₁, hadd, hk₁⟩ := Outcome.bind_eq_ok.mp hok
      exact hblock (Prod.mk.inj (Except.ok.inj hk₁)).2
    rw [createLog, if_neg hblock, hmap]
    exact .inl ⟨.kernelStack, by simp [hstack]⟩
  | created vmm hblock hstack hmap =>
    refine .inr ⟨createLog_of_mapped hblock hstack hmap, hblock, vmm, ?_⟩
    rw [threadCreateUserspace_mapped hblock hstack hmap] at hok
    obtain ⟨k₁, hadd, hk₁⟩ := Outcome.bind_eq_ok.mp hok
    rw [hadd, (Prod.mk.inj (Except.ok.inj hk₁)).1]

end Create

/-! ### The call -/

section Exec

variable {sym : Symbols} {k k' : Kernel} {file : Option Image} {console r : Word} {result : ℤ}
  {argv : List (List Byte)} {buffer record kstack : Kmalloc} {roots : Set Word} {v v' : Vmm}
  {blocks : Finset Word}

/-- The top-level table of an address space is free when that was destroyed. -/
theorem not_allocated_destroy (hr : r ≠ 0) (hlt : v.pageOf r < v.pmm.totalPages) :
    ¬ (vmmDestroyAddressSpace v r).pmm.Allocated (v.pageOf r) := by
  rw [vmmDestroyAddressSpace_calls, destroyCalls, if_neg hr, levelCalls, List.foldl_append,
    List.foldl_cons, List.foldl_nil, pmmFreePage_allocated]
  rintro ⟨-, hnot⟩
  have hfrees := Frees.foldl Frees.freePage (List.flatMap (fun i =>
    (v.nextLevel r i).elim [] (pdptCalls v)) (List.range 256)) v.pmm
  exact hnot ⟨rfl, hfrees.totalPages ▸ hlt⟩

/-- `NULL` is returned when no page is free. -/
theorem full_of_null {p : Pmm} (h : p.Reserves) (hnull : (pmmAllocPage p).2 = 0) : Full p := by
  refine ⟨h, fun j hj => ?_⟩
  by_contra hnot
  have hspec := pmmAllocPage_spec h
  have hfree := Pmm.findFree_ne_none hj hnot
  generalize pmmAllocPage p = alloc at hspec hnull
  cases hspec with
  | null hfull => exact hfree hfull
  | page i hlt hpos =>
    have hle := h.totalPages_le
    exact pageAddr_ne_zero (by omega) hpos hnull

/-- A new top-level table is the page that the allocator gives, in the direct map. -/
theorem vmmCreateAddressSpace_page (v : Vmm) :
    (vmmCreateAddressSpace v).1.pmm = (pmmAllocPage v.pmm).1 ∧
      (vmmCreateAddressSpace v).2 = v.physToVirt (pmmAllocPage v.pmm).2 := by
  unfold vmmCreateAddressSpace
  dsimp only
  split_ifs with hzero
  · exact ⟨rfl, hzero.symm⟩
  · exact ⟨rfl, rfl⟩

theorem kmalloc_hhdm (k : Kernel) (m : Kmalloc) : (k.kmalloc m).vmm.hhdm = k.vmm.hhdm := by
  obtain ⟨-, pmm, hvmm, -⟩ := kmalloc_eq k m
  rw [hvmm]

/-- Without a page the allocator stays as it was. -/
theorem pmm_of_null (h : SpacesInv 4 k.vmm roots)
    (hnull : (pmmAllocPage (k.kmalloc buffer).vmm.pmm).2 = 0)
    (hcreate : vmmCreateAddressSpace (k.kmalloc buffer).vmm = (v, r)) :
    v.pmm = (k.kmalloc buffer).vmm.pmm := by
  have hpmm := (vmmCreateAddressSpace_page (k.kmalloc buffer).vmm).1
  rw [hcreate, pmmAllocPage_full (full_of_null (kmalloc_phase h buffer).inv.reserves hnull)] at hpmm
  exact hpmm

/-- An address space at the first page of memory takes it along when it is destroyed. -/
theorem bitmap_ne_of_destroy (h : SpacesInv 4 k.vmm roots)
    (hnull : (pmmAllocPage (k.kmalloc buffer).vmm.pmm).2 = 0)
    (hcreate : vmmCreateAddressSpace (k.kmalloc buffer).vmm = (v, r)) (hr : r ≠ 0)
    {image : Image} {loaded : LoadResult} (hload : elfLoad v r image = .ok (v', loaded)) :
    (vmmDestroyAddressSpace v' r).pmm.bitmap ≠ k.vmm.pmm.bitmap := by
  have h₀ := (kmalloc_phase h buffer).inv
  have hfull : Full (k.kmalloc buffer).vmm.pmm := full_of_null h₀.reserves hnull
  obtain ⟨hroot, hv, -⟩ := vmmCreateAddressSpace_mem hcreate hr
  have hpmm : v.pmm = (k.kmalloc buffer).vmm.pmm := pmm_of_null h hnull hcreate
  have hloaded : v' = v := by
    refine Full.elfLoad_eq ?_ hload
    rw [hpmm]
    exact hfull
  have hpage : v'.pageOf r = 0 := by
    have hzero : r = v'.pageVirt 0 := by
      rw [hroot, hnull, hloaded, hv]
      rfl
    rw [hzero, v'.pageOf_pageVirt (by decide)]
  obtain ⟨p, hp, -⟩ := h₀.kernel
  intro hsame
  -- the page was taken before the call, as `Reserves` says
  refine not_allocated_destroy (v := v') hr ?_ ?_
  · rw [hpage, hloaded, hpmm]
    omega
  · rw [hpage, Pmm.Allocated, hsame]
    exact h.reserves.zero

/-- A top-level table is at address 0 when there is no page for it and the direct map starts
at 0. -/
theorem null_of_noTable (h : SpacesInv 4 k.vmm roots)
    (hcreate : vmmCreateAddressSpace (k.kmalloc buffer).vmm = (v, 0)) :
    (pmmAllocPage (k.kmalloc buffer).vmm.pmm).2 = 0 ∧ k.vmm.hhdm = 0 := by
  have h₀ := (kmalloc_phase h buffer).inv
  have haddr := (vmmCreateAddressSpace_page (k.kmalloc buffer).vmm).2
  have hspec := pmmAllocPage_spec h₀.reserves
  rw [hcreate] at haddr
  generalize pmmAllocPage (k.kmalloc buffer).vmm.pmm = alloc at hspec haddr
  cases hspec with
  | null hfull =>
    have hzero : 0 = (k.kmalloc buffer).vmm.hhdm := haddr.trans (BitVec.zero_add _)
    rw [kmalloc_hhdm] at hzero
    exact ⟨rfl, hzero.symm⟩
  | page i hlt hpos => exact absurd haddr.symm (h₀.pageVirt_ne_zero hlt hpos)

/-- The address of a table that is there although there is no page for it. -/
theorem hhdm_ne_zero_of_null (hnull : (pmmAllocPage (k.kmalloc buffer).vmm.pmm).2 = 0)
    (hcreate : vmmCreateAddressSpace (k.kmalloc buffer).vmm = (v, r)) (hr : r ≠ 0) :
    k.vmm.hhdm ≠ 0 := by
  have haddr := (vmmCreateAddressSpace_page (k.kmalloc buffer).vmm).2
  rw [hcreate, hnull, Vmm.physToVirt, kmalloc_hhdm] at haddr
  have hroot : r = k.vmm.hhdm := haddr.trans (BitVec.zero_add _)
  exact hroot ▸ hr

variable {log : List AllocCall}

/-- A call that fails and leaves the ring as it was is atomic, if what it met a `NULL` after is
undone. -/
theorem execAtomic_failed (hnext : k'.next = k.next) (hqueue : k'.readyQueue = k.readyQueue)
    (hnull : ∀ site, .null site ∈ log →
      k'.vmm.pmm.bitmap = k.vmm.pmm.bitmap ∧ blocksAfter log blocks = blocks) :
    ExecAtomic k k' (-1) blocks log where
  onNull site hmem :=
    ⟨rfl, (hnull site hmem).1, (hnull site hmem).2, hqueue, fun p _ => congrFun hnext p⟩
  zero_iff := iff_of_false (by decide) (not_addsThread hnext hqueue)

/-- A call that returns 0 after a `NULL` is not atomic. -/
theorem not_execAtomic_zero {site : AllocSite} (hmem : .null site ∈ log) :
    ¬ ExecAtomic k k' 0 blocks log := by
  intro hatomic
  exact absurd (hatomic.onNull site hmem).1 (by decide)

theorem not_execServed {site : AllocSite} (hmem : .null site ∈ log) (hsite : site ≠ .buffer)
    (htop : site = .topTable → k.vmm.hhdm ≠ 0) : ¬ ExecServed k buffer log := by
  intro hserved
  rcases hserved site hmem with heq | ⟨heq, hhdm, -⟩
  · exact hsite heq
  · exact htop heq hhdm

/-- What is asked when the image was looked at. -/
theorem execLog_of_loaded {image : Image} {loaded : LoadResult} (hblock : buffer.block ≠ 0)
    (hcreate : vmmCreateAddressSpace (k.kmalloc buffer).vmm = (v, r)) (hr : r ≠ 0)
    (hload : elfLoad v r image = .ok (v', loaded)) :
    execLog k (some image) buffer record kstack =
      .block buffer.block ::
        ((if (pmmAllocPage (k.kmalloc buffer).vmm.pmm).2 = 0 then [.null .topTable] else []) ++
          .free buffer.block ::
            if loaded.entryPoint ≠ 0 then
              createLog { k.kmalloc buffer with vmm := v' } r record kstack
            else []) := by
  unfold execLog
  dsimp only
  rw [if_neg hblock, hcreate]
  dsimp only
  rw [if_neg hr, hload]
  rfl

/-- A call is atomic exactly when it gets all that it asks for, but for the buffer perhaps. -/
theorem execAtomic_iff (h : SpacesInv 4 k.vmm roots) (hring : RingInv k)
    (hbuffer : buffer.block = 0 → buffer.run = none) (hblocks : buffer.block ∉ blocks)
    (hfresh : record.block ∉ k.live)
    (hexec : elfExecAsThread sym k file argv console buffer record kstack = .ok (k', result)) :
    ExecAtomic k k' result blocks (execLog k file buffer record kstack) ↔
      ExecServed k buffer (execLog k file buffer record kstack) := by
  have hnext : (k.kmalloc buffer).next = k.next := kmalloc_next k buffer
  have hqueue : (k.kmalloc buffer).readyQueue = k.readyQueue := kmalloc_readyQueue k buffer
  cases elfExecAsThread_end hexec with
  | noFile =>
    exact iff_of_true (execAtomic_failed rfl rfl (by simp [execLog])) (by simp [ExecServed, execLog])
  | @noBuffer image hblock =>
    have hsame : k.kmalloc buffer = k := by rw [Kernel.kmalloc, hbuffer hblock]
    have hlog : execLog k (some image) buffer record kstack = [.null .buffer] := if_pos hblock
    rw [hlog]
    refine iff_of_true (execAtomic_failed hnext hqueue fun site _ => ⟨by rw [hsame], rfl⟩) ?_
    simp [ExecServed]
  | @noTable image v hblock hcreate =>
    obtain ⟨hnull, hhdm⟩ := null_of_noTable h hcreate
    have hpmm := pmm_of_null h hnull hcreate
    unfold execLog
    dsimp only
    rw [if_neg hblock, if_pos hnull, hcreate]
    dsimp only
    rw [if_pos rfl]
    have htop : AllocCall.null .topTable ∈ AllocCall.block buffer.block ::
        ([AllocCall.null .topTable] ++ [AllocCall.free buffer.block]) := by simp
    constructor
    · intro hatomic site hmem
      have hsite : site = .topTable := by simpa using hmem
      refine .inr ⟨hsite, hhdm, ?_⟩
      rw [← hpmm]
      exact (hatomic.onNull _ htop).2.1
    · intro hserved
      rcases hserved _ htop with heq | ⟨-, -, hbitmap⟩
      · cases heq
      refine execAtomic_failed hnext hqueue fun site _ => ⟨?_, ?_⟩
      · exact (congrArg Pmm.bitmap hpmm).trans hbitmap
      · exact Finset.erase_insert hblocks
  | @rejected image v v' r loaded hblock hcreate hr hload hentry =>
    rw [execLog_of_loaded hblock hcreate hr hload, if_neg (not_not.mpr hentry)]
    by_cases hnull : (pmmAllocPage (k.kmalloc buffer).vmm.pmm).2 = 0
    · rw [if_pos hnull]
      have htop : AllocCall.null .topTable ∈ AllocCall.block buffer.block ::
          ([AllocCall.null .topTable] ++ [AllocCall.free buffer.block]) := by simp
      apply iff_of_false
      · intro hatomic
        exact bitmap_ne_of_destroy h hnull hcreate hr hload (hatomic.onNull _ htop).2.1
      · exact not_execServed htop (by decide) fun _ => hhdm_ne_zero_of_null hnull hcreate hr
    · rw [if_neg hnull]
      exact iff_of_true (execAtomic_failed hnext hqueue (by simp)) (by simp [ExecServed])
  | @started image v v' r t loaded k' hblock hcreate hr hload hentry hthread =>
    rw [execLog_of_loaded hblock hcreate hr hload, if_pos hentry]
    by_cases hnull : (pmmAllocPage (k.kmalloc buffer).vmm.pmm).2 = 0
    · rw [if_pos hnull]
      have hlost : ∀ {log : List AllocCall}, .null .topTable ∈ log →
          (ExecAtomic k k' 0 blocks log ↔ ExecServed k buffer log) := fun htop =>
        iff_of_false (not_execAtomic_zero htop)
          (not_execServed htop (by decide) fun _ => hhdm_ne_zero_of_null hnull hcreate hr)
      exact hlost (by simp)
    rw [if_neg hnull]
    rcases createLog_spec hthread with ⟨site, hmem, hsite, htop⟩ | ⟨hlog, hrecord, vmm, hadd⟩
    · have hmem' : .null site ∈ AllocCall.block buffer.block ::
          ([] ++ AllocCall.free buffer.block ::
            createLog { k.kmalloc buffer with vmm := v' } r record kstack) := by simp [hmem]
      exact iff_of_false (not_execAtomic_zero hmem')
        (not_execServed hmem' hsite fun heq => absurd heq htop)
    · rw [hlog]
      refine iff_of_true ⟨by simp, iff_of_true rfl ?_⟩ (by simp [ExecServed])
      obtain ⟨k₀, thread, hplace, hnext₀, hqueue₀, hlive₀, hcurrent₀⟩ := newUser_eq_place
      rw [hplace] at hadd
      refine addsThread_place hring (hnext₀.trans hnext) (hqueue₀.trans hqueue) ?_ ?_ hrecord hfresh
        hadd
      · exact hlive₀.trans (kmalloc_live k buffer)
      · exact hcurrent₀.trans (kmalloc_currentThread k buffer)

end Exec

/-! ### Two machines -/

theorem ringInv_twoThreads : RingInv twoThreads.kernel where
  current := by decide
  zero := by decide
  ring := .inr ⟨[0x3000, 0x4000], onRing_pair (by decide) (by decide) (by decide) (by decide)
    (by decide) (by decide)⟩

/-- The call that starts a program gets all that it asks for. -/
theorem execAtomic_onePage : ExecAtomic twoThreads.kernel startedKernel 0 ∅
    (execLog twoThreads.kernel (some onePage) ⟨0x5000, none⟩ ⟨0x2000, none⟩ ⟨0x10000, none⟩) := by
  have howned := owned_of_reachable reachable_twoThreads
  refine (execAtomic_iff howned.inv ringInv_twoThreads (fun _ => rfl) (by decide) (by decide)
    startedKernel_eq).mpr ?_
  obtain ⟨hload, hmap⟩ := loadedVmm_eq
  have hpage : (pmmAllocPage twoThreads.kernel.vmm.pmm).2 ≠ 0 := by decide
  have hcreate : vmmCreateAddressSpace (twoThreads.kernel.kmalloc ⟨0x5000, none⟩).vmm =
      (newSpace.1, newSpace.2) := rfl
  have hlog : createLog { twoThreads.kernel.kmalloc ⟨0x5000, none⟩ with vmm := loadedVmm } newSpace.2
      ⟨0x2000, none⟩ ⟨0x10000, none⟩ = [.block 0x2000, .block 0x10000] := by
    apply createLog_of_mapped (by decide) (by decide)
    rw [kmalloc_none]
    exact hmap
  rw [execLog_of_loaded (by decide) hcreate (by decide) hload, kmalloc_none, if_neg hpage,
    if_pos (by decide)]
  rw [kmalloc_none] at hlog
  rw [hlog]
  simp [ExecServed]

/-- The machine when its pages are used up. -/
def fullKernel : Kernel :=
  { twoThreads.kernel with
    vmm := { bigVmm with pmm := { bigVmm.pmm with bitmap := fun _ => 0xFF } } }

theorem fullKernel_allocated (j : ℕ) : fullKernel.vmm.pmm.Allocated j := by
  have hlt : j % 8 < 8 := Nat.mod_lt _ (by decide)
  show pmmBitmapTest (fun _ => 0xFF) j = true
  rw [pmmBitmapTest_eq]
  interval_cases j % 8 <;> rfl

theorem fullKernel_full : Full fullKernel.vmm.pmm :=
  ⟨⟨by decide, by decide, fullKernel_allocated 0⟩, fun j _ => fullKernel_allocated j⟩

theorem fullKernel_inv : SpacesInv 4 fullKernel.vmm ∅ where
  depth := by decide
  reserves := fullKernel_full.reserves
  hhdm := by decide
  fits := by decide
  forest := by simp [RadixTree.Forest]
  backed := by simp [RadixTree.nodes]
  kernel := ⟨1, by decide, fullKernel_allocated 1, by decide⟩
  kernel_notMem := by simp [RadixTree.nodes]

/-- A program without segments. -/
def noSegments : Image := program 0x400000 [] []

theorem noSegments_load (v : Vmm) (r : Word) :
    elfLoad v r noSegments = .ok (v, ⟨0x400000, 0⟩) := by
  have haccepted : noSegments.ehdr.Accepted := by decide
  have hphnum : noSegments.ehdr.phnum.toNat = 0 := by decide
  have hentry : noSegments.ehdr.entry = 0x400000 := by decide
  unfold elfLoad
  dsimp only
  rw [if_pos haccepted, hphnum, hentry]
  rfl

/-- A call on a machine without a free page returns 0. -/
theorem exec_full (sym : Symbols) {k : Kernel} (argv : List (List Byte)) (console : Word)
    {buffer record : Kmalloc} (kstack : Kmalloc) (hfull : Full k.vmm.pmm) (hhdm : k.vmm.hhdm ≠ 0)
    (hbuffer : buffer.block ≠ 0) (hrecord : record.block ≠ 0) :
    ∃ k', elfExecAsThread sym k (some noSegments) argv console buffer record kstack =
      .ok (k', 0) := by
  have hfull₀ := hfull.kmalloc buffer
  obtain ⟨⟨v, r⟩, hcreate⟩ : ∃ c, vmmCreateAddressSpace (k.kmalloc buffer).vmm = c := ⟨_, rfl⟩
  have hv := hfull₀.vmmCreateAddressSpace
  have haddr := (vmmCreateAddressSpace_page (k.kmalloc buffer).vmm).2
  rw [hcreate] at hv haddr
  rw [pmmAllocPage_full hfull₀, Vmm.physToVirt, kmalloc_hhdm] at haddr
  have hroot : r = k.vmm.hhdm := haddr.trans (BitVec.zero_add _)
  have hr : r ≠ 0 := hroot ▸ hhdm
  obtain ⟨k', hthread⟩ := threadCreateUserspace_unmapped (k := { k.kmalloc buffer with vmm := v })
    sym 0x400000 0 console argv kstack hrecord (mapUserStack_full (r := r) (Full.kmalloc hv record))
  refine ⟨k', ?_⟩
  unfold elfExecAsThread
  dsimp only
  rw [if_neg hbuffer, hcreate]
  dsimp only
  rw [if_neg hr]
  refine Outcome.bind_eq_ok.mpr ⟨_, noSegments_load v r, ?_⟩
  dsimp only
  rw [if_pos (by decide)]
  exact Outcome.bind_eq_ok.mpr ⟨_, hthread, rfl⟩

theorem topTable_mem_execLog {k : Kernel} {image : Image} {buffer record kstack : Kmalloc}
    (hfull : Full k.vmm.pmm) (hbuffer : buffer.block ≠ 0) :
    .null .topTable ∈ execLog k (some image) buffer record kstack := by
  unfold execLog
  dsimp only
  rw [if_neg hbuffer, pmmAllocPage_full (hfull.kmalloc buffer), if_pos rfl]
  simp

/-- Without a page for the top-level table and for the stack a call returns 0. -/
theorem not_execAtomic : ¬ ∀ (sym : Symbols) (k k' : Kernel) (file : Option Image)
    (argv : List (List Byte)) (console : Word) (buffer record kstack : Kmalloc) (result : ℤ)
    (roots : Set Word) (blocks : Finset Word),
    SpacesInv 4 k.vmm roots → RingInv k → (buffer.block = 0 → buffer.run = none) →
      buffer.block ∉ blocks → record.block ∉ k.live →
      elfExecAsThread sym k file argv console buffer record kstack = .ok (k', result) →
      ExecAtomic k k' result blocks (execLog k file buffer record kstack) := by
  intro hall
  have hbuffer : (0x5000 : Word) ≠ 0 := by decide
  have hrecord : (0x2000 : Word) ≠ 0 := by decide
  obtain ⟨k', hexec⟩ : ∃ k', elfExecAsThread ⟨0x400, 0x500⟩ fullKernel (some noSegments) [] 0
      ⟨0x5000, none⟩ ⟨0x2000, none⟩ ⟨0x10000, none⟩ = .ok (k', 0) :=
    exec_full _ _ _ _ fullKernel_full (by decide) hbuffer hrecord
  have hring : RingInv fullKernel := ringInv_withVmm ringInv_twoThreads _
  have hatomic := hall _ _ _ _ _ _ _ _ _ _ _ ∅ fullKernel_inv hring (fun _ => rfl) (by decide)
    (by decide) hexec
  exact not_execAtomic_zero (topTable_mem_execLog fullKernel_full hbuffer) hatomic

end KyroOS.Process

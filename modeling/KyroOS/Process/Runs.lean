import KyroOS.Lib.Transition
import KyroOS.Process.Ownership

/-!
# Runs of processes

Address spaces are created and filled, threads are created in them, are scheduled, exit and
are reaped, in any order.

## Main definitions

* `Owners`, `ProcessEvent`, `processSystem` — the runs from `thread_init` on
* `KeepsOwners` — the condition under which an event keeps the owners of the address spaces
  apart

## Main results

* `owned_of_reachable` — then every address space has one owner in every state
* `reapsSafely_of_reachable` — then the reaper is safe in every state
* `not_reapsSafely` — a kernel thread that exits takes the kernel's address space with it
-/

namespace KyroOS.Process

open KyroOS.Memory KyroOS.Threads KyroOS.Elf Transition

/-- The kernel and the address spaces that belong to no thread yet. -/
structure Owners where
  kernel : Kernel
  pending : Set Word

/-- What happens to processes. -/
inductive ProcessEvent
  /-- `vmm_create_address_space`. -/
  | newSpace
  /-- A turn of the loop of `elf_load` over the pages of a segment. -/
  | loadPage (pml4 : Word) (image : Image) (ph : Elf64Phdr) (j : Word)
  /-- `thread_create_userspace`. -/
  | createUser (sym : Symbols) (entry pml4 programBreak : Word) (argv : List (List Byte))
    (console : Word) (record kstack : Kmalloc)
  /-- `vmm_destroy_address_space` for a file that was not loaded. -/
  | dropSpace (pml4 : Word)
  /-- `thread_create`. -/
  | createKernel (sym : Symbols) (func arg : Word) (record kstack : Kmalloc)
  /-- The timer or the current thread calls `schedule`. -/
  | schedule (turns : ℕ) (rsp : Word)
  /-- The current thread marks itself BLOCKED. -/
  | block
  /-- A thread is marked READY. -/
  | wake (p : Word)
  /-- The current thread enters `thread_exit`. -/
  | exit
  /-- The heap takes pages. -/
  | kmalloc (m : Kmalloc)

/-- One step. A thread that has exited does nothing but call `schedule`, and the block of a
new record was not in use. -/
inductive ProcessStep : Owners → ProcessEvent → Owners → Prop
  | newSpace {k : Kernel} {pending : Set Word} {v : Vmm} {r : Word} (hruns : k.Runs)
    (hcreate : vmmCreateAddressSpace k.vmm = (v, r)) (hr : r ≠ 0) :
    ProcessStep ⟨k, pending⟩ .newSpace ⟨{ k with vmm := v }, insert r pending⟩
  | newSpaceNone {k : Kernel} {pending : Set Word} {v : Vmm} (hruns : k.Runs)
    (hcreate : vmmCreateAddressSpace k.vmm = (v, 0)) :
    ProcessStep ⟨k, pending⟩ .newSpace ⟨{ k with vmm := v }, pending⟩
  | loadPage {k : Kernel} {pending : Set Word} {pml4 : Word} {image : Image} {ph : Elf64Phdr}
    {j : Word} {v : Vmm} (hruns : k.Runs) (hpending : pml4 ∈ pending)
    (hload : loadPage k.vmm pml4 (ph.vaddr + j) (pageFlags ph) (pageData image ph j) = .ok v) :
    ProcessStep ⟨k, pending⟩ (.loadPage pml4 image ph j) ⟨{ k with vmm := v }, pending⟩
  | createUser {k k' : Kernel} {pending : Set Word} {sym : Symbols}
    {entry pml4 programBreak console t : Word} {argv : List (List Byte)} {record kstack : Kmalloc}
    (hruns : k.Runs) (hpending : pml4 ∈ pending) (hfresh : record.block ∉ k.live)
    (hcreate : threadCreateUserspace sym k entry pml4 programBreak argv console record kstack =
      .ok (k', t)) :
    ProcessStep ⟨k, pending⟩ (.createUser sym entry pml4 programBreak argv console record kstack)
      ⟨k', pendingAfterCreate pending pml4 record⟩
  | dropSpace {k : Kernel} {pending : Set Word} {pml4 : Word} (hruns : k.Runs)
    (hpending : pml4 ∈ pending) :
    ProcessStep ⟨k, pending⟩ (.dropSpace pml4)
      ⟨{ k with vmm := vmmDestroyAddressSpace k.vmm pml4 }, pending \ {pml4}⟩
  | createKernel {k k' : Kernel} {pending : Set Word} {sym : Symbols} {func arg t : Word}
    {record kstack : Kmalloc} (hruns : k.Runs) (hfresh : record.block ∉ k.live)
    (hcreate : threadCreate sym k func arg record kstack = .ok (k', t)) :
    ProcessStep ⟨k, pending⟩ (.createKernel sym func arg record kstack) ⟨k', pending⟩
  | schedule {k k' : Kernel} {pending : Set Word} {turns : ℕ} {rsp : Word}
    (hschedule : scheduleAndSwitch turns k rsp = .ok k') :
    ProcessStep ⟨k, pending⟩ (.schedule turns rsp) ⟨k', pending⟩
  | block {k : Kernel} {pending : Set Word} (hruns : k.Runs) :
    ProcessStep ⟨k, pending⟩ .block ⟨k.setState k.currentThread .blocked, pending⟩
  | wake {k : Kernel} {pending : Set Word} {p : Word} (hruns : k.Runs) (hp : p ∈ k.live)
    (hdead : (k.thread p).state ≠ .dead) :
    ProcessStep ⟨k, pending⟩ (.wake p) ⟨k.setState p .ready, pending⟩
  | exit {k : Kernel} {pending : Set Word} (hruns : k.Runs) :
    ProcessStep ⟨k, pending⟩ .exit ⟨threadExit k, pending⟩
  | kmalloc {k : Kernel} {pending : Set Word} {m : Kmalloc} :
    ProcessStep ⟨k, pending⟩ (.kmalloc m) ⟨k.kmalloc m, pending⟩

/-- After `thread_init` the first thread runs in the kernel's address space, the only one. -/
structure ProcessBoot (s : Owners) : Prop where
  pending : s.pending = ∅
  init : ∃ k block rsp, k.live = ∅ ∧ SpacesInv 4 k.vmm ∅ ∧ k.currentPml4 = k.vmm.kernelPml4 ∧
    (∀ j ∈ k.heapPages, j < k.vmm.pmm.totalPages ∧ k.vmm.pmm.Allocated j) ∧
    threadInit k block rsp = .ok s.kernel

/-- The runs from `thread_init` on. -/
def processSystem : System Owners ProcessEvent where
  init := ProcessBoot
  step := ProcessStep

/-- An event keeps the owners apart: a new address space gets a page, segments and arguments go
to the user half, `thread_create` is called in the kernel's address space, and no thread that
runs there exits, the first one excepted. -/
def KeepsOwners (s : Owners) : ProcessEvent → Prop
  | .newSpace => ∃ p < s.kernel.vmm.pmm.totalPages, ¬ s.kernel.vmm.pmm.Allocated p
  | .loadPage _ _ ph j => UserHalf (ph.vaddr + j)
  | .createUser _ _ _ _ argv _ _ _ => ArgsFit argv
  | .createKernel .. => s.kernel.currentPml4 = s.kernel.vmm.kernelPml4
  | .exit =>
    let t := s.kernel.thread s.kernel.currentThread
    t.pml4 ≠ s.kernel.vmm.kernelPml4 ∨ t.id = 0
  | .dropSpace _ | .schedule .. | .block | .wake _ | .kmalloc _ => True

section Runs

variable {s s' : Owners} {e : ProcessEvent} {k : Kernel} {pending : Set Word}

theorem ProcessBoot.owned (h : ProcessBoot s) : Owned s.kernel s.pending := by
  obtain ⟨k, block, rsp, hempty, hinv, hcurrent, hheap, hinit⟩ := h.init
  rw [threadInit] at hinit
  split_ifs at hinit with hblock
  have hkernel := Except.ok.inj hinit
  have hvmm : s.kernel.vmm = k.vmm := by rw [← hkernel]; rfl
  have hheap' : s.kernel.heapPages = k.heapPages := by rw [← hkernel]; rfl
  have hlive : s.kernel.live = {block} := by
    rw [← hkernel]
    show insert block k.live = _
    rw [hempty, insert_empty_eq]
  have hmain : (s.kernel.thread block).pml4 = k.vmm.kernelPml4 ∧
      (s.kernel.thread block).state = .running := by
    rw [← hkernel]
    dsimp only
    rw [setThread_self]
    exact ⟨hcurrent, rfl⟩
  -- the first thread is no user thread, and the only one
  have hnone : ∀ p, ¬ IsUser s.kernel p := by
    rintro p ⟨hp, hpml4⟩
    rw [hlive, Finset.mem_singleton] at hp
    subst hp
    exact hpml4 (hmain.1.trans (hvmm ▸ rfl))
  have hspaces : allSpaces s.kernel s.pending = ∅ := by
    rw [allSpaces, h.pending, Set.empty_union]
    refine Set.eq_empty_of_forall_notMem ?_
    rintro r ⟨p, hp, -⟩
    exact hnone p hp
  refine ⟨?_, fun p _ hp => absurd hp (hnone p), fun p hp => absurd hp (hnone p),
    fun p hp => absurd hp (hnone p), fun p hp => ?_, fun j hj => ?_⟩
  · rw [hspaces, hvmm]
    exact hinv
  · have hp' := hp.live
    have hdead := hp.dead
    rw [hlive, Finset.mem_singleton] at hp'
    rw [hp', hmain.2] at hdead
    cases hdead
  · obtain ⟨hj', hall⟩ := hheap j (hheap' ▸ hj)
    rw [hspaces, hvmm]
    refine ⟨hinv.lt_of_lt_totalPages hj', fun _ => hall, ?_⟩
    rintro ⟨r, hr, -⟩
    exact hr

theorem Owned.newSpace (h : Owned k pending) {v : Vmm} {r : Word} (hcreates : Creates 4
    (allSpaces k pending) k.vmm r v) : Owned { k with vmm := v } (insert r pending) := by
  have hspaces : insert r (allSpaces k pending) = insert r pending ∪ userSpaces k := by
    rw [allSpaces, Set.insert_union]
  refine h.pend (hspaces ▸ .of_phase hcreates.phase rfl) rfl (fun _ _ => rfl) fun p hp => ?_
  rw [Set.mem_insert_iff, not_or]
  refine ⟨?_, h.handed p hp⟩
  rintro rfl
  exact hcreates.fresh (SpacesInv.mem_nodes hp.mem_allSpaces TablePath.nil rfl)

theorem Owned.exit (h : Owned k pending)
    (hexit : (k.thread k.currentThread).pml4 ≠ k.vmm.kernelPml4 ∨
      (k.thread k.currentThread).id = 0) : Owned (threadExit k) pending := by
  have hfield : ∀ {α : Type} (g : Thread → α) (p : Word), (∀ t s, g { t with state := s } = g t) →
      g ((threadExit k).thread p) = g (k.thread p) := fun g p hg =>
    setState_fields k k.currentThread p .dead g hg
  have hback : FewerUsers k (threadExit k) := fewerUsers_of_same Finset.Subset.rfl rfl
    (fun p _ => hfield Thread.pml4 p fun _ _ => rfl)
    fun p _ => hfield Thread.userStackBase p fun _ _ => rfl
  have hforth : FewerUsers (threadExit k) k := fewerUsers_of_same Finset.Subset.rfl rfl
    (fun p _ => (hfield Thread.pml4 p fun _ _ => rfl).symm)
    fun p _ => (hfield Thread.userStackBase p fun _ _ => rfl).symm
  have hspaces : allSpaces (threadExit k) pending = allSpaces k pending := by
    rw [allSpaces, userSpaces_congr hback hforth, allSpaces]
  refine h.fewer ⟨?_, fun j hj => .inl hj⟩ hback (fun p hp => h.handed p (hback.user p hp))
    fun p hp => ?_
  · rw [hspaces]
    exact .refl h.inv
  · have hid : (k.thread p).id ≠ 0 := (hfield Thread.id p fun _ _ => rfl) ▸ hp.id
    refine hforth.user p ?_
    by_cases hcurrent : p = k.currentThread
    · subst hcurrent
      exact ⟨hp.live, hexit.resolve_right hid⟩
    · have hdead := hp.dead
      rw [threadExit, Kernel.setState, setThread_of_ne _ _ hcurrent] at hdead
      exact h.dead p ⟨hp.live, hdead, hid⟩

/-- The step lemma. -/
theorem Owned.step (h : Owned s.kernel s.pending) (hkeeps : KeepsOwners s e)
    (hstep : ProcessStep s e s') : Owned s'.kernel s'.pending := by
  cases hstep with
  | newSpace hruns hcreate hr =>
    obtain ⟨p, hp, hfree⟩ := hkeeps
    obtain ⟨r', v', hcreate', -, hcreates⟩ :=
      vmmCreateAddressSpace_spec h.inv le_rfl (Pmm.findFree_ne_none hp hfree)
    obtain ⟨rfl, rfl⟩ := Prod.mk.inj (hcreate.symm.trans hcreate')
    exact h.newSpace hcreates
  | newSpaceNone hruns hcreate =>
    -- with a free page the result is not `NULL`
    obtain ⟨p, hp, hfree⟩ := hkeeps
    obtain ⟨r', v', hcreate', hr', -⟩ :=
      vmmCreateAddressSpace_spec h.inv le_rfl (Pmm.findFree_ne_none hp hfree)
    obtain ⟨-, rfl⟩ := Prod.mk.inj (hcreate.symm.trans hcreate')
    exact absurd rfl hr'
  | loadPage hruns hpending hload =>
    obtain ⟨f, hfills⟩ := loadPage_fills h.inv (.inl hpending) hkeeps (pageFlags_present _)
      (pageFlags_mask _) (length_pageData _ _ _) hload
    exact h.pend (.of_phase hfills.phase rfl) rfl (fun _ _ => rfl) h.handed
  | createUser hruns hpending hfresh hcreate =>
    exact h.createUser hpending hkeeps hfresh (threadCreateUserspace_end hcreate)
  | dropSpace hruns hpending =>
    have hphase := h.inv.destroy_phase (.inl hpending)
    refine h.pend (h.sdiff_pending hpending ▸ .of_phase hphase rfl) rfl (fun _ _ => rfl)
      fun p hp hmem => h.handed p hp hmem.1
  | createKernel hruns hfresh hcreate =>
    exact h.createKernel hkeeps hfresh (threadCreate_end hcreate)
  | schedule hschedule =>
    exact scheduleAndSwitch_preserves (I := fun k => Owned k _)
      (fun _ _ hI hshuffle => hI.shuffles hshuffle) (fun _ _ hI hdead => hI.reap hdead)
      hschedule h
  | block hruns => exact h.shuffles (shuffles_setState _ _ (by decide))
  | wake hruns hp hdead => exact h.shuffles (shuffles_setState _ _ (by decide))
  | exit hruns => exact h.exit hkeeps
  | kmalloc =>
    exact h.pend (kmalloc_heapPhase h.inv _) (kmalloc_live _ _)
      (fun p _ => by rw [kmalloc_thread]) h.handed

/-- Every address space has one owner in a run of events that keep them apart. -/
theorem owned_of_reachable (h : processSystem.ReachableUnder KeepsOwners s) :
    Owned s.kernel s.pending :=
  h.invariant (I := fun s => Owned s.kernel s.pending) (fun _ hboot => ProcessBoot.owned hboot)
    fun _ _ _ hI hkeeps hstep => Owned.step hI hkeeps hstep

/-- In such a run, whatever thread a call of `schedule` reaps, its address space is used by no
other thread, and the tables of the user threads are not free. -/
theorem reapsSafely_of_reachable (h : processSystem.ReachableUnder KeepsOwners s) :
    ReapsSafely s.kernel ∧ TablesAllocated s.kernel :=
  ⟨(owned_of_reachable h).reapsSafely, (owned_of_reachable h).tablesAllocated⟩

end Runs

/-! ### Runs of a small machine -/

section Small

/-- The small machine after `thread_init`. -/
def smallOwners : Owners where
  kernel := (threadInit smallKernel 0x1000 0).toOption.getD smallKernel
  pending := ∅

theorem boot_smallOwners : ProcessBoot smallOwners where
  pending := rfl
  init := ⟨smallKernel, 0x1000, 0, rfl, smallVmm_inv (by decide), by decide,
    fun j hj => absurd hj (Finset.notMem_empty j), rfl⟩

/-- A choice of a run of kernel threads. -/
inductive KernelChoice
  | create (block stack : Word)
  | schedule (turns : ℕ)
  | exit

/-- The state after a choice. -/
def kernelNext (s : Owners) : KernelChoice → Option Owners
  | .create block stack =>
    if s.kernel.Runs ∧ block ∉ s.kernel.live then
      (threadCreate ⟨0x400, 0x500⟩ s.kernel 0x600 0 ⟨block, none⟩ ⟨stack, none⟩).toOption.map
        fun r => ⟨r.1, s.pending⟩
    else none
  | .schedule turns => (scheduleAndSwitch turns s.kernel 0).toOption.map fun k => ⟨k, s.pending⟩
  | .exit => if s.kernel.Runs then some ⟨threadExit s.kernel, s.pending⟩ else none

/-- The event of a choice. -/
def kernelEvent : KernelChoice → ProcessEvent
  | .create block stack => .createKernel ⟨0x400, 0x500⟩ 0x600 0 ⟨block, none⟩ ⟨stack, none⟩
  | .schedule turns => .schedule turns 0
  | .exit => .exit

instance (s : Owners) : ∀ c, Decidable (KeepsOwners s (kernelEvent c))
  | .create _ _ => inferInstanceAs (Decidable (_ = _))
  | .schedule _ => inferInstanceAs (Decidable True)
  | .exit => inferInstanceAs (Decidable (_ ∨ _))

theorem processStep_of_kernelNext {s s' : Owners} {c : KernelChoice} (h : kernelNext s c = some s') :
    ProcessStep s (kernelEvent c) s' := by
  cases c with
  | create block stack =>
    rw [kernelNext] at h
    split_ifs at h with hguard
    obtain ⟨r, hcreate, rfl⟩ := Option.map_eq_some_iff.mp h
    exact .createKernel hguard.1 hguard.2 (Outcome.toOption_eq_some.mp hcreate)
  | schedule turns =>
    obtain ⟨k, hschedule, rfl⟩ := Option.map_eq_some_iff.mp h
    exact .schedule (Outcome.toOption_eq_some.mp hschedule)
  | exit =>
    rw [kernelNext] at h
    split_ifs at h with hguard
    obtain rfl := Option.some.inj h
    exact .exit hguard

/-- The state after a choice that keeps the owners apart. -/
def keepsNext (s : Owners) (c : KernelChoice) : Option Owners :=
  if KeepsOwners s (kernelEvent c) then kernelNext s c else none

theorem allowed_of_keepsNext {s s' : Owners} {c : KernelChoice} (h : keepsNext s c = some s') :
    processSystem.Allowed KeepsOwners s s' := by
  rw [keepsNext] at h
  split_ifs at h with hkeeps
  exact ⟨_, hkeeps, processStep_of_kernelNext h⟩

/-- Two kernel threads are created and scheduled. -/
theorem reapsSafely_of_two_threads : ∃ s : Owners, s.kernel.live.card = 3 ∧
    ReapsSafely s.kernel ∧ TablesAllocated s.kernel := by
  obtain ⟨s, hs, hcard⟩ := System.exists_reachableUnder (S := processSystem) (C := KeepsOwners)
    (P := fun s : Owners => s.kernel.live.card = 3)
    keepsNext [.create 0x2000 0x10000, .create 0x3000 0x20000, .schedule 1]
    (fun _ _ _ => allowed_of_keepsNext) boot_smallOwners (by decide)
  exact ⟨s, hcard, reapsSafely_of_reachable hs⟩

/-- A kernel thread exits and is reaped, with the kernel's page tables. -/
theorem not_reapsSafely : ¬ ∀ s, processSystem.Reachable s → ReapsSafely s.kernel := by
  intro hall
  obtain ⟨s, hs, hlive, hstate, hid, hne, hprev, hpml4, hkernel⟩ :=
    System.exists_reachableUnder (S := processSystem) (C := fun _ _ => True)
      (P := fun s : Owners =>
        let k := s.kernel
        let p := k.next k.readyQueue
        p ∈ k.live ∧ (k.thread p).state = .dead ∧ (k.thread p).id ≠ 0 ∧ p ≠ k.currentThread ∧
          k.readyQueue ∈ k.live ∧ (k.thread p).pml4 ≠ 0 ∧
          (k.thread p).pml4 = k.vmm.kernelPml4)
      kernelNext
      [.create 0x2000 0x10000, .create 0x3000 0x20000, .schedule 1, .exit, .schedule 1]
      (fun s c s' h => ⟨_, trivial, processStep_of_kernelNext h⟩)
      boot_smallOwners (by decide)
  exact (hall s hs _ .start ⟨⟨hlive, hstate, hid⟩, hne, hprev⟩ hpml4).1 hkernel

end Small

end KyroOS.Process

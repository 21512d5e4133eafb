import KyroOS.Process.Runs

/-!
# The pages of a process

`elf_exec_as_thread` takes pages for the segments of a program, for its stack and for the
tables that map them. When the thread has exited, the reaper gives back the pages of the stack
and of the tables. The pages of the segments are in no list, and nobody frees them.

## Main definitions

* `Conserved` — the same pages are allocated, up to those that the heap acquired
* `Quiet`, `Life` — a program is executed, its thread exits and is reaped, and in between no
  other address space comes or goes
* `HeapGrowth`, `Ledger` — what a step takes for the heap, and what a process holds

## Main results

* `Ledger.fills`, `Ledger.grow` — the steps of the ledger
* `conserved_iff` — the pages are conserved exactly when no segment takes a page
* `not_conserved` — a program with one page loses it
-/

namespace KyroOS.Process

open KyroOS.Memory KyroOS.Threads KyroOS.Elf Transition RadixTree

/-- The same pages are allocated, up to those that the heap acquired from `k` to `k'`. -/
def Conserved (k k' : Kernel) : Prop :=
  ∀ j, j ∉ k'.heapPages \ k.heapPages → (k'.vmm.pmm.Allocated j ↔ k.vmm.pmm.Allocated j)

/-- An event that leaves the address spaces alone. -/
def Quiet (s : Owners) (e : ProcessEvent) : Prop :=
  KeepsOwners s e ∧
    match e with
    | .newSpace | .loadPage .. | .createUser .. | .dropSpace _ => False
    | .schedule turns rsp => ∀ k', scheduleAndSwitch turns s.kernel rsp = .ok k' →
        k'.live = s.kernel.live
    | .createKernel .. | .block | .wake _ | .exit | .kmalloc _ => True

/-- The life of a process: `elf_exec_as_thread` creates a thread for an accepted image, later
`schedule` reaps that thread and no other, and in between the address spaces are left alone. -/
inductive Life (s : Owners) (image : Image) (argv : List (List Byte)) : Kernel → Prop
  | intro {sym : Symbols} {console rsp : Word} {buffer record kstack : Kmalloc}
    {k₁ k₂ k₃ : Kernel} {pending : Set Word} {turns : ℕ} (haccepted : image.ehdr.Accepted)
    (hfresh : record.block ∉ s.kernel.live)
    (hexec : elfExecAsThread sym s.kernel (some image) argv console buffer record kstack =
      .ok (k₁, 0))
    (hcreated : record.block ∈ k₁.live)
    (hquiet : processSystem.RunsTo Quiet ⟨k₁, s.pending⟩ ⟨k₂, pending⟩)
    (hschedule : scheduleAndSwitch turns k₂ rsp = .ok k₃) (hlive : record.block ∈ k₂.live)
    (hreaped : k₃.live = k₂.live.erase record.block) : Life s image argv k₃

/-! ### The heap -/

/-- From `k` to `k'` memory was left alone, and free pages were taken for the heap. -/
structure HeapGrowth (k k' : Kernel) : Prop where
  mem : k'.vmm.mem = k.vmm.mem
  hhdm : k'.vmm.hhdm = k.vmm.hhdm
  totalPages : k'.vmm.pmm.totalPages = k.vmm.pmm.totalPages
  heap : k.heapPages ⊆ k'.heapPages
  allocated : ∀ j, k'.vmm.pmm.Allocated j ↔
    k.vmm.pmm.Allocated j ∨ j ∈ k'.heapPages \ k.heapPages
  fresh : ∀ j ∈ k'.heapPages, j ∉ k.heapPages → ¬ k.vmm.pmm.Allocated j

section HeapGrowth

variable {k k' k'' : Kernel} {roots : Set Word} {r : Word} {virts : List Word}

theorem HeapGrowth.of_eq (hvmm : k'.vmm = k.vmm) (hheap : k'.heapPages = k.heapPages) :
    HeapGrowth k k' where
  mem := by rw [hvmm]
  hhdm := by rw [hvmm]
  totalPages := by rw [hvmm]
  heap := hheap.superset
  allocated := by simp [hvmm, hheap]
  fresh := fun j hj hnot => absurd (hheap ▸ hj) hnot

theorem HeapGrowth.trans (h : HeapGrowth k k') (h' : HeapGrowth k' k'') : HeapGrowth k k'' where
  mem := h'.mem.trans h.mem
  hhdm := h'.hhdm.trans h.hhdm
  totalPages := h'.totalPages.trans h.totalPages
  heap := h.heap.trans h'.heap
  allocated := by
    intro j
    have hin : j ∈ k.heapPages → j ∈ k'.heapPages := fun hj => h.heap hj
    have hin' : j ∈ k'.heapPages → j ∈ k''.heapPages := fun hj => h'.heap hj
    rw [h'.allocated, h.allocated, Finset.mem_sdiff, Finset.mem_sdiff, Finset.mem_sdiff]
    tauto
  fresh := by
    intro j hj hnot
    by_cases hj' : j ∈ k'.heapPages
    · exact h.fresh j hj' hnot
    · exact fun hall => h'.fresh j hj hj' ((h.allocated j).mpr (.inl hall))

theorem kmalloc_growth (hheap : ∀ j ∈ k.heapPages, k.vmm.Outside 4 roots j) (m : Kmalloc) :
    HeapGrowth k (k.kmalloc m) := by
  unfold Kernel.kmalloc
  cases m.run with
  | none => exact .of_eq rfl rfl
  | some run =>
    dsimp only
    split_ifs with hfree
    · have hnew : ∀ j, run.1 ≤ j ∧ j < run.1 + run.2 →
          j < k.vmm.pmm.totalPages ∧ ¬ k.vmm.pmm.Allocated j := fun j hj =>
        ⟨hj.2.trans_le hfree.1, hfree.2 j (List.mem_range'_1.mpr hj)⟩
      refine ⟨rfl, rfl, rfl, Finset.subset_union_left, fun j => ?_, fun j hj hnot => ?_⟩
      · rw [pmmTakeRun_allocated, Finset.mem_sdiff, Finset.mem_union, Finset.mem_Ico]
        -- a page of the run is free, and so not one of the heap yet
        have hdisjoint : run.1 ≤ j ∧ j < run.1 + run.2 → j ∉ k.heapPages := fun hj hmem =>
          (hnew j hj).2 ((hheap j hmem).allocated (hnew j hj).1)
        tauto
      · rw [Finset.mem_union, Finset.mem_Ico] at hj
        exact (hnew j (hj.resolve_left hnot)).2
    · exact .of_eq rfl rfl

theorem HeapGrowth.walk (h : HeapGrowth k k') (r : Word) (π : List ℕ) :
    k'.vmm.walk r π = k.vmm.walk r π := by
  have hnext : k'.vmm.nextLevel = k.vmm.nextLevel := by
    funext t i
    rw [Vmm.nextLevel, Vmm.nextLevel, Vmm.entry, Vmm.entry, h.mem, Vmm.physToVirt,
      Vmm.physToVirt, h.hhdm]
  rw [Vmm.walk, Vmm.walk, hnext]

theorem HeapGrowth.tablePages (h : HeapGrowth k k') :
    k'.vmm.tablePages r = k.vmm.tablePages r :=
  tablePages_congr h.hhdm h.totalPages fun ρ _ => h.walk r ρ

theorem HeapGrowth.framesAt (h : HeapGrowth k k') :
    k'.vmm.framesAt r virts = k.vmm.framesAt r virts := by
  ext f
  simp only [Vmm.framesAt, Set.mem_ofPred_eq, h.totalPages, h.walk, Vmm.pageVirt_congr h.hhdm]

end HeapGrowth

/-! ### The ledger of a process -/

/-- Since `k` the heap took pages, and the address space `r` the frames `F` and its tables. -/
structure Ledger (k k' : Kernel) (r : Word) (F : Set ℕ) : Prop where
  heap : k.heapPages ⊆ k'.heapPages
  allocated : ∀ j, k'.vmm.pmm.Allocated j ↔
    k.vmm.pmm.Allocated j ∨ j ∈ k'.heapPages \ k.heapPages ∨ j ∈ F ∨ j ∈ k'.vmm.tablePages r
  fresh : ∀ j, j ∈ F ∨ j ∈ k'.vmm.tablePages r → ¬ k.vmm.pmm.Allocated j ∧ j ∉ k'.heapPages
  apart : ∀ j ∈ F, j ∉ k'.vmm.tablePages r

section Ledger

variable {k k₀ k' k'' : Kernel} {roots : Set Word} {r : Word} {F F' L : Set ℕ} {v : Vmm}

/-- A new address space has its top-level table. -/
theorem Ledger.create (hgrowth : HeapGrowth k k₀) (hcreates : Creates 4 roots k₀.vmm r v)
    (hheap : ∀ j ∈ k₀.heapPages, k₀.vmm.Outside 4 roots j) :
    Ledger k { k₀ with vmm := v } r ∅ := by
  obtain ⟨p, rfl, hp, hfree, hall⟩ := hcreates.page
  have hp' : p < 2 ^ 40 := hcreates.inv.lt_of_lt_totalPages (hcreates.totalPages ▸ hp)
  have htables : ∀ j, j ∈ v.tablePages (k₀.vmm.pageVirt p) ↔ j = p := by
    intro j
    constructor
    · rintro ⟨hj, π, hπ, hw⟩
      obtain rfl := hcreates.empty π _ (hπ.mono (by decide)) hw
      have heq : k₀.vmm.pageVirt p = v.pageVirt j := Option.some.inj hw
      rw [Vmm.pageVirt_congr hcreates.hhdm] at heq
      exact (Vmm.pageVirt_inj hp' (hcreates.inv.lt_of_lt_totalPages hj) heq).symm
    · rintro rfl
      exact ⟨hcreates.totalPages ▸ hp, [], TablePath.nil,
        congrArg some (Vmm.pageVirt_congr hcreates.hhdm j).symm⟩
  refine ⟨hgrowth.heap, fun j => ?_, fun j hj => ?_, fun j hj => absurd hj (Set.notMem_empty j)⟩
  · rw [hall, hgrowth.allocated, htables]
    simp only [Set.mem_empty_iff_false, false_or]
    tauto
  · obtain rfl : j = p := (htables j).mp (hj.resolve_left (Set.notMem_empty j))
    exact ⟨fun hk => hfree ((hgrowth.allocated j).mpr (.inl hk)),
      fun hmem => hfree ((hheap j hmem).allocated hp)⟩

/-- Pages for the heap. -/
theorem Ledger.grow (h : Ledger k k' r F) (hg : HeapGrowth k' k'') : Ledger k k'' r F where
  heap := h.heap.trans hg.heap
  allocated := by
    intro j
    have hin : j ∈ k.heapPages → j ∈ k'.heapPages := fun hj => h.heap hj
    have hin' : j ∈ k'.heapPages → j ∈ k''.heapPages := fun hj => hg.heap hj
    rw [hg.allocated, h.allocated, hg.tablePages, Finset.mem_sdiff, Finset.mem_sdiff,
      Finset.mem_sdiff]
    tauto
  fresh := by
    intro j hj
    rw [hg.tablePages] at hj
    obtain ⟨hfree, hnot⟩ := h.fresh j hj
    refine ⟨hfree, fun hmem => hg.fresh j hmem hnot ?_⟩
    exact (h.allocated j).mpr (.inr (.inr hj))
  apart := fun j hj => hg.tablePages ▸ h.apart j hj

/-- Frames, with their tables. -/
theorem Ledger.fills (h : Ledger k k' r F) (hfills : Fills roots r k'.vmm v F')
    (hheap : ∀ j ∈ k'.heapPages, k'.vmm.Outside 4 roots j) :
    Ledger k { k' with vmm := v } r (F ∪ F') where
  heap := h.heap
  allocated := by
    intro j
    have hmono : j ∈ k'.vmm.tablePages r → j ∈ v.tablePages r := fun hj => hfills.tables_mono hj
    rw [hfills.allocated, h.allocated, Set.mem_union]
    tauto
  fresh := by
    intro j hj
    -- the page was in the ledger before, or it was free
    have hcases : (j ∈ F ∨ j ∈ k'.vmm.tablePages r) ∨
        j < k'.vmm.pmm.totalPages ∧ ¬ k'.vmm.pmm.Allocated j := by
      rcases hj with (hj | hj) | hj
      · exact .inl (.inl hj)
      · exact .inr ⟨(hfills.frames_fresh j hj).1, (hfills.frames_fresh j hj).2.1⟩
      · exact (hfills.tables_fresh j hj).imp .inr fun hnot => ⟨hfills.totalPages ▸ hj.1, hnot⟩
    rcases hcases with hold | ⟨hlt, hnot⟩
    · exact h.fresh j hold
    · exact ⟨fun hk => hnot ((h.allocated j).mpr (.inl hk)),
        fun hmem => hnot ((hheap j hmem).allocated hlt)⟩
  apart := by
    rintro j (hj | hj) hmem
    · rcases hfills.tables_fresh j hmem with hold | hnot
      · exact h.apart j hj hold
      · exact hnot ((h.allocated j).mpr (.inr (.inr (.inl hj))))
    · exact (hfills.frames_fresh j hj).2.2 hmem

/-- Writing to frames. -/
theorem Ledger.keeps (h : Ledger k k' r F) (hr : r ∈ roots) (hvmm : Keeps roots k'.vmm k''.vmm)
    (hheap : k''.heapPages = k'.heapPages) : Ledger k k'' r F := by
  have htables : k''.vmm.tablePages r = k'.vmm.tablePages r :=
    tablePages_congr hvmm.hhdm (by rw [hvmm.pmm]) fun ρ hρ =>
      hvmm.walk r hr ρ (hρ.mono (by decide))
  refine ⟨hheap ▸ h.heap, fun j => ?_, fun j hj => ?_, fun j hj => ?_⟩
  · rw [hvmm.pmm, hheap, htables]
    exact h.allocated j
  · rw [hheap]
    exact h.fresh j (htables ▸ hj)
  · rw [htables]
    exact h.apart j hj

/-- The reaper gives back the frames of the stack and the tables. -/
theorem Ledger.reap (h : Ledger k k' r F) (hinv : SpacesInv 4 k'.vmm roots) (hr : r ∈ roots)
    (hF : F = L ∪ k'.vmm.framesAt r (stackPages userStackStart))
    (hL : ∀ j ∈ L, j ∉ k'.vmm.framesAt r (stackPages userStackStart)) (j : ℕ) :
    (vmmDestroyAddressSpace (unmapAndFree k'.vmm r (stackPages userStackStart)) r).pmm.Allocated j ↔
      k.vmm.pmm.Allocated j ∨ j ∈ k'.heapPages \ k.heapPages ∨ j ∈ L := by
  have hclears := unmapAndFree_clears hinv hr userHalf_stackPages
  obtain ⟨pmm, heq, hfrees, -⟩ := hclears.inv.destroy hr
  -- no table is at an address of the stack
  have htables : (unmapAndFree k'.vmm r (stackPages userStackStart)).tablePages r =
      k'.vmm.tablePages r := by
    refine tablePages_congr hclears.hhdm hclears.frees.totalPages fun ρ hρ => ?_
    rcases hclears.walk r hr ρ (hρ.mono (by decide)) with ⟨-, ⟨virt, -, rfl⟩, -⟩ | ⟨-, hold⟩
    · exact absurd hρ.1 (by simp [pathOf])
    · exact hold
  have hstack : j ∈ k'.vmm.framesAt r (stackPages userStackStart) → j ∈ F := fun hj =>
    hF ▸ .inr hj
  rw [heq, hfrees.allocated, htables, hclears.frees.allocated, hclears.frees.totalPages, h.allocated]
  constructor
  · rintro ⟨⟨hk | hnew | hj | hj, hnot⟩, hnot'⟩
    · exact .inl hk
    · exact .inr (.inl hnew)
    · rw [hF] at hj
      exact .inr (.inr (hj.resolve_right fun hj => hnot ⟨hj, hj.1⟩))
    · exact absurd ⟨hj, hj.1⟩ hnot'
  · rintro (hk | hnew | hj)
    · exact ⟨⟨.inl hk, fun hj => (h.fresh j (.inl (hstack hj.1))).1 hk⟩,
        fun hj => (h.fresh j (.inr hj.1)).1 hk⟩
    · have hmem := (Finset.mem_sdiff.mp hnew).1
      exact ⟨⟨.inr (.inl hnew), fun hj => (h.fresh j (.inl (hstack hj.1))).2 hmem⟩,
        fun hj => (h.fresh j (.inr hj.1)).2 hmem⟩
    · have hjF : j ∈ F := hF ▸ .inl hj
      exact ⟨⟨.inr (.inr (.inl hjF)), fun hj' => hL j hj hj'.1⟩, fun hj' => h.apart j hjF hj'.1⟩

end Ledger

/-! ### The life of a process -/

/-- The thread `t` runs in the address space `r`, which since `k` took the frames `L` and those of
its stack. -/
structure Executed (k k' : Kernel) (pending : Set Word) (t r : Word) (L : Set ℕ) : Prop where
  owned : Owned k' pending
  user : IsUser k' t
  pml4 : (k'.thread t).pml4 = r
  stack : (k'.thread t).userStackBase = userStackStart
  ledger : Ledger k k' r (L ∪ k'.vmm.framesAt r (stackPages userStackStart))
  apart : ∀ j ∈ L, j ∉ k'.vmm.framesAt r (stackPages userStackStart)

section Life

variable {k k' k₁ : Kernel} {roots roots' pending : Set Word} {r t : Word} {L : Set ℕ} {image : Image}
  {argv : List (List Byte)} {sym : Symbols} {console rsp : Word} {buffer record kstack : Kmalloc}

theorem HeapPhase.outside (h : HeapPhase roots roots' k k')
    (hheap : ∀ j ∈ k.heapPages, k.vmm.Outside 4 roots j) :
    ∀ j ∈ k'.heapPages, k'.vmm.Outside 4 roots' j := by
  intro j hj
  rcases h.heap j hj with hold | hout
  · exact h.phase.outside j (hheap j hold)
  · exact hout

theorem Owned.kmalloc (h : Owned k pending) (m : Kmalloc) : Owned (k.kmalloc m) pending :=
  h.pend (kmalloc_heapPhase h.inv m) (kmalloc_live k m) (fun p _ => by rw [kmalloc_thread]) h.handed

theorem Keeps.framesAt (h : Keeps roots k.vmm k'.vmm) (hr : r ∈ roots) :
    k'.vmm.framesAt r (stackPages userStackStart) = k.vmm.framesAt r (stackPages userStackStart) := by
  ext f
  simp only [Vmm.framesAt, Set.mem_ofPred_eq, h.pmm, Vmm.pageVirt_congr h.hhdm]
  refine and_congr_right fun _ => exists_congr fun virt => and_congr_right fun hvirt => ?_
  rw [h.walk r hr _ (tablePath_pathOf (userHalf_stackPages virt hvirt))]

/-- What a call of `elf_exec_as_thread` has done when it returns: there was no file, no buffer or
no address space, the image was rejected, or it was started. -/
inductive ExecEnd (sym : Symbols) (k : Kernel) (argv : List (List Byte)) (console : Word)
    (buffer record kstack : Kmalloc) : Option Image → Kernel → ℤ → Prop
  | noFile : ExecEnd sym k argv console buffer record kstack none k (-1)
  | noBuffer {image : Image} (hblock : buffer.block = 0) :
      ExecEnd sym k argv console buffer record kstack (some image) (k.kmalloc buffer) (-1)
  | noTable {image : Image} {v : Vmm} (hblock : buffer.block ≠ 0)
      (hcreate : vmmCreateAddressSpace (k.kmalloc buffer).vmm = (v, 0)) :
      ExecEnd sym k argv console buffer record kstack (some image)
        { k.kmalloc buffer with vmm := v } (-1)
  | rejected {image : Image} {v v' : Vmm} {r : Word} {result : LoadResult}
      (hblock : buffer.block ≠ 0) (hcreate : vmmCreateAddressSpace (k.kmalloc buffer).vmm = (v, r))
      (hr : r ≠ 0) (hload : elfLoad v r image = .ok (v', result)) (hentry : result.entryPoint = 0) :
      ExecEnd sym k argv console buffer record kstack (some image)
        { k.kmalloc buffer with vmm := vmmDestroyAddressSpace v' r } (-1)
  | started {image : Image} {v v' : Vmm} {r t : Word} {result : LoadResult} {k' : Kernel}
      (hblock : buffer.block ≠ 0) (hcreate : vmmCreateAddressSpace (k.kmalloc buffer).vmm = (v, r))
      (hr : r ≠ 0) (hload : elfLoad v r image = .ok (v', result)) (hentry : result.entryPoint ≠ 0)
      (hthread : threadCreateUserspace sym { k.kmalloc buffer with vmm := v' } result.entryPoint r
        result.programBreak argv console record kstack = .ok (k', t)) :
      ExecEnd sym k argv console buffer record kstack (some image) k' 0

theorem elfExecAsThread_end {file : Option Image} {result : ℤ}
    (hexec : elfExecAsThread sym k file argv console buffer record kstack = .ok (k', result)) :
    ExecEnd sym k argv console buffer record kstack file k' result := by
  cases file with
  | none =>
    obtain ⟨rfl, rfl⟩ := Prod.mk.inj (Except.ok.inj hexec)
    exact .noFile
  | some image =>
    unfold elfExecAsThread at hexec
    extract_lets k₀ at hexec
    dsimp -zeta only at hexec
    by_cases hblock : buffer.block = 0
    · rw [if_pos hblock] at hexec
      obtain ⟨rfl, rfl⟩ := Prod.mk.inj (Except.ok.inj hexec)
      exact .noBuffer hblock
    rw [if_neg hblock] at hexec
    obtain ⟨v, r, hcreate⟩ : ∃ v r, vmmCreateAddressSpace k₀.vmm = (v, r) := ⟨_, _, rfl⟩
    rw [hcreate] at hexec
    dsimp -zeta only at hexec
    extract_lets k₂ at hexec
    by_cases hr : r = 0
    · rw [if_pos hr] at hexec
      obtain ⟨rfl, rfl⟩ := Prod.mk.inj (Except.ok.inj hexec)
      exact .noTable hblock (hr ▸ hcreate)
    rw [if_neg hr] at hexec
    obtain ⟨⟨v', result⟩, hload, hexec⟩ := Outcome.bind_eq_ok.mp hexec
    dsimp -zeta only at hexec
    extract_lets k₃ at hexec
    by_cases hentry : result.entryPoint ≠ 0
    · rw [if_pos hentry] at hexec
      obtain ⟨⟨k₄, t⟩, hthread, hexec⟩ := Outcome.bind_eq_ok.mp hexec
      obtain ⟨rfl, rfl⟩ := Prod.mk.inj (Except.ok.inj hexec)
      exact .started hblock hcreate hr hload hentry hthread
    · rw [if_neg hentry] at hexec
      obtain ⟨rfl, rfl⟩ := Prod.mk.inj (Except.ok.inj hexec)
      exact .rejected hblock hcreate hr hload (not_not.mp hentry)

/-- A call that returns 0 has loaded the image and tried to create a thread. -/
theorem elfExecAsThread_zero
    (hexec : elfExecAsThread sym k (some image) argv console buffer record kstack = .ok (k₁, 0)) :
    ∃ v r v' result t, vmmCreateAddressSpace (k.kmalloc buffer).vmm = (v, r) ∧
      elfLoad v r image = .ok (v', result) ∧
      threadCreateUserspace sym { k.kmalloc buffer with vmm := v' } result.entryPoint r
        result.programBreak argv console record kstack = .ok (k₁, t) := by
  generalize hzero : (0 : ℤ) = code at hexec
  cases elfExecAsThread_end hexec with
  | started hblock hcreate hr hload hentry hthread => exact ⟨_, _, _, _, _, hcreate, hload, hthread⟩
  | noBuffer | noTable | rejected => cases hzero

/-- A thread is created for a loaded program. -/
theorem executed_of_create {k₂ : Kernel} {entry programBreak : Word} (h : Owned k₂ pending)
    (hr : r ∈ pending) (hledger : Ledger k k₂ r L) (hfit : ArgsFit argv)
    (hfresh : record.block ∉ k₂.live)
    (hend : CreateEnd sym k₂ entry r programBreak argv console record kstack k₁ t)
    (hcreated : record.block ∈ k₁.live) :
    Executed k k₁ (pending \ {r}) record.block r L := by
  have howned := h.createUser hr hfit hfresh hend
  have hroots : r ∈ allSpaces k₂ pending := .inl hr
  have hkernel := (hend.phase h.inv hroots hfit).phase.kernelPml4
  cases hend with
  | noRecord hblock hk =>
    rw [hk, kmalloc_live] at hcreated
    exact absurd hcreated hfresh
  | noPage vmm hblock hmap hvmm hheap hlive =>
    rw [hlive] at hcreated
    exact absurd rfl (Finset.mem_erase.mp hcreated).1
  | noStack vmm hblock hmap hvmm hheap hlive =>
    rw [hlive] at hcreated
    exact absurd rfl (Finset.mem_erase.mp hcreated).1
  | created vmm hblock hstack hmap hvmm hheap hlive hcurrent hkstack hnew hthread =>
    unfold pendingAfterCreate at howned
    rw [if_neg hblock] at howned
    -- the record, the stack, the kernel stack and the arguments
    have hphase₃ := kmalloc_heapPhase h.inv record
    have hheap₃ := HeapPhase.outside hphase₃ h.heap
    have hledger₃ := hledger.grow (kmalloc_growth h.heap record)
    obtain ⟨F, hfills, -, hF⟩ := mapUserStack_fills hroots _ hphase₃.phase.inv userHalf_stackPages
      nodup_stackPages hmap
    have hledger₄ := hledger₃.fills hfills hheap₃
    have hphase₄ : HeapPhase _ (allSpaces k₂ pending) k₂ { k₂.kmalloc record with vmm } :=
      hphase₃.trans (.of_phase hfills.phase rfl) h.inv
    have hheap₄ := HeapPhase.outside hphase₄ h.heap
    have hgrowth₅ := kmalloc_growth hheap₄ kstack
    have hinv₅ := (kmalloc_heapPhase hphase₄.phase.inv kstack).phase.inv
    have hledger₅ := hledger₄.grow hgrowth₅
    have hkeeps := copyArguments_keeps hinv₅ hroots hfit
    have hkeeps' : Keeps (allSpaces k₂ pending)
        ({ k₂.kmalloc record with vmm } |>.kmalloc kstack).vmm k₁.vmm := hvmm ▸ hkeeps
    have hframes : k₁.vmm.framesAt r (stackPages userStackStart) = F := by
      rw [Keeps.framesAt hkeeps' hroots, hgrowth₅.framesAt, (hF rfl).1]
    obtain ⟨next, hnew⟩ := hnew
    refine ⟨howned, ⟨hcreated, ?_⟩, by rw [hnew], by rw [hnew], ?_, ?_⟩
    · rw [hnew, hkernel]
      rintro rfl
      exact h.inv.kernel_notMem (SpacesInv.mem_nodes hroots TablePath.nil rfl)
    · rw [hframes]
      exact hledger₅.keeps hroots hkeeps' hheap
    · intro j hj hmem
      rw [hframes] at hmem
      exact (hfills.frames_fresh j hmem).2.1 ((hledger₃.allocated j).mpr (.inr (.inr (.inl hj))))

/-- A program is executed while there is a page for its top-level table. -/
theorem executed_of_exec (h : Owned k pending) (hfree : (k.kmalloc buffer).vmm.pmm.findFree ≠ none)
    (huser : image.ehdr.Accepted → SegmentsInUserHalf image) (hfit : ArgsFit argv)
    (hfresh : record.block ∉ k.live)
    (hexec : elfExecAsThread sym k (some image) argv console buffer record kstack = .ok (k₁, 0))
    (hcreated : record.block ∈ k₁.live) :
    ∃ r L, Executed k k₁ pending record.block r L ∧ (L.Nonempty ↔ HasSegmentPages image) := by
  obtain ⟨v, r, v', result, t, hcreate, hload, hthread⟩ := elfExecAsThread_zero hexec
  -- the buffer, the address space and the segments
  have hgrowth : HeapGrowth k (k.kmalloc buffer) := kmalloc_growth h.heap buffer
  have h₀ : Owned (k.kmalloc buffer) pending := Owned.kmalloc h buffer
  obtain ⟨r', v'', hcreate', -, hcreates⟩ := vmmCreateAddressSpace_spec h₀.inv le_rfl hfree
  obtain ⟨rfl, rfl⟩ := Prod.mk.inj (hcreate.symm.trans hcreate')
  have h₁ := Owned.newSpace h₀ hcreates
  have hledger₁ := Ledger.create hgrowth hcreates h₀.heap
  have hr : r ∈ insert r pending := Set.mem_insert r pending
  obtain ⟨L, hfills, hL⟩ := elfLoad_fills h₁.inv (.inl hr) huser hload
  have h₂ : Owned { k.kmalloc buffer with vmm := v' } (insert r pending) :=
    h₁.pend (.of_phase hfills.phase rfl) rfl (fun _ _ => rfl) h₁.handed
  have hledger₂ := hledger₁.fills hfills h₁.heap
  rw [Set.empty_union] at hledger₂
  have hfresh₂ : record.block ∉ ({ k.kmalloc buffer with vmm := v' } : Kernel).live := by
    rw [kmalloc_live]
    exact hfresh
  have hexecuted := executed_of_create h₂ hr hledger₂ hfit hfresh₂
    (threadCreateUserspace_end hthread) hcreated
  have hnew : r ∉ pending := fun hmem =>
    hcreates.fresh (SpacesInv.mem_nodes (.inl hmem) TablePath.nil rfl)
  rw [Set.insert_sdiff_of_mem _ (Set.mem_singleton r), Set.sdiff_singleton_eq_self hnew] at hexecuted
  exact ⟨r, L, hexecuted, hL⟩

/-! ### Until the thread is reaped -/

/-- A step that takes pages for the heap at most, and leaves the thread alone. -/
theorem Executed.grow {pending' : Set Word} (h : Executed k k₁ pending t r L)
    (hgrowth : HeapGrowth k₁ k') (howned : Owned k' pending') (hlive : t ∈ k'.live)
    (hkernel : k'.vmm.kernelPml4 = k₁.vmm.kernelPml4)
    (hpml4 : (k'.thread t).pml4 = (k₁.thread t).pml4)
    (hstack : (k'.thread t).userStackBase = (k₁.thread t).userStackBase) :
    Executed k k' pending' t r L where
  owned := howned
  user := ⟨hlive, by rw [hpml4, hkernel]; exact h.user.2⟩
  pml4 := hpml4.trans h.pml4
  stack := hstack.trans h.stack
  ledger := by
    rw [hgrowth.framesAt]
    exact h.ledger.grow hgrowth
  apart := by
    rw [hgrowth.framesAt]
    exact h.apart

theorem Executed.shuffles (h : Executed k k₁ pending t r L) (hs : Shuffles k₁ k') :
    Executed k k' pending t r L :=
  h.grow (.of_eq hs.vmm hs.heapPages) (h.owned.shuffles hs) (hs.live ▸ h.user.1) (by rw [hs.vmm])
    (hs.pml4 t) (hs.userStackBase t)

/-- A call of `thread_create` takes pages for the heap at most. -/
theorem KernelCreateEnd.growth {func arg : Word}
    (hend : KernelCreateEnd sym k func arg record kstack k' t)
    (hinv : SpacesInv 4 k.vmm roots) (hheap : ∀ j ∈ k.heapPages, k.vmm.Outside 4 roots j) :
    HeapGrowth k k' := by
  have hrecord := kmalloc_growth hheap record
  have hheap' := HeapPhase.outside (kmalloc_heapPhase hinv record) hheap
  have hboth := hrecord.trans (kmalloc_growth hheap' kstack)
  cases hend with
  | noRecord hblock hk =>
    rw [hk]
    exact hrecord
  | noStack hblock hvmm hheapPages => exact hboth.trans (.of_eq hvmm hheapPages)
  | created hblock hstack hvmm hheapPages => exact hboth.trans (.of_eq hvmm hheapPages)

/-- A call of `thread_create` leaves the other threads alone. -/
theorem KernelCreateEnd.other {func arg p : Word}
    (hend : KernelCreateEnd sym k func arg record kstack k' t) (hfresh : record.block ∉ k.live)
    (hp : p ∈ k.live) : p ∈ k'.live ∧ (k'.thread p).pml4 = (k.thread p).pml4 ∧
      (k'.thread p).userStackBase = (k.thread p).userStackBase := by
  have hne : p ≠ record.block := by
    rintro rfl
    exact hfresh hp
  cases hend with
  | noRecord hblock hk =>
    rw [hk, kmalloc_live, kmalloc_thread]
    exact ⟨hp, rfl, rfl⟩
  | noStack hblock hvmm hheap hlive _ hthread =>
    rw [hlive, Finset.erase_insert hfresh, hthread p hne]
    exact ⟨hp, rfl, rfl⟩
  | created hblock hstack hvmm hheap hlive _ hkstack hnew hthread =>
    obtain ⟨next, hp'⟩ := hthread p hne
    rw [hlive, hp']
    exact ⟨Finset.mem_insert_of_mem hp, rfl, rfl⟩

/-- The step lemma: a quiet event leaves the ledger of the process in order. -/
theorem Executed.step {s s' : Owners} {e : ProcessEvent} (h : Executed k s.kernel s.pending t r L)
    (hquiet : Quiet s e) (hstep : ProcessStep s e s') :
    Executed k s'.kernel s'.pending t r L := by
  obtain ⟨hkeeps, hquiet⟩ := hquiet
  have howned := Owned.step h.owned hkeeps hstep
  cases hstep with
  | newSpace | newSpaceNone | loadPage | createUser | dropSpace => exact hquiet.elim
  | schedule hschedule => exact h.shuffles (shuffles_of_live_eq hschedule (hquiet _ hschedule))
  | block hruns => exact h.shuffles (shuffles_setState _ _ (by decide))
  | wake hruns hp hdead => exact h.shuffles (shuffles_setState _ _ (by decide))
  | exit hruns =>
    exact h.grow (.of_eq rfl rfl) howned h.user.1 rfl
      (setState_fields _ _ _ _ Thread.pml4 fun _ _ => rfl)
      (setState_fields _ _ _ _ Thread.userStackBase fun _ _ => rfl)
  | kmalloc =>
    exact h.grow (kmalloc_growth h.owned.heap _) howned ((kmalloc_live _ _).symm ▸ h.user.1)
      (kmalloc_phase h.owned.inv _).kernelPml4 (by rw [kmalloc_thread]) (by rw [kmalloc_thread])
  | createKernel hruns hfresh hcreate =>
    have hend := threadCreate_end hcreate
    obtain ⟨hlive, hpml4, hstack⟩ := KernelCreateEnd.other hend hfresh h.user.1
    exact h.grow (KernelCreateEnd.growth hend h.owned.inv h.owned.heap) howned hlive
      (hend.phase h.owned.inv).phase.kernelPml4 hpml4 hstack

/-- The run lemma. -/
theorem Executed.run {s s' : Owners} (h : Executed k s.kernel s.pending t r L)
    (hrun : processSystem.RunsTo Quiet s s') : Executed k s'.kernel s'.pending t r L :=
  hrun.preserves (I := fun s => Executed k s.kernel s.pending t r L)
    (fun _ _ _ hI hquiet hstep => Executed.step hI hquiet hstep) h

/-- When the thread is reaped, what is left are the frames of its segments. -/
theorem Executed.reaped {turns : ℕ} (h : Executed k k₁ pending t r L)
    (hschedule : scheduleAndSwitch turns k₁ rsp = .ok k') (hreaped : k'.live = k₁.live.erase t)
    (j : ℕ) : k'.vmm.pmm.Allocated j ↔
      k.vmm.pmm.Allocated j ∨ j ∈ k'.heapPages \ k.heapPages ∨ j ∈ L := by
  obtain ⟨hdead, hvmm, hheap⟩ := reaps_of_live_eq hschedule h.user.1 hreaped
  have hr : r ∈ allSpaces k₁ pending := h.pml4 ▸ h.user.mem_allSpaces
  have hpml4 : (k₁.thread t).pml4 ≠ 0 := h.pml4.symm ▸ root_ne_zero h.owned.inv hr
  rw [hvmm, reap_vmm hdead.id hpml4 h.stack, h.pml4, hheap]
  exact h.ledger.reap h.owned.inv hr rfl h.apart j

/-- The pages are conserved exactly when there are no frames of segments. -/
theorem Executed.conserves {turns : ℕ} (h : Executed k k₁ pending t r L)
    (hschedule : scheduleAndSwitch turns k₁ rsp = .ok k') (hreaped : k'.live = k₁.live.erase t) :
    Conserved k k' ↔ ¬ L.Nonempty := by
  have hall := h.reaped hschedule hreaped
  constructor
  · rintro hconserved ⟨j, hj⟩
    obtain ⟨-, -, hheap⟩ := reaps_of_live_eq hschedule h.user.1 hreaped
    obtain ⟨hfree, hnot⟩ := h.ledger.fresh j (.inl (.inl hj))
    have hnot' : j ∉ k'.heapPages \ k.heapPages := fun hmem =>
      hnot (hheap ▸ (Finset.mem_sdiff.mp hmem).1)
    exact hfree ((hconserved j hnot').mp ((hall j).mpr (.inr (.inr hj))))
  · intro hnone j hj
    rw [hall]
    constructor
    · rintro (hk | hnew | hL)
      · exact hk
      · exact absurd hnew hj
      · exact absurd ⟨j, hL⟩ hnone
    · exact .inl

end Life

/-! ### Without a free page -/

/-- No page is free. -/
structure Full (p : Pmm) : Prop where
  reserves : p.Reserves
  allocated : ∀ j < p.totalPages, p.Allocated j

section Full

variable {k k₁ : Kernel} {v v' : Vmm} {r t : Word} {image : Image} {argv : List (List Byte)}
  {sym : Symbols} {console : Word} {buffer record kstack : Kmalloc}

theorem pmmAllocPage_full {p : Pmm} (h : Full p) : pmmAllocPage p = (p, 0) := by
  have hspec := pmmAllocPage_spec h.reserves
  generalize pmmAllocPage p = result at hspec ⊢
  cases hspec with
  | null _ => rfl
  | page i hlt hpos hfree => exact absurd (h.allocated i hlt) hfree

theorem Full.kmalloc (h : Full k.vmm.pmm) (m : Kmalloc) : Full (k.kmalloc m).vmm.pmm := by
  obtain ⟨-, pmm, hvmm, hgrows⟩ := kmalloc_eq k m
  rw [hvmm]
  exact ⟨hgrows.reserves h.reserves, fun j hj =>
    hgrows.allocated j (h.allocated j (hgrows.totalPages ▸ hj))⟩

theorem Full.vmmCreateAddressSpace (h : Full v.pmm) : Full (vmmCreateAddressSpace v).1.pmm := by
  unfold Memory.vmmCreateAddressSpace
  rw [pmmAllocPage_full h]
  dsimp only
  split_ifs <;> exact h

/-- A segment with a page is not loaded. -/
theorem not_loadPage_full (h : Full v.pmm) (virt flags : Word) (data : List Byte) :
    loadPage v r virt flags data ≠ .ok v' := by
  unfold loadPage
  rw [pmmAllocPage_full h]
  intro heq
  cases heq

/-- Nor is a program with a page in a segment, so a load that ends has changed nothing. -/
theorem Full.elfLoad_eq {result : LoadResult} (h : Full v.pmm)
    (hok : elfLoad v r image = .ok (v', result)) : v' = v := by
  have hsegment : ∀ {ph : Elf64Phdr} {w' : Vmm} (js : List Word),
      js.foldlM (fun v j => loadPage v r (ph.vaddr + j) (pageFlags ph) (pageData image ph j)) v =
        .ok w' → w' = v := by
    intro ph w' js hfold
    cases js with
    | nil => exact (Except.ok.inj hfold).symm
    | cons j js =>
      obtain ⟨w₁, hload, -⟩ := Outcome.bind_eq_ok.mp hfold
      exact absurd hload (not_loadPage_full h _ _ _)
  have hheaders : ∀ (is : List ℕ) {s s' : Vmm × Word}, s.1 = v →
      is.foldlM (loadHeader image r) s = .ok s' → s'.1 = v := by
    intro is
    induction is with
    | nil => exact fun hs hfold => Except.ok.inj hfold ▸ hs
    | cons i is ih =>
      intro s s' hs hfold
      obtain ⟨s₁, hturn, hrest⟩ := Outcome.bind_eq_ok.mp hfold
      refine ih ?_ hrest
      by_cases htype : (image.phdr i).type = ptLoad
      · rw [loadHeader, if_pos htype, hs] at hturn
        obtain ⟨w, hload, hs₁⟩ := Outcome.bind_eq_ok.mp hturn
        rw [← Except.ok.inj hs₁]
        exact hsegment _ hload
      · rw [loadHeader, if_neg htype] at hturn
        exact Except.ok.inj hturn ▸ hs
  unfold Elf.elfLoad at hok
  dsimp only at hok
  split_ifs at hok
  · obtain ⟨s, hloop, hs⟩ := Outcome.bind_eq_ok.mp hok
    obtain ⟨rfl, -⟩ := Prod.mk.inj (Except.ok.inj hs)
    exact hheaders _ rfl hloop
  · obtain ⟨rfl, -⟩ := Prod.mk.inj (Except.ok.inj hok)
    rfl

/-- The first page of a user stack is not to be had. -/
theorem mapUserStack_full (h : Full v.pmm) :
    mapUserStack v r (stackPages userStackStart) = .ok (v, false) := by
  have hpages : stackPages userStackStart =
      userStackStart :: (List.range 255).map fun i =>
        userStackStart + BitVec.ofNat 64 ((i + 1) * pageSize) := by
    rw [stackPages, List.range_succ_eq_map, List.map_cons, List.map_map]
    rfl
  rw [hpages, mapUserStack, pmmAllocPage_full h]
  rfl

/-- Then no thread is created, since its stack takes a page. -/
theorem not_created_full (h : Full (k.kmalloc buffer).vmm.pmm)
    (hfresh : record.block ∉ k.live)
    (hexec : elfExecAsThread sym k (some image) argv console buffer record kstack = .ok (k₁, 0)) :
    record.block ∉ k₁.live := by
  obtain ⟨v, r, v', result, t, hcreate, hload, hthread⟩ := elfExecAsThread_zero hexec
  have hcreated : Full v.pmm := by
    have hfull := h.vmmCreateAddressSpace
    rwa [hcreate] at hfull
  have hloaded : Full ({ k.kmalloc buffer with vmm := v' } : Kernel).vmm.pmm := by
    rw [hcreated.elfLoad_eq hload]
    exact hcreated
  have hfresh' : record.block ∉ ({ k.kmalloc buffer with vmm := v' } : Kernel).live := by
    rw [kmalloc_live]
    exact hfresh
  have hend := threadCreateUserspace_end hthread
  cases hend with
  | noRecord hblock hk =>
    rw [hk, kmalloc_live]
    exact hfresh'
  | noPage vmm hblock hmap hvmm hheap hlive =>
    rw [hlive]
    exact Finset.notMem_erase _ _
  | noStack vmm hblock hmap hvmm hheap hlive =>
    rw [hlive]
    exact Finset.notMem_erase _ _
  | created vmm hblock hstack hmap =>
    rw [mapUserStack_full (hloaded.kmalloc record)] at hmap
    cases hmap

end Full

/-! ### Conservation -/

section Conservation

variable {s : Owners} {image : Image} {argv : List (List Byte)} {k : Kernel}

/-- In a life of a program that stays in the user half the pages are conserved exactly when no
segment takes a page. -/
theorem Life.conserves (hlife : Life s image argv k)
    (h : processSystem.ReachableUnder KeepsOwners s) (hfit : ArgsFit argv)
    (huser : image.ehdr.Accepted → SegmentsInUserHalf image) :
    Conserved s.kernel k ↔ ¬ HasSegmentPages image := by
  have howned := owned_of_reachable h
  cases hlife with
  | @intro sym console rsp buffer record kstack k₁ k₂ k₃ pending turns haccepted hfresh hexec
      hcreated hquiet hschedule hlive hreaped =>
    have hfree : (s.kernel.kmalloc buffer).vmm.pmm.findFree ≠ none := by
      intro hnone
      refine not_created_full (k := s.kernel) ⟨?_, fun j hj => ?_⟩ hfresh hexec hcreated
      · exact (Owned.kmalloc howned buffer).inv.reserves
      · by_contra hnot
        exact Pmm.findFree_ne_none hj hnot hnone
    obtain ⟨r, L, hexecuted, hL⟩ := executed_of_exec howned hfree huser hfit hfresh hexec hcreated
    rw [← hL]
    exact (Executed.run (s := ⟨k₁, s.pending⟩) hexecuted hquiet).conserves hschedule hreaped

/-- In a life of a process after a run that keeps the owners apart, with arguments that fit, the
pages are conserved when no segment takes a page; and for a program that stays in the user half
only then. -/
theorem conserved_iff (h : processSystem.ReachableUnder KeepsOwners s) (hfit : ArgsFit argv)
    (hlife : Life s image argv k) :
    (¬ HasSegmentPages image → Conserved s.kernel k) ∧
      (SegmentsInUserHalf image → Conserved s.kernel k → ¬ HasSegmentPages image) := by
  refine ⟨fun hnone => ?_, fun huser => (hlife.conserves h hfit fun _ => huser).mp⟩
  refine (hlife.conserves h hfit fun haccepted i hi htype j hj => ?_).mpr hnone
  -- a segment without pages is nowhere
  have hne := (pageOffsets_ne_nil (image.phdr i)).mp (List.ne_nil_of_mem hj)
  exact absurd ⟨haccepted, i, hi, htype, hne⟩ hnone

end Conservation

/-! ### A program with one page

It is loaded on a machine with two kernel threads, on which its thread comes to the ring as the
third. -/

/-- A machine of 2048 pages, of which page 0 and the kernel's top-level table are taken. -/
def bigVmm : Vmm := { smallVmm with pmm := { smallVmm.pmm with totalPages := 2048 } }

theorem bigVmm_inv : SpacesInv 4 bigVmm ∅ where
  depth := by decide
  reserves := ⟨by decide, by decide, by decide⟩
  hhdm := by decide
  fits := by decide
  forest := by simp [RadixTree.Forest]
  backed := by simp [RadixTree.nodes]
  kernel := ⟨1, by decide, by decide, by decide⟩
  kernel_notMem := by simp [RadixTree.nodes]

/-- All pages but the first two are free. -/
theorem bigVmm_room : bigVmm.pmm.Room 2046 := by
  have hfree : Finset.Ico 2 2048 ⊆
      (Finset.range bigVmm.pmm.totalPages).filter fun i => ¬ bigVmm.pmm.Allocated i := by
    intro i hi
    obtain ⟨hge, hlt⟩ := Finset.mem_Ico.mp hi
    rw [Finset.mem_filter, Finset.mem_range]
    refine ⟨hlt, ?_⟩
    show ¬ ((if i / 8 = 0 then (3 : Byte) else 0) &&& 1#8 <<< (i % 8) != 0) = true
    by_cases hbyte : i / 8 = 0
    · -- the six other pages of the first byte
      rw [if_pos hbyte]
      have hlow : i < 8 := by omega
      interval_cases i <;> decide
    · simp [hbyte]
  calc 2046 = (Finset.Ico 2 2048).card := by rw [Nat.card_Ico]
    _ ≤ _ := Finset.card_le_card hfree

def bigKernel : Kernel := { clearKernel with vmm := bigVmm, cr3 := 0x1000 }

/-- The machine after `thread_init`. -/
def bigOwners : Owners := ⟨(threadInit bigKernel 0x1000 0).toOption.getD bigKernel, ∅⟩

theorem boot_bigOwners : ProcessBoot bigOwners where
  pending := rfl
  init := ⟨bigKernel, 0x1000, 0, rfl, bigVmm_inv, by decide,
    fun j hj => absurd hj (Finset.notMem_empty j), rfl⟩

/-- The machine with two kernel threads. -/
def twoThreads : Owners :=
  (execAll keepsNext bigOwners [.create 0x3000 0x20000, .create 0x4000 0x30000]).getD bigOwners

theorem reachable_twoThreads : processSystem.ReachableUnder KeepsOwners twoThreads := by
  have hsome : (execAll keepsNext bigOwners
      [.create 0x3000 0x20000, .create 0x4000 0x30000]).isSome = true := by decide
  obtain ⟨s, hs⟩ := Option.isSome_iff_exists.mp hsome
  have htwo : twoThreads = s := by rw [twoThreads, hs, Option.getD_some]
  rw [htwo]
  exact ⟨bigOwners, boot_bigOwners,
    System.runsTo_of_execAll (fun _ _ _ => allowed_of_keepsNext) hs⟩

/-- A program with one page. -/
def onePage : Image := program 0x400000 [⟨ptLoad, pfX, 0, 0x400000, 0, 1⟩] []

theorem onePage_accepted : onePage.ehdr.Accepted := by decide

theorem onePage_phdr : onePage.phdr 0 = ⟨ptLoad, pfX, 0, 0x400000, 0, 1⟩ := by decide

theorem onePage_load {v : Vmm} {r : Word} {n : ℕ} (hres : v.pmm.Reserves) (h : v.pmm.Room (n + 4)) :
    ∃ v', elfLoad v r onePage = .ok (v', ⟨0x400000, 0x400001⟩) ∧ v'.pmm.Reserves ∧
      v'.pmm.Room n := by
  obtain ⟨v', hload, hres', hroom⟩ := loadPage_room hres h r (0x400000 + 0) (pageFlags (onePage.phdr 0))
    (pageData onePage (onePage.phdr 0) 0)
  refine ⟨v', ?_, hres', hroom⟩
  have hphnum : onePage.ehdr.phnum.toNat = 1 := by decide
  have hentry : onePage.ehdr.entry = 0x400000 := by decide
  have hoffsets : pageOffsets (onePage.phdr 0) = [0] := by rw [onePage_phdr]; decide
  have hsegment : loadSegment onePage (onePage.phdr 0) r v = .ok v' := by
    rw [loadSegment, hoffsets]
    refine Outcome.bind_eq_ok.mpr ⟨v', ?_, rfl⟩
    rw [show (onePage.phdr 0).vaddr = 0x400000 by rw [onePage_phdr]]
    exact hload
  unfold elfLoad
  dsimp only
  rw [if_pos onePage_accepted, hphnum, hentry]
  refine Outcome.bind_eq_ok.mpr ⟨(v', 0x400001), ?_, rfl⟩
  refine Outcome.bind_eq_ok.mpr ⟨(v', 0x400001), ?_, rfl⟩
  rw [loadHeader, if_pos (by rw [onePage_phdr])]
  refine Outcome.bind_eq_ok.mpr ⟨v', hsegment, ?_⟩
  rw [onePage_phdr]
  rfl

/-- The new address space, and the page tables with the program and with its stack. -/
def newSpace : Vmm × Word := vmmCreateAddressSpace twoThreads.kernel.vmm

def loadedVmm : Vmm := ((elfLoad newSpace.1 newSpace.2 onePage).toOption.map Prod.fst).getD bigVmm

def stackedVmm : Vmm :=
  ((mapUserStack loadedVmm newSpace.2 (stackPages userStackStart)).toOption.map Prod.fst).getD bigVmm

theorem twoThreads_room :
    twoThreads.kernel.vmm.pmm.Reserves ∧ twoThreads.kernel.vmm.pmm.Room 2046 := by
  have hsame : twoThreads.kernel.vmm = bigVmm := rfl
  rw [hsame]
  exact ⟨bigVmm_inv.reserves, bigVmm_room⟩

theorem loadedVmm_eq : elfLoad newSpace.1 newSpace.2 onePage = .ok (loadedVmm, ⟨0x400000, 0x400001⟩) ∧
    mapUserStack loadedVmm newSpace.2 (stackPages userStackStart) = .ok (stackedVmm, true) := by
  obtain ⟨hres, hroom⟩ := twoThreads_room
  obtain ⟨hres₁, hroom₁⟩ := vmmCreateAddressSpace_room (n := 2045) hres hroom
  obtain ⟨v, hload, hres₂, hroom₂⟩ := onePage_load (r := newSpace.2) (n := 2041) hres₁ hroom₁
  have hloaded : loadedVmm = v := by
    rw [loadedVmm, show newSpace.1 = (vmmCreateAddressSpace twoThreads.kernel.vmm).1 from rfl, hload]
    rfl
  obtain ⟨v', hmap, -⟩ := mapUserStack_room (r := newSpace.2) (n := 2041 - 4 * 256)
    (stackPages userStackStart) hres₂ (by
      rw [stackPages, List.length_map, List.length_range]
      exact hroom₂)
  have hstacked : stackedVmm = v' := by
    rw [stackedVmm, hloaded, hmap]
    rfl
  rw [hloaded, hstacked]
  exact ⟨hload, hmap⟩

/-- The machine while the program is loaded, and with its thread. -/
def loadedKernel : Kernel := { twoThreads.kernel with vmm := loadedVmm }

def startedKernel : Kernel :=
  (schedulerAddThread (newUser ⟨0x400, 0x500⟩ loadedKernel 0x400000 0xFFFF800000002000 0x400001 [] 0
    ⟨0x2000, none⟩ ⟨0x10000, none⟩ stackedVmm) 0x2000).toOption.getD loadedKernel

/-- The thread of the program is created. -/
theorem startedKernel_created : threadCreateUserspace ⟨0x400, 0x500⟩ loadedKernel 0x400000
    0xFFFF800000002000 0x400001 [] 0 ⟨0x2000, none⟩ ⟨0x10000, none⟩ =
      .ok (startedKernel, 0x2000) := by
  obtain ⟨-, hmap⟩ := loadedVmm_eq
  have hnew : newSpace.2 = 0xFFFF800000002000 := by decide
  rw [hnew] at hmap
  have hadd : schedulerAddThread (newUser ⟨0x400, 0x500⟩ loadedKernel 0x400000 0xFFFF800000002000 0x400001 []
      0 ⟨0x2000, none⟩ ⟨0x10000, none⟩ stackedVmm) 0x2000 = .ok startedKernel := by
    have hsome : (schedulerAddThread (newUser ⟨0x400, 0x500⟩ loadedKernel 0x400000 0xFFFF800000002000
        0x400001 [] 0 ⟨0x2000, none⟩ ⟨0x10000, none⟩ stackedVmm) 0x2000).toOption.isSome = true := by
      decide
    obtain ⟨k, hk⟩ := Option.isSome_iff_exists.mp hsome
    rw [Outcome.toOption_eq_some.mp hk, startedKernel, hk, Option.getD_some]
  exact threadCreateUserspace_of_mapped (by decide) (by decide) hmap hadd

theorem startedKernel_eq : elfExecAsThread ⟨0x400, 0x500⟩ twoThreads.kernel (some onePage) [] 0
    ⟨0x5000, none⟩ ⟨0x2000, none⟩ ⟨0x10000, none⟩ = .ok (startedKernel, 0) := by
  obtain ⟨hload, -⟩ := loadedVmm_eq
  have hnew : newSpace.2 = 0xFFFF800000002000 := by decide
  rw [hnew] at hload
  unfold elfExecAsThread
  dsimp only [Kernel.kmalloc]
  rw [if_neg (by decide)]
  rw [show vmmCreateAddressSpace twoThreads.kernel.vmm = (newSpace.1, 0xFFFF800000002000) from
    Prod.ext rfl hnew]
  dsimp only
  rw [if_neg (by decide)]
  refine Outcome.bind_eq_ok.mpr ⟨_, hload, ?_⟩
  dsimp only
  rw [if_pos (by decide)]
  exact Outcome.bind_eq_ok.mpr ⟨_, startedKernel_created, rfl⟩

/-- The thread of the program and the two kernel threads are on the ring. -/
theorem triangle_startedKernel : Triangle startedKernel 0x2000 0x3000 0x4000 where
  queue := by decide
  nextX := by decide
  nextY := by decide
  nextZ := by decide
  liveX := by decide
  liveY := by decide
  liveZ := by decide
  current := by decide
  zero := by decide

theorem state_startedKernel : (startedKernel.thread 0x2000).state = .ready ∧
    (startedKernel.thread 0x3000).state = .ready ∧ (startedKernel.thread 0x4000).state = .ready ∧
    startedKernel.currentThread = 0x1000 ∧ (startedKernel.thread 0x2000).id ≠ 0 := by
  decide

theorem quiet_preempted {k k' : Kernel} {y : Word} (h : Preempted k k' y) (pending : Set Word) :
    processSystem.Allowed Quiet ⟨k, pending⟩ ⟨k', pending⟩ := by
  refine ⟨.schedule 1 0, ⟨trivial, fun k'' h' => ?_⟩, .schedule h.schedule⟩
  obtain rfl := Except.ok.inj (h.schedule.symm.trans h')
  exact h.live

theorem argsFit_nil : ArgsFit [] := by decide

theorem onePage_userHalf : SegmentsInUserHalf onePage := by
  intro i hi htype j hj
  have hphnum : onePage.ehdr.phnum.toNat = 1 := by decide
  rw [hphnum, List.range_one, List.mem_singleton] at hi
  subst hi
  have hoffsets : pageOffsets (onePage.phdr 0) = [0] := by rw [onePage_phdr]; decide
  rw [hoffsets, List.mem_singleton] at hj
  subst hj
  rw [onePage_phdr]
  exact (by decide : pml4Index (0x400000 + 0) < 256)

/-- The program is executed, its thread is switched to, exits and is reaped by the second of the
other two threads. -/
theorem life_onePage : ∃ k, Life twoThreads onePage [] k := by
  have howned := owned_of_reachable reachable_twoThreads
  have hfresh : (0x2000 : Word) ∉ twoThreads.kernel.live := by decide
  have hcreated : (0x2000 : Word) ∈ startedKernel.live := triangle_startedKernel.liveX
  obtain ⟨r, L, hexecuted, -⟩ := executed_of_exec howned (by decide)
    (fun _ => onePage_userHalf) argsFit_nil hfresh startedKernel_eq hcreated
  obtain ⟨ht, hA, hB, hmain, hid⟩ := state_startedKernel
  -- the switches up to the thread of the program
  obtain ⟨k₁, htri₁, hsw₁⟩ := triangle_startedKernel.switch hA (hmain.trans_ne (by decide))
  have hB₁ := (hsw₁.same 0x4000 (by decide) (hB.trans_ne (by decide))).trans hB
  have ht₁ := (hsw₁.same 0x2000 (by decide) (ht.trans_ne (by decide))).trans ht
  obtain ⟨k₂, htri₂, hsw₂⟩ := htri₁.switch hB₁ (hsw₁.current.trans_ne (by decide))
  have hA₂ : (k₂.thread 0x3000).state = .ready := by
    have hready := hsw₂.ready
    rw [hsw₁.current] at hready
    exact hready hsw₁.running
  have ht₂ := (hsw₂.same 0x2000 (by decide) (ht₁.trans_ne (by decide))).trans ht₁
  obtain ⟨k₃, htri₃, hsw₃⟩ := htri₂.switch ht₂ (hsw₂.current.trans_ne (by decide))
  have hA₃ := (hsw₃.same 0x3000 (by decide) (hA₂.trans_ne (by decide))).trans hA₂
  have hB₃ : (k₃.thread 0x4000).state = .ready := by
    have hready := hsw₃.ready
    rw [hsw₂.current] at hready
    exact hready hsw₂.running
  have hrun₃ : processSystem.RunsTo Quiet ⟨startedKernel, twoThreads.pending⟩
      ⟨k₃, twoThreads.pending⟩ :=
    ((System.RunsTo.refl.tail (quiet_preempted hsw₁ _)).tail (quiet_preempted hsw₂ _)).tail (quiet_preempted hsw₃ _)
  -- it exits
  have huser := (Executed.run (s := ⟨startedKernel, twoThreads.pending⟩) hexecuted hrun₃).user
  have ht₄ : ((threadExit k₃).thread 0x2000).state = .dead := by
    rw [threadExit, hsw₃.current, Kernel.setState, setThread_self]
  have hother : ∀ p, p ≠ 0x2000 → ((threadExit k₃).thread p).state = (k₃.thread p).state := by
    intro p hp
    rw [threadExit, hsw₃.current, Kernel.setState, setThread_of_ne _ _ hp]
  have hA₄ := (hother 0x3000 (by decide)).trans hA₃
  have hB₄ := (hother 0x4000 (by decide)).trans hB₃
  have hruns₃ : k₃.Runs := by
    rw [Kernel.Runs, hsw₃.current, hsw₃.running]
    decide
  have hexit : processSystem.Allowed Quiet ⟨k₃, twoThreads.pending⟩
      ⟨threadExit k₃, twoThreads.pending⟩ := by
    refine ⟨.exit, ⟨?_, trivial⟩, .exit hruns₃⟩
    show (k₃.thread k₃.currentThread).pml4 ≠ _ ∨ _
    rw [hsw₃.current]
    exact .inl huser.2
  -- the switches away from it
  obtain ⟨k₅, htri₅, hsw₅⟩ := htri₃.exit.switch hA₄ (hsw₃.current.trans_ne (by decide))
  have hB₅ := (hsw₅.same 0x4000 (by decide) (hB₄.trans_ne (by decide))).trans hB₄
  have ht₅ := (hsw₅.same 0x2000 (by decide) (ht₄.trans_ne (by decide))).trans ht₄
  obtain ⟨k₆, htri₆, hsw₆⟩ := htri₅.switch hB₅ (hsw₅.current.trans_ne (by decide))
  have hA₆ : (k₆.thread 0x3000).state = .ready := by
    have hready := hsw₆.ready
    rw [hsw₅.current] at hready
    exact hready hsw₅.running
  have ht₆ := (hsw₆.same 0x2000 (by decide) (ht₅.trans_ne (by decide))).trans ht₅
  have hrun₆ : processSystem.RunsTo Quiet ⟨startedKernel, twoThreads.pending⟩
      ⟨k₆, twoThreads.pending⟩ :=
    ((hrun₃.tail hexit).tail (quiet_preempted hsw₅ _)).tail (quiet_preempted hsw₆ _)
  -- it is reaped
  have hid₆ : (k₆.thread 0x2000).id ≠ 0 := by
    rw [hsw₆.id, hsw₅.id, threadExit, setState_fields _ _ _ _ Thread.id fun _ _ => rfl, hsw₃.id,
      hsw₂.id, hsw₁.id]
    exact hid
  obtain ⟨k₇, hsch₇, hlive₇⟩ :=
    htri₆.reap (by decide) (by decide) hsw₆.current ht₆ hid₆ hA₆ (by decide)
  exact ⟨k₇, .intro onePage_accepted hfresh startedKernel_eq hcreated hrun₆ hsch₇ htri₆.liveY hlive₇⟩

theorem hasSegmentPages_onePage : HasSegmentPages onePage := by
  have hphnum : onePage.ehdr.phnum.toNat = 1 := by decide
  exact ⟨onePage_accepted, 0, by rw [hphnum]; decide, by rw [onePage_phdr],
    by rw [onePage_phdr]; decide⟩

/-- That program loses its page. -/
theorem not_conserved_onePage : ∃ k, Life twoThreads onePage [] k ∧
    ¬ Conserved twoThreads.kernel k := by
  obtain ⟨k, hlife⟩ := life_onePage
  have hiff := conserved_iff reachable_twoThreads argsFit_nil hlife
  exact ⟨k, hlife, fun h => hiff.2 onePage_userHalf h hasSegmentPages_onePage⟩

/-- Not every life conserves the pages. -/
theorem not_conserved : ¬ ∀ s image argv k, processSystem.Reachable s → Life s image argv k →
    Conserved s.kernel k := by
  intro hall
  obtain ⟨k, hlife⟩ := life_onePage
  have hconserved := hall _ _ _ _ reachable_twoThreads.reachable hlife
  exact (hlife.conserves reachable_twoThreads argsFit_nil fun _ => onePage_userHalf).mp hconserved
    hasSegmentPages_onePage

end KyroOS.Process

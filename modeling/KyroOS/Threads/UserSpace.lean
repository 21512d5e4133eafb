import KyroOS.Memory.Phases
import KyroOS.Threads.Create

/-!
# The user memory of a new thread

`thread_create_userspace` maps a stack into the address space that it is given, copies the
arguments to it, and destroys the address space when it fails on the way.

## Main definitions

* `ArgsFit` — the arguments leave the stack pointer in the user half
* `CreateEnd`, `KernelCreateEnd` — how a call ends

## Main results

* `mapUserStack_fills` — the frames that a stack takes
* `copyArguments_keeps` — the arguments are written to frames only
* `threadCreateUserspace_end`, `threadCreate_end` — what a call has done
* `CreateEnd.phase` — what it does to the address spaces
-/

namespace KyroOS.Threads

open KyroOS.Memory

/-! ### The stack -/

section Stack

variable {v v' : Vmm} {roots : Set Word} {r : Word} {mapped : Bool}

/-- The pages of the user stack have different paths in the user half. -/
theorem userHalf_stackPages : ∀ virt ∈ stackPages userStackStart, UserHalf virt := by
  intro virt hvirt
  obtain ⟨i, hi, rfl⟩ := List.mem_map.mp hvirt
  rw [List.mem_range] at hi
  refine userHalf_of_lt ?_
  have hstart : userStackStart.toNat = 0x7FFFFFEFF000 := by decide
  rw [BitVec.toNat_add, BitVec.toNat_ofNat, hstart]
  unfold pageSize
  omega

theorem nodup_stackPages : ((stackPages userStackStart).map pathOf).Nodup := by
  rw [stackPages, List.map_map, List.nodup_map_iff_inj_on List.nodup_range]
  intro i hi j hj hij
  rw [List.mem_range] at hi hj
  have hstart : userStackStart.toNat = 0x7FFFFFEFF000 := by decide
  simp only [Function.comp_apply, pathOf, List.cons.injEq, and_true, pml4Index, pdptIndex, pdIndex,
    ptIndex, BitVec.toNat_and, show (0x1FF : Word).toNat = 2 ^ 9 - 1 from rfl,
    Nat.and_two_pow_sub_one_eq_mod, BitVec.toNat_ushiftRight, Nat.shiftRight_eq_div_pow,
    BitVec.toNat_add, BitVec.toNat_ofNat, hstart, pageSize] at hij
  omega

/-- The loop maps a new frame at each page, until none is left. -/
theorem mapUserStack_fills (hr : r ∈ roots) (virts : List Word) (h : SpacesInv 4 v roots)
    (huser : ∀ virt ∈ virts, UserHalf virt) (hnodup : (virts.map pathOf).Nodup)
    (hok : mapUserStack v r virts = .ok (v', mapped)) :
    ∃ F, Fills roots r v v' F ∧
      (∀ ρ, TablePath 4 ρ → ρ.length = 4 → ρ ∉ virts.map pathOf → v'.walk r ρ = v.walk r ρ) ∧
      (mapped = true → F = v'.framesAt r virts ∧
        ∀ virt ∈ virts, v'.walk r (pathOf virt) ≠ none) := by
  induction virts generalizing v with
  | nil =>
    obtain ⟨rfl, rfl⟩ := Prod.mk.inj (Except.ok.inj hok)
    exact ⟨∅, Fills.refl h hr, fun _ _ _ _ => rfl, fun _ => ⟨(v.framesAt_nil r).symm,
      fun _ hmem => absurd hmem List.not_mem_nil⟩⟩
  | cons virt virts ih =>
    obtain ⟨pmm, page, halloc⟩ : ∃ pmm page, pmmAllocPage v.pmm = (pmm, page) := ⟨_, _, rfl⟩
    rw [mapUserStack, halloc] at hok
    dsimp only at hok
    rw [List.map_cons, List.nodup_cons] at hnodup
    split_ifs at hok with hzero
    · -- no page is left, and `NULL` changed nothing
      obtain ⟨rfl, rfl⟩ := Prod.mk.inj (Except.ok.inj hok)
      have hspec := pmmAllocPage_spec h.reserves
      rw [halloc] at hspec
      cases hspec with
      | null _ => exact ⟨∅, Fills.refl h hr, fun _ _ _ _ => rfl, fun heq => by cases heq⟩
      | page i hlt hpos =>
        exact absurd hzero (pageAddr_ne_zero ((h.lt_of_lt_totalPages hlt).trans (by decide)) hpos)
    obtain ⟨v₁, hmap, hrest⟩ := Outcome.bind_eq_ok.mp hok
    have hvirt := huser virt List.mem_cons_self
    have hsame : ∀ f, page = pageAddr f → ChangesWithin v {f} v.mem := fun _ _ _ _ => rfl
    obtain ⟨f, rfl, hfills, hwalk, hothers⟩ := fills_mapFrame h hr hvirt (by decide) (by decide)
      halloc hzero hsame hmap
    obtain ⟨F, hfills', hothers', hall⟩ := ih hfills.inv
      (fun virt' hmem => huser virt' (List.mem_cons_of_mem virt hmem)) hnodup.2 hrest
    refine ⟨{f} ∪ F, hfills.trans hfills', fun ρ hρ hlen hnot => ?_, fun hmapped => ?_⟩
    · rw [List.map_cons, List.mem_cons, not_or] at hnot
      exact (hothers' ρ hρ hlen hnot.2).trans (hothers ρ hρ hlen hnot.1)
    · -- the first frame is still where it was mapped
      have hfirst : v'.walk r (pathOf virt) = some (v'.pageVirt f) := by
        rw [hothers' _ (tablePath_pathOf hvirt) rfl hnodup.1, hwalk,
          Vmm.pageVirt_congr (hfills'.hhdm.trans hfills.hhdm)]
      have hf : f < v'.pmm.totalPages := by
        rw [hfills'.totalPages, hfills.totalPages]
        exact (hfills.frames_fresh f rfl).1
      obtain ⟨hF, hthere⟩ := hall hmapped
      refine ⟨?_, fun virt' hmem => ?_⟩
      swap
      · rcases List.mem_cons.mp hmem with rfl | hmem
        · rw [hfirst]
          exact Option.some_ne_none _
        · exact hthere virt' hmem
      rw [hF]
      ext g
      simp only [Vmm.framesAt, Set.mem_union, Set.mem_singleton_iff, Set.mem_ofPred_eq,
        List.exists_mem_cons_iff]
      constructor
      · rintro (rfl | ⟨hg, hmem⟩)
        · exact ⟨hf, .inl hfirst⟩
        · exact ⟨hg, .inr hmem⟩
      · rintro ⟨hg, hmem | hmem⟩
        · refine .inl (Vmm.pageVirt_inj (v := v') ?_ ?_ (Option.some.inj (hmem.symm.trans hfirst)))
          · exact hfills'.inv.lt_of_lt_totalPages hg
          · exact hfills'.inv.lt_of_lt_totalPages hf
        · exact .inr ⟨hg, hmem⟩

/-- With free pages enough a user stack is mapped. -/
theorem mapUserStack_room {r : Word} (virts : List Word) {v : Vmm} {n : ℕ} (hres : v.pmm.Reserves)
    (h : v.pmm.Room (n + 4 * virts.length)) :
    ∃ v', mapUserStack v r virts = .ok (v', true) ∧ v'.pmm.Room n := by
  induction virts generalizing v with
  | nil => exact ⟨v, rfl, h⟩
  | cons virt virts ih =>
    rw [List.length_cons] at h
    obtain ⟨pmm, page, halloc, hpage, hres', hroom⟩ :=
      pmmAllocPage_room (n := n + 4 * virts.length + 3) hres h
    obtain ⟨v₁, hmap, hres₁, hroom₁⟩ := vmmMapPage_ok (v := { v with pmm }) hres' hroom r virt page
      (pagePresent ||| pageWrite ||| pageUser)
    obtain ⟨v₂, hrest, hroom₂⟩ := ih hres₁ hroom₁
    refine ⟨v₂, ?_, hroom₂⟩
    rw [mapUserStack, halloc]
    dsimp only
    rw [if_neg hpage]
    exact Outcome.bind_eq_ok.mpr ⟨v₁, hmap, hrest⟩

end Stack

/-! ### The arguments -/

/-- The room that the arguments take on the stack at most, with the padding. -/
def argSize (argv : List (List Byte)) : ℕ :=
  (argv.map fun arg => arg.length + 16).sum + (argv.length + 1) * 8 + 15

/-- The arguments fit below the top of the user stack. -/
def ArgsFit (argv : List (List Byte)) : Prop := argSize argv ≤ userStackTop.toNat

instance (argv : List (List Byte)) : Decidable (ArgsFit argv) := inferInstanceAs (Decidable (_ ≤ _))

section Arguments

variable {v : Vmm} {roots : Set Word} {r : Word}

theorem toNat_alignStack (sp : Word) : (alignStack sp).toNat = sp.toNat / 16 * 16 :=
  toNat_and_not_low sp 4

/-- The stack pointer after room for `n` bytes was made. -/
theorem toNat_push (sp : Word) (n : ℕ) (hn : n + 15 ≤ sp.toNat) :
    (alignStack (sp - BitVec.ofNat 64 n)).toNat + n ≤ sp.toNat ∧
      sp.toNat ≤ (alignStack (sp - BitVec.ofNat 64 n)).toNat + n + 15 := by
  have hlt := sp.isLt
  have hsub : (sp - BitVec.ofNat 64 n).toNat = sp.toNat - n := by
    rw [BitVec.toNat_sub, BitVec.toNat_ofNat]
    omega
  rw [toNat_alignStack, hsub]
  omega

/-- The strings are copied one below the other. -/
theorem copyStrings_keeps (hr : r ∈ roots) (argv : List (List Byte)) {sp : Word}
    (h : SpacesInv 4 v roots) (htop : sp.toNat ≤ 2 ^ 47)
    (hfit : (argv.map fun arg => arg.length + 16).sum ≤ sp.toNat) :
    Keeps roots v (copyStrings v r sp argv).1 ∧
      (copyStrings v r sp argv).2.1.toNat ≤ sp.toNat ∧
      sp.toNat ≤ (copyStrings v r sp argv).2.1.toNat + (argv.map fun arg => arg.length + 16).sum ∧
      (copyStrings v r sp argv).2.2.length = argv.length := by
  induction argv generalizing v sp with
  | nil => exact ⟨Keeps.refl h, le_refl _, Nat.le_add_right _ _, rfl⟩
  | cons arg argv ih =>
    rw [List.map_cons, List.sum_cons] at hfit ⊢
    obtain ⟨hbelow, hnear⟩ := toNat_push sp (arg.length + 1) (by omega)
    have hcopy : Keeps roots v (vmmMemcpyToUserspace v r
        (alignStack (sp - BitVec.ofNat 64 (arg.length + 1))) (arg ++ [0])) := by
      refine vmmMemcpyToUserspace_keeps h hr ?_
      rw [List.length_append, List.length_singleton]
      omega
    have htop' : (alignStack (sp - BitVec.ofNat 64 (arg.length + 1))).toNat ≤ 2 ^ 47 := by omega
    obtain ⟨hkeeps, hle, hge, hlen⟩ := ih hcopy.inv htop' (by omega)
    refine ⟨hcopy.trans hkeeps, hle.trans (by omega), ?_, congrArg Nat.succ hlen⟩
    refine hnear.trans ?_
    change _ ≤ (copyStrings _ r _ argv).2.1.toNat + _
    omega

theorem length_wordBytes (w : Word) : (wordBytes w).length = 8 := by
  rw [wordBytes, List.length_map, List.length_range]

/-- The arguments are written to frames, if they fit. -/
theorem copyArguments_keeps (h : SpacesInv 4 v roots) (hr : r ∈ roots) {argv : List (List Byte)}
    (hfit : ArgsFit argv) : Keeps roots v (copyArguments v r argv).1 := by
  unfold ArgsFit argSize at hfit
  have htop : userStackTop.toNat ≤ 2 ^ 47 := by decide
  obtain ⟨hkeeps, hle, hge, hlen⟩ := copyStrings_keeps hr argv h htop (by omega)
  obtain ⟨hbelow, -⟩ := toNat_push (copyStrings v r userStackTop argv).2.1
    ((argv.length + 1) * 8) (by omega)
  have hbytes : (((copyStrings v r userStackTop argv).2.2 ++ [0]).flatMap wordBytes).length =
      (argv.length + 1) * 8 := by
    rw [List.length_flatMap]
    simp only [length_wordBytes, List.map_const', List.sum_replicate, List.length_append, hlen,
      List.length_singleton, smul_eq_mul]
  refine hkeeps.trans (vmmMemcpyToUserspace_keeps hkeeps.inv hr ?_)
  rw [hbytes]
  exact hbelow.trans (hle.trans htop)

end Arguments

/-! ### What a call changes -/

/-- From `k` to `k'` only links of the ring changed. -/
structure Relinks (k k' : Kernel) : Prop where
  vmm : k'.vmm = k.vmm
  cr3 : k'.cr3 = k.cr3
  tssRsp0 : k'.tssRsp0 = k.tssRsp0
  live : k'.live = k.live
  kstack : k'.kstack = k.kstack
  heapPages : k'.heapPages = k.heapPages
  nextThreadId : k'.nextThreadId = k.nextThreadId
  currentThread : k'.currentThread = k.currentThread
  thread : ∀ p, ∃ next, k'.thread p = { k.thread p with next }

section Relinks

variable {k k' : Kernel} {t p q : Word} {m : Kmalloc} {roots : Set Word}

theorem Relinks.refl (k : Kernel) : Relinks k k :=
  ⟨rfl, rfl, rfl, rfl, rfl, rfl, rfl, rfl, fun p => ⟨(k.thread p).next, rfl⟩⟩

theorem relinks_setNext (k : Kernel) (p q : Word) : Relinks k (k.setNext p q) := by
  refine ⟨rfl, rfl, rfl, rfl, rfl, rfl, rfl, rfl, fun x => ?_⟩
  by_cases hx : x = p
  · subst hx
    exact ⟨q, setThread_self k x _⟩
  · exact ⟨(k.thread x).next, setThread_of_ne k _ hx⟩

theorem Relinks.trans {k'' : Kernel} (h : Relinks k k') (h' : Relinks k' k'') : Relinks k k'' := by
  refine ⟨h'.vmm.trans h.vmm, h'.cr3.trans h.cr3, h'.tssRsp0.trans h.tssRsp0, h'.live.trans h.live,
    h'.kstack.trans h.kstack, h'.heapPages.trans h.heapPages, h'.nextThreadId.trans h.nextThreadId,
    h'.currentThread.trans h.currentThread, fun p => ?_⟩
  obtain ⟨next, hnext⟩ := h.thread p
  obtain ⟨next', hnext'⟩ := h'.thread p
  exact ⟨next', by rw [hnext', hnext]⟩

/-- A field other than the link. -/
theorem Relinks.field (h : Relinks k k') {α : Type} (g : Thread → α)
    (hg : ∀ t next, g { t with next } = g t) : g (k'.thread p) = g (k.thread p) := by
  obtain ⟨next, hnext⟩ := h.thread p
  rw [hnext, hg]

theorem relinks_schedulerAddThread (hok : schedulerAddThread k t = .ok k') : Relinks k k' := by
  unfold schedulerAddThread at hok
  split_ifs at hok with ht hqueue hlive
  · obtain rfl := Except.ok.inj hok
    exact .refl k
  · obtain rfl := Except.ok.inj hok
    obtain ⟨h₁, h₂, h₃, h₄, h₅, h₆, h₇, h₈, h₉⟩ := relinks_setNext k t t
    exact ⟨h₁, h₂, h₃, h₄, h₅, h₆, h₇, h₈, h₉⟩
  · obtain rfl := Except.ok.inj hok
    obtain ⟨h₁, h₂, h₃, h₄, h₅, h₆, h₇, h₈, h₉⟩ :=
      (relinks_setNext k t (k.next k.readyQueue)).trans (relinks_setNext _ k.readyQueue t)
    exact ⟨h₁, h₂, h₃, h₄, h₅, h₆, h₇, h₈, h₉⟩

/-- A call of `kmalloc` changes the page allocator only. -/
theorem kmalloc_eq (k : Kernel) (m : Kmalloc) :
    k.kmalloc m = { k with vmm := (k.kmalloc m).vmm, heapPages := (k.kmalloc m).heapPages } ∧
      ∃ pmm, (k.kmalloc m).vmm = { k.vmm with pmm } ∧ Grows k.vmm.pmm pmm := by
  unfold Kernel.kmalloc
  cases m.run with
  | none => exact ⟨rfl, k.vmm.pmm, rfl, ⟨rfl, fun _ h => h, fun h => h⟩⟩
  | some run =>
    dsimp only
    split_ifs
    · exact ⟨rfl, _, rfl, Grows.takeRun _ _ _⟩
    · exact ⟨rfl, k.vmm.pmm, rfl, ⟨rfl, fun _ h => h, fun h => h⟩⟩

theorem kmalloc_live (k : Kernel) (m : Kmalloc) : (k.kmalloc m).live = k.live := by
  rw [(kmalloc_eq k m).1]

theorem kmalloc_thread (k : Kernel) (m : Kmalloc) : (k.kmalloc m).thread = k.thread := by
  rw [(kmalloc_eq k m).1]

theorem kmalloc_currentThread (k : Kernel) (m : Kmalloc) :
    (k.kmalloc m).currentThread = k.currentThread := by
  rw [(kmalloc_eq k m).1]

theorem kmalloc_nextThreadId (k : Kernel) (m : Kmalloc) :
    (k.kmalloc m).nextThreadId = k.nextThreadId := by
  rw [(kmalloc_eq k m).1]

theorem kmalloc_kstack (k : Kernel) (m : Kmalloc) : (k.kmalloc m).kstack = k.kstack := by
  rw [(kmalloc_eq k m).1]

/-- The address of the running address space does not change by a call of `kmalloc`. -/
theorem kmalloc_currentPml4 (k : Kernel) (m : Kmalloc) :
    (k.kmalloc m).currentPml4 = k.currentPml4 := by
  obtain ⟨hk, pmm, hvmm, -⟩ := kmalloc_eq k m
  rw [Kernel.currentPml4, Kernel.currentPml4, hvmm, hk]
  rfl

/-- What `kmalloc` does to the page allocator and to the pages of the heap depends on these. -/
theorem kmalloc_congr (hvmm : k'.vmm = k.vmm) (hheap : k'.heapPages = k.heapPages) (m : Kmalloc) :
    (k'.kmalloc m).vmm = (k.kmalloc m).vmm ∧ (k'.kmalloc m).heapPages = (k.kmalloc m).heapPages := by
  unfold Kernel.kmalloc
  cases m.run with
  | none => exact ⟨hvmm, hheap⟩
  | some run =>
    dsimp only
    rw [hvmm, hheap]
    split_ifs
    · exact ⟨rfl, rfl⟩
    · exact ⟨hvmm, hheap⟩

theorem kmalloc_phase (h : SpacesInv 4 k.vmm roots) (m : Kmalloc) :
    Phase roots roots k.vmm (k.kmalloc m).vmm := by
  obtain ⟨-, pmm, heq, hgrows⟩ := kmalloc_eq k m
  rw [heq]
  exact hgrows.phase h

/-- A phase in which the heap may have taken pages, from outside of the address spaces. -/
structure HeapPhase (roots roots' : Set Word) (k k' : Kernel) : Prop where
  phase : Phase roots roots' k.vmm k'.vmm
  heap : ∀ j ∈ k'.heapPages, j ∈ k.heapPages ∨ k'.vmm.Outside 4 roots' j

theorem HeapPhase.trans {k'' : Kernel} {roots' roots'' : Set Word} (h : HeapPhase roots roots' k k')
    (h' : HeapPhase roots' roots'' k' k'') (hinv : SpacesInv 4 k.vmm roots) :
    HeapPhase roots roots'' k k'' where
  phase := h.phase.trans h'.phase hinv
  heap := by
    intro j hj
    rcases h'.heap j hj with hold | hout
    · exact (h.heap j hold).imp_right (h'.phase.outside j)
    · exact .inr hout

theorem HeapPhase.of_phase {roots' : Set Word} (h : Phase roots roots' k.vmm k'.vmm)
    (hheap : k'.heapPages = k.heapPages) : HeapPhase roots roots' k k' :=
  ⟨h, fun _ hj => .inl (hheap ▸ hj)⟩

theorem kmalloc_heapPhase (h : SpacesInv 4 k.vmm roots) (m : Kmalloc) :
    HeapPhase roots roots k (k.kmalloc m) := by
  refine ⟨kmalloc_phase h m, fun j hj => ?_⟩
  unfold Kernel.kmalloc at hj ⊢
  cases hrun : m.run with
  | none =>
    rw [hrun] at hj
    exact .inl hj
  | some run =>
    rw [hrun] at hj
    dsimp only at hj ⊢
    split_ifs at hj ⊢ with hfree
    · rcases Finset.mem_union.mp hj with hold | hnew
      · exact .inl hold
      · -- a page of the run was free
        obtain ⟨hle, hlt⟩ := Finset.mem_Ico.mp hnew
        have hj' : j < k.vmm.pmm.totalPages := hlt.trans_le hfree.1
        have hnot := hfree.2 j (List.mem_range'_1.mpr ⟨hle, hlt⟩)
        exact .inr ⟨h.lt_of_lt_totalPages hj', fun _ =>
          (pmmTakeRun_allocated _ _ _ _).mpr (.inr ⟨hle, hlt⟩), h.free_notMem_nodes hj' hnot⟩
    · exact .inl hj

end Relinks

/-! ### How a call ends -/

/-- What `thread_create_userspace` has done when it returns `t`: it failed to get a record, a
page of the stack or a kernel stack, or it made a thread. -/
inductive CreateEnd (sym : Symbols) (k : Kernel) (entry pml4 programBreak : Word)
    (argv : List (List Byte)) (console : Word) (record kstack : Kmalloc) (k' : Kernel) :
    Word → Prop
  | noRecord (hblock : record.block = 0) (hk : k' = k.kmalloc record) : CreateEnd sym k entry pml4
      programBreak argv console record kstack k' 0
  | noPage (vmm : Vmm) (hblock : record.block ≠ 0)
      (hmap : mapUserStack (k.kmalloc record).vmm pml4 (stackPages userStackStart) =
        .ok (vmm, false))
      (hvmm : k'.vmm = vmmDestroyAddressSpace vmm pml4)
      (hheap : k'.heapPages = (k.kmalloc record).heapPages)
      (hlive : k'.live = (insert record.block k.live).erase record.block)
      (hcurrent : k'.currentThread = k.currentThread)
      (hthread : ∀ p ≠ record.block, k'.thread p = k.thread p) :
      CreateEnd sym k entry pml4 programBreak argv console record kstack k' 0
  | noStack (vmm : Vmm) (hblock : record.block ≠ 0)
      (hmap : mapUserStack (k.kmalloc record).vmm pml4 (stackPages userStackStart) = .ok (vmm, true))
      (hvmm : k'.vmm = vmmDestroyAddressSpace
        (unmapAndFree ({ k.kmalloc record with vmm }.kmalloc kstack).vmm pml4
          (stackPages userStackStart)) pml4)
      (hheap : k'.heapPages = ({ k.kmalloc record with vmm }.kmalloc kstack).heapPages)
      (hlive : k'.live = (insert record.block k.live).erase record.block)
      (hcurrent : k'.currentThread = k.currentThread)
      (hthread : ∀ p ≠ record.block, k'.thread p = k.thread p) :
      CreateEnd sym k entry pml4 programBreak argv console record kstack k' 0
  | created (vmm : Vmm) (hblock : record.block ≠ 0) (hstack : kstack.block ≠ 0)
      (hmap : mapUserStack (k.kmalloc record).vmm pml4 (stackPages userStackStart) = .ok (vmm, true))
      (hvmm : k'.vmm =
        (copyArguments ({ k.kmalloc record with vmm }.kmalloc kstack).vmm pml4 argv).1)
      (hheap : k'.heapPages = ({ k.kmalloc record with vmm }.kmalloc kstack).heapPages)
      (hlive : k'.live = insert record.block k.live)
      (hcurrent : k'.currentThread = k.currentThread)
      (hkstack : k'.kstack = (pushAll k.kstack (stackTop kstack.block) (userFrame sym entry
        (copyArguments ({ k.kmalloc record with vmm }.kmalloc kstack).vmm pml4 argv).2
        (BitVec.ofNat 64 argv.length))).1)
      (hnew : ∃ next, k'.thread record.block =
        { k.thread record.block with
          id := k.nextThreadId
          state := .ready
          stack := kstack.block
          userStackBase := userStackStart
          pml4
          programBreak
          initialProgramBreak := programBreak
          fdTable := userFdTable console (k.thread record.block).fdTable
          next })
      (hthread : ∀ p ≠ record.block, ∃ next, k'.thread p = { k.thread p with next }) :
      CreateEnd sym k entry pml4 programBreak argv console record kstack k' record.block

section Ends

variable {sym : Symbols} {k k' : Kernel} {entry pml4 programBreak console t : Word}
  {argv : List (List Byte)} {record kstack : Kmalloc} {roots : Set Word}

theorem threadCreateUserspace_end
    (hok : threadCreateUserspace sym k entry pml4 programBreak argv console record kstack =
      .ok (k', t)) :
    CreateEnd sym k entry pml4 programBreak argv console record kstack k' t := by
  unfold threadCreateUserspace at hok
  extract_lets k₁ block stack k₂ at hok
  by_cases hblock : block = 0
  · rw [if_pos hblock] at hok
    obtain ⟨rfl, rfl⟩ := Prod.mk.inj (Except.ok.inj hok)
    exact .noRecord hblock rfl
  rw [if_neg hblock] at hok
  obtain ⟨⟨vmm, mapped⟩, hmap, hok⟩ := Outcome.bind_eq_ok.mp hok
  have hlive₂ : k₂.live = insert block k.live := congrArg (insert block) (kmalloc_live k record)
  have hcurrent₂ : k₂.currentThread = k.currentThread := kmalloc_currentThread k record
  have hthread₂ : ∀ p ≠ block, k₂.thread p = k.thread p := fun p hp =>
    (setThread_of_ne _ _ hp).trans (congrFun (kmalloc_thread k record) p)
  cases mapped with
  | false =>
    obtain ⟨rfl, rfl⟩ := Prod.mk.inj (Except.ok.inj hok)
    exact .noPage vmm hblock hmap rfl rfl (congrArg (Finset.erase · block) hlive₂) hcurrent₂ hthread₂
  | true =>
    dsimp -zeta only at hok
    rw [if_neg (by simp)] at hok
    extract_lets k₃ k₄ vmm' k₅ k₆ at hok
    obtain ⟨hvmm₃, hheap₃⟩ : k₃.vmm = ({ k₁ with vmm }.kmalloc kstack).vmm ∧
        k₃.heapPages = ({ k₁ with vmm }.kmalloc kstack).heapPages := by
      apply kmalloc_congr
      · rfl
      · rfl
    have hlive₃ : k₃.live = insert block k.live := (kmalloc_live _ _).trans hlive₂
    have hcurrent₃ : k₃.currentThread = k.currentThread := (kmalloc_currentThread _ _).trans hcurrent₂
    have hkstack₃ : k₃.kstack = k.kstack := (kmalloc_kstack _ _).trans (kmalloc_kstack k record)
    have hid₃ : k₃.nextThreadId = k.nextThreadId :=
      (kmalloc_nextThreadId _ _).trans (kmalloc_nextThreadId k record)
    have hnew₃ : k₃.thread block = { k.thread block with pml4 } := by
      rw [← kmalloc_thread k record]
      exact (congrFun (kmalloc_thread _ _) block).trans (Function.update_self block _ k₁.thread)
    have hthread₃ : ∀ p ≠ block, k₃.thread p = k.thread p := fun p hp =>
      (congrFun (kmalloc_thread _ _) p).trans (hthread₂ p hp)
    clear_value k₃
    by_cases hstack : stack = 0
    · rw [if_pos hstack] at hok
      obtain ⟨rfl, rfl⟩ := Prod.mk.inj (Except.ok.inj hok)
      refine .noStack vmm hblock hmap ?_ hheap₃ (congrArg (Finset.erase · block) hlive₃) hcurrent₃
        fun p hp => ?_
      · rw [← hvmm₃]
        rfl
      · exact (Function.update_of_ne hp _ k₃.thread).trans (hthread₃ p hp)
    · rw [if_neg hstack] at hok
      obtain ⟨k₇, hadd, hend⟩ := Outcome.bind_eq_ok.mp hok
      obtain ⟨rfl, rfl⟩ := Prod.mk.inj (Except.ok.inj hend)
      have hlinks := relinks_schedulerAddThread hadd
      have hnew₄ : k₄.thread block = { k₃.thread block with
          userStackBase := userStackStart, stack } := Function.update_self block _ k₃.thread
      have hnew₆ : k₆.thread block = { k₄.thread block with
          id := k₄.nextThreadId
          state := .ready
          programBreak
          initialProgramBreak := programBreak
          fdTable := userFdTable console (k₄.thread block).fdTable } :=
        Function.update_self block _ k₄.thread
      have hthread₆ : ∀ p ≠ block, k₆.thread p = k.thread p := fun p hp =>
        (Function.update_of_ne hp _ k₄.thread).trans
          ((Function.update_of_ne hp _ k₃.thread).trans (hthread₃ p hp))
      refine .created vmm hblock hstack hmap ?_ (hlinks.heapPages.trans hheap₃)
        (hlinks.live.trans hlive₃) (hlinks.currentThread.trans hcurrent₃) ?_ ?_ fun p hp => ?_
      · rw [← hvmm₃]
        exact hlinks.vmm
      · have hvmm₅ : k₅.vmm = k₃.vmm := rfl
        have hkstack₆ : k₆.kstack = (pushAll k₅.kstack (stackTop stack) (userFrame sym entry
            (copyArguments k₅.vmm pml4 argv).2 (BitVec.ofNat 64 argv.length))).1 := rfl
        rw [← hvmm₃, ← hkstack₃, ← hvmm₅]
        exact hlinks.kstack.trans hkstack₆
      · obtain ⟨next, hnext⟩ := hlinks.thread block
        refine ⟨next, hnext.trans ?_⟩
        rw [← hid₃, hnew₆, hnew₄, hnew₃]
        rfl
      · obtain ⟨next, hnext⟩ := hlinks.thread p
        exact ⟨next, by rw [hnext, hthread₆ p hp]⟩

/-- What `thread_create` has done when it returns `t`: it failed to get a record or a kernel
stack, or it made a thread. -/
inductive KernelCreateEnd (sym : Symbols) (k : Kernel) (func arg : Word) (record kstack : Kmalloc)
    (k' : Kernel) : Word → Prop
  | noRecord (hblock : record.block = 0) (hk : k' = k.kmalloc record) :
      KernelCreateEnd sym k func arg record kstack k' 0
  | noStack (hblock : record.block ≠ 0) (hvmm : k'.vmm = ((k.kmalloc record).kmalloc kstack).vmm)
      (hheap : k'.heapPages = ((k.kmalloc record).kmalloc kstack).heapPages)
      (hlive : k'.live = (insert record.block k.live).erase record.block)
      (hcurrent : k'.currentThread = k.currentThread)
      (hthread : ∀ p ≠ record.block, k'.thread p = k.thread p) :
      KernelCreateEnd sym k func arg record kstack k' 0
  | created (hblock : record.block ≠ 0) (hstack : kstack.block ≠ 0)
      (hvmm : k'.vmm = ((k.kmalloc record).kmalloc kstack).vmm)
      (hheap : k'.heapPages = ((k.kmalloc record).kmalloc kstack).heapPages)
      (hlive : k'.live = insert record.block k.live)
      (hcurrent : k'.currentThread = k.currentThread)
      (hkstack : k'.kstack =
        (pushAll k.kstack (stackTop kstack.block) (kernelFrame sym func arg)).1)
      (hnew : ∃ next, k'.thread record.block =
        { k.thread record.block with
          id := k.nextThreadId
          state := .ready
          stack := kstack.block
          userStackBase := 0
          rsp := (pushAll k.kstack (stackTop kstack.block) (kernelFrame sym func arg)).2
          pml4 := k.currentPml4
          fdTable := fun _ => emptyFd
          next })
      (hthread : ∀ p ≠ record.block, ∃ next, k'.thread p = { k.thread p with next }) :
      KernelCreateEnd sym k func arg record kstack k' record.block

theorem threadCreate_end {func arg : Word}
    (hok : threadCreate sym k func arg record kstack = .ok (k', t)) :
    KernelCreateEnd sym k func arg record kstack k' t := by
  unfold threadCreate at hok
  extract_lets k₁ block stack k₂ k₃ k₄ at hok
  by_cases hblock : block = 0
  · rw [if_pos hblock] at hok
    obtain ⟨rfl, rfl⟩ := Prod.mk.inj (Except.ok.inj hok)
    exact .noRecord hblock rfl
  rw [if_neg hblock] at hok
  obtain ⟨hvmm₂, hheap₂⟩ : k₂.vmm = (k₁.kmalloc kstack).vmm ∧
      k₂.heapPages = (k₁.kmalloc kstack).heapPages := by
    apply kmalloc_congr
    · rfl
    · rfl
  have hlive₂ : k₂.live = insert block k.live :=
    (kmalloc_live _ _).trans (congrArg (insert block) (kmalloc_live k record))
  have hcurrent₂ : k₂.currentThread = k.currentThread :=
    (kmalloc_currentThread _ _).trans (kmalloc_currentThread k record)
  have hkstack₂ : k₂.kstack = k.kstack := (kmalloc_kstack _ _).trans (kmalloc_kstack k record)
  have hid₂ : k₂.nextThreadId = k.nextThreadId :=
    (kmalloc_nextThreadId _ _).trans (kmalloc_nextThreadId k record)
  have hpml4₂ : k₂.currentPml4 = k.currentPml4 :=
    (kmalloc_currentPml4 _ _).trans (kmalloc_currentPml4 k record)
  have hthread₂ : k₂.thread = k.thread := (kmalloc_thread _ _).trans (kmalloc_thread k record)
  clear_value k₂
  by_cases hstack : stack = 0
  · rw [if_pos hstack] at hok
    obtain ⟨rfl, rfl⟩ := Prod.mk.inj (Except.ok.inj hok)
    refine .noStack hblock hvmm₂ hheap₂ (congrArg (Finset.erase · block) hlive₂) hcurrent₂
      fun p hp => ?_
    exact (Function.update_of_ne hp _ k₂.thread).trans (congrFun hthread₂ p)
  · rw [if_neg hstack] at hok
    obtain ⟨mem, rsp, hpush⟩ : ∃ mem rsp,
        pushAll k₄.kstack (stackTop stack) (kernelFrame sym func arg) = (mem, rsp) := ⟨_, _, rfl⟩
    rw [hpush] at hok
    dsimp -zeta only at hok
    extract_lets k₅ k₆ at hok
    obtain ⟨k₇, hadd, hend⟩ := Outcome.bind_eq_ok.mp hok
    obtain ⟨rfl, rfl⟩ := Prod.mk.inj (Except.ok.inj hend)
    have hlinks := relinks_schedulerAddThread hadd
    have hframe : pushAll k.kstack (stackTop stack) (kernelFrame sym func arg) = (mem, rsp) := by
      rw [← hkstack₂]
      exact hpush
    have hnew₃ : k₃.thread block = { k.thread block with stack } := by
      rw [← hthread₂]
      exact Function.update_self block _ k₂.thread
    have hnew₄ : k₄.thread block = { k₃.thread block with
        id := k₃.nextThreadId
        state := .ready
        userStackBase := 0
        pml4 := k₃.currentPml4
        fdTable := fun _ => emptyFd } := Function.update_self block _ k₃.thread
    have hnew₆ : k₆.thread block = { k₄.thread block with rsp } :=
      Function.update_self block _ k₅.thread
    have hid₃ : k₃.nextThreadId = k.nextThreadId := hid₂
    have hpml4₃ : k₃.currentPml4 = k.currentPml4 := hpml4₂
    have hthread₆ : ∀ p ≠ block, k₆.thread p = k.thread p := fun p hp =>
      (Function.update_of_ne hp _ k₅.thread).trans ((Function.update_of_ne hp _ k₃.thread).trans
        ((Function.update_of_ne hp _ k₂.thread).trans (congrFun hthread₂ p)))
    refine .created hblock hstack (hlinks.vmm.trans hvmm₂) (hlinks.heapPages.trans hheap₂)
      (hlinks.live.trans hlive₂) (hlinks.currentThread.trans hcurrent₂) ?_ ?_ fun p hp => ?_
    · rw [show kstack.block = stack from rfl, hframe]
      exact hlinks.kstack
    · obtain ⟨next, hnext⟩ := hlinks.thread block
      refine ⟨next, hnext.trans ?_⟩
      rw [show kstack.block = stack from rfl, hframe, hnew₆, hnew₄, hid₃, hpml4₃, hnew₃]
    · obtain ⟨next, hnext⟩ := hlinks.thread p
      exact ⟨next, by rw [hnext, hthread₆ p hp]⟩

/-- The kernel after a call of `thread_create_userspace` that got its memory, before the thread
enters the ring. -/
def newUser (sym : Symbols) (k : Kernel) (entry pml4 programBreak : Word) (argv : List (List Byte))
    (console : Word) (record kstack : Kmalloc) (vmm : Vmm) : Kernel :=
  let k := k.kmalloc record
  let block := record.block
  let stack := kstack.block
  let k := { k with live := insert block k.live }.setThread block fun t => { t with pml4 }
  let k := { k with vmm }.kmalloc kstack
  let k := k.setThread block fun t => { t with userStackBase := userStackStart, stack }
  let k := k.setThread block fun t =>
    { t with
      id := k.nextThreadId
      state := .ready
      programBreak
      initialProgramBreak := programBreak
      fdTable := userFdTable console t.fdTable }
  { k with
    nextThreadId := k.nextThreadId + 1
    vmm := (copyArguments k.vmm pml4 argv).1
    kstack := (pushAll k.kstack (stackTop stack)
      (userFrame sym entry (copyArguments k.vmm pml4 argv).2 (BitVec.ofNat 64 argv.length))).1 }

/-- A call that gets its memory ends with the thread entering the ring. -/
theorem threadCreateUserspace_mapped {sym : Symbols} {k : Kernel}
    {entry pml4 programBreak console : Word} {argv : List (List Byte)} {record kstack : Kmalloc}
    {vmm : Vmm} (hblock : record.block ≠ 0) (hstack : kstack.block ≠ 0)
    (hmap : mapUserStack (k.kmalloc record).vmm pml4 (stackPages userStackStart) =
      .ok (vmm, true)) :
    threadCreateUserspace sym k entry pml4 programBreak argv console record kstack = do
      let k ← schedulerAddThread
        (newUser sym k entry pml4 programBreak argv console record kstack vmm) record.block
      return (k, record.block) := by
  unfold threadCreateUserspace
  dsimp -zeta only
  extract_lets k₁ block stack k₂
  rw [if_neg hblock]
  have hmap₂ : mapUserStack k₂.vmm pml4 (stackPages userStackStart) = .ok (vmm, true) := hmap
  rw [hmap₂]
  exact if_neg hstack

theorem threadCreateUserspace_of_mapped {sym : Symbols} {k k' : Kernel}
    {entry pml4 programBreak console : Word} {argv : List (List Byte)} {record kstack : Kmalloc}
    {vmm : Vmm} (hblock : record.block ≠ 0) (hstack : kstack.block ≠ 0)
    (hmap : mapUserStack (k.kmalloc record).vmm pml4 (stackPages userStackStart) = .ok (vmm, true))
    (hadd : schedulerAddThread
      (newUser sym k entry pml4 programBreak argv console record kstack vmm) record.block = .ok k') :
    threadCreateUserspace sym k entry pml4 programBreak argv console record kstack =
      .ok (k', record.block) := by
  rw [threadCreateUserspace_mapped hblock hstack hmap]
  exact Outcome.bind_eq_ok.mpr ⟨k', hadd, rfl⟩

/-- The address spaces after a call: it destroys the one it is given when it has got a record
and fails later. -/
def rootsAfterCreate (roots : Set Word) (pml4 : Word) (record : Kmalloc) (t : Word) : Set Word :=
  if t = 0 ∧ record.block ≠ 0 then roots \ {pml4} else roots

/-- A call is a phase, whatever its end. -/
theorem CreateEnd.phase (hend : CreateEnd sym k entry pml4 programBreak argv console record kstack
    k' t) (h : SpacesInv 4 k.vmm roots) (hr : pml4 ∈ roots) (hfit : ArgsFit argv) :
    HeapPhase roots (rootsAfterCreate roots pml4 record t) k k' := by
  have hrecord := kmalloc_heapPhase h record
  unfold rootsAfterCreate
  have hfill : ∀ {vmm : Vmm} {mapped : Bool},
      mapUserStack (k.kmalloc record).vmm pml4 (stackPages userStackStart) = .ok (vmm, mapped) →
        HeapPhase roots roots k { k.kmalloc record with vmm } := by
    intro vmm mapped hmap
    obtain ⟨F, hfills, -⟩ := mapUserStack_fills hr _ hrecord.phase.inv userHalf_stackPages
      nodup_stackPages hmap
    exact hrecord.trans (.of_phase hfills.phase rfl) h
  have hkstack : ∀ {vmm : Vmm}, HeapPhase roots roots k { k.kmalloc record with vmm } →
      HeapPhase roots roots k ({ k.kmalloc record with vmm }.kmalloc kstack) := by
    intro vmm hphase
    exact hphase.trans (kmalloc_heapPhase hphase.phase.inv kstack) h
  cases hend with
  | noRecord hblock hk =>
    rw [if_neg fun hboth => hboth.2 hblock, hk]
    exact hrecord
  | noPage vmm hblock hmap hvmm hheap =>
    rw [if_pos ⟨rfl, hblock⟩]
    have hphase := hfill hmap
    have hdestroy := hphase.phase.inv.destroy_phase hr
    exact hphase.trans ⟨hvmm ▸ hdestroy, fun _ hj => .inl (hheap ▸ hj)⟩ h
  | noStack vmm hblock hmap hvmm hheap =>
    rw [if_pos ⟨rfl, hblock⟩]
    have hphase := hkstack (hfill hmap)
    have hclears := unmapAndFree_clears hphase.phase.inv hr userHalf_stackPages
    have hdestroy := hclears.phase.trans (hclears.inv.destroy_phase hr) hphase.phase.inv
    exact hphase.trans ⟨hvmm ▸ hdestroy, fun _ hj => .inl (hheap ▸ hj)⟩ h
  | created vmm hblock hstack hmap hvmm hheap =>
    rw [if_neg fun hboth => hblock hboth.1]
    have hphase := hkstack (hfill hmap)
    have hcopy := (copyArguments_keeps hphase.phase.inv hr hfit).phase
    exact hphase.trans ⟨hvmm ▸ hcopy, fun _ hj => .inl (hheap ▸ hj)⟩ h

/-- A call of `thread_create` takes pages for the heap only. -/
theorem KernelCreateEnd.phase {func arg : Word}
    (hend : KernelCreateEnd sym k func arg record kstack k' t) (h : SpacesInv 4 k.vmm roots) :
    HeapPhase roots roots k k' := by
  have hrecord := kmalloc_heapPhase h record
  have hkstack := hrecord.trans (kmalloc_heapPhase hrecord.phase.inv kstack) h
  cases hend with
  | noRecord hblock hk =>
    rw [hk]
    exact hrecord
  | noStack hblock hvmm hheap => exact ⟨hvmm ▸ hkstack.phase, fun j hj => by
      rw [hvmm]
      exact hkstack.heap j (hheap ▸ hj)⟩
  | created hblock hstack hvmm hheap => exact ⟨hvmm ▸ hkstack.phase, fun j hj => by
      rw [hvmm]
      exact hkstack.heap j (hheap ▸ hj)⟩

end Ends

/-- A machine of 64 pages, with no threads yet. -/
def smallKernel : Kernel := { clearKernel with vmm := smallVmm, cr3 := 0x1000 }

end KyroOS.Threads

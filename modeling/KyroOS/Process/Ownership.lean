import KyroOS.Elf.Mapping
import KyroOS.Threads.Reaper
import KyroOS.Threads.UserSpace

/-!
# Who owns an address space

A user thread owns the address space it was created with, and takes it to its grave. A kernel
thread runs in the address space that was current when it was created. The reaper does not
tell one from the other.

## Main definitions

* `IsUser`, `userSpaces` — the threads with an address space of their own
* `Owned` — every address space has one owner
* `ReapSafe`, `ReapsSafely` — the reaper destroys an address space that nobody else uses

## Main results

* `Owned.reap`, `Owned.createUser`, `Owned.createKernel` — the operations keep the owners apart
* `Owned.reapsSafely` — then the reaper is safe
-/

namespace KyroOS.Process

open KyroOS.Memory KyroOS.Threads KyroOS.Elf RadixTree

/-! ### Owners -/

/-- A thread that does not run in the kernel's address space. -/
def IsUser (k : Kernel) (p : Word) : Prop := p ∈ k.live ∧ (k.thread p).pml4 ≠ k.vmm.kernelPml4

instance (k : Kernel) (p : Word) : Decidable (IsUser k p) := inferInstanceAs (Decidable (_ ∧ _))

/-- The address spaces of the user threads. -/
def userSpaces (k : Kernel) : Set Word := {r | ∃ p, IsUser k p ∧ (k.thread p).pml4 = r}

/-- The address spaces in use, those that belong to no thread yet included. -/
def allSpaces (k : Kernel) (pending : Set Word) : Set Word := pending ∪ userSpaces k

/-- The address spaces are in order, and each has one owner; a DEAD thread that can be reaped
has one; the pages of the heap are in none. -/
structure Owned (k : Kernel) (pending : Set Word) : Prop where
  inv : SpacesInv 4 k.vmm (allSpaces k pending)
  alone : ∀ p q, IsUser k p → IsUser k q → (k.thread p).pml4 = (k.thread q).pml4 → p = q
  handed : ∀ p, IsUser k p → (k.thread p).pml4 ∉ pending
  stack : ∀ p, IsUser k p → (k.thread p).userStackBase = userStackStart
  dead : ∀ p, k.Dead p → IsUser k p
  heap : ∀ j ∈ k.heapPages, k.vmm.Outside 4 (allSpaces k pending) j

/-- Reaping the thread at `p` destroys no address space that another thread or the kernel
uses. -/
def ReapSafe (k : Kernel) (p : Word) : Prop :=
  (k.thread p).pml4 ≠ 0 →
    (k.thread p).pml4 ≠ k.vmm.kernelPml4 ∧
      ∀ q ∈ k.live, q ≠ p → (k.thread q).pml4 ≠ (k.thread p).pml4

/-- Whatever thread a call of `schedule` reaps, it is safe. -/
def ReapsSafely (k : Kernel) : Prop :=
  ∀ s, Searches k s → Frees k.currentThread s → ReapSafe s.kernel s.curr

/-- The pages of the tables of every user thread are allocated. -/
def TablesAllocated (k : Kernel) : Prop :=
  ∀ p, IsUser k p → ∀ π t, TablePath 3 π → k.vmm.walk (k.thread p).pml4 π = some t →
    ∃ q, t = k.vmm.pageVirt q ∧ k.vmm.pmm.Allocated q

section Owned

variable {k k' : Kernel} {pending pending' : Set Word} {p r : Word}

theorem IsUser.mem_allSpaces (h : IsUser k p) : (k.thread p).pml4 ∈ allSpaces k pending :=
  .inr ⟨p, h, rfl⟩

/-- The users of `k'` are some of the users of `k`. -/
structure FewerUsers (k k' : Kernel) : Prop where
  user : ∀ p, IsUser k' p → IsUser k p
  pml4 : ∀ p, IsUser k' p → (k'.thread p).pml4 = (k.thread p).pml4
  stack : ∀ p, IsUser k' p → (k'.thread p).userStackBase = (k.thread p).userStackBase

/-- A phase that makes no new user keeps the owners apart. -/
theorem Owned.fewer (h : Owned k pending)
    (hphase : HeapPhase (allSpaces k pending) (allSpaces k' pending') k k')
    (husers : FewerUsers k k') (hhanded : ∀ p, IsUser k' p → (k.thread p).pml4 ∉ pending')
    (hdead : ∀ p, k'.Dead p → IsUser k' p) : Owned k' pending' where
  inv := hphase.phase.inv
  alone := by
    intro p q hp hq heq
    rw [husers.pml4 p hp, husers.pml4 q hq] at heq
    exact h.alone p q (husers.user p hp) (husers.user q hq) heq
  handed := fun p hp => husers.pml4 p hp ▸ hhanded p hp
  stack := fun p hp => (husers.stack p hp).trans (h.stack p (husers.user p hp))
  dead := hdead
  heap := by
    intro j hj
    rcases hphase.heap j hj with hold | hout
    · exact hphase.phase.outside j (h.heap j hold)
    · exact hout

/-- The same users have the same address spaces. -/
theorem userSpaces_congr (hback : FewerUsers k k') (hforth : FewerUsers k' k) :
    userSpaces k' = userSpaces k := by
  ext r
  constructor
  · rintro ⟨p, hp, rfl⟩
    exact ⟨p, hback.user p hp, (hback.pml4 p hp).symm⟩
  · rintro ⟨p, hp, rfl⟩
    exact ⟨p, hforth.user p hp, (hforth.pml4 p hp).symm⟩

/-- Where no thread changes, the users are the same. -/
theorem fewerUsers_of_same (hlive : k'.live ⊆ k.live) (hkernel : k'.vmm.kernelPml4 = k.vmm.kernelPml4)
    (hpml4 : ∀ p ∈ k'.live, (k'.thread p).pml4 = (k.thread p).pml4)
    (hstack : ∀ p ∈ k'.live, (k'.thread p).userStackBase = (k.thread p).userStackBase) :
    FewerUsers k k' where
  user := fun p hp => ⟨hlive hp.1, by rw [← hpml4 p hp.1, ← hkernel]; exact hp.2⟩
  pml4 := fun p hp => hpml4 p hp.1
  stack := fun p hp => hstack p hp.1

/-- Links, states and the current thread do not matter for the owners. -/
theorem Owned.shuffles (h : Owned k pending) (hs : Shuffles k k') : Owned k' pending := by
  have hback : FewerUsers k k' := fewerUsers_of_same hs.live.subset (by rw [hs.vmm])
    (fun p _ => hs.pml4 p) fun p _ => hs.userStackBase p
  have hforth : FewerUsers k' k := fewerUsers_of_same hs.live.superset (by rw [hs.vmm])
    (fun p _ => (hs.pml4 p).symm) fun p _ => (hs.userStackBase p).symm
  have hspaces : allSpaces k' pending = allSpaces k pending := by
    rw [allSpaces, userSpaces_congr hback hforth, allSpaces]
  refine h.fewer ⟨?_, fun j hj => .inl (hs.heapPages ▸ hj)⟩ hback
    (fun p hp => h.handed p (hback.user p hp)) fun p hp => ?_
  · rw [hspaces, hs.vmm]
    exact .refl h.inv
  · have hp' := h.dead p (hs.dead_back hp)
    exact ⟨hp.live, by rw [hs.pml4, hs.vmm]; exact hp'.2⟩

/-! ### Reaping -/

/-- What the clean-up of a user thread does to the page tables. -/
theorem reap_vmm (hid : (k.thread p).id ≠ 0) (hpml4 : (k.thread p).pml4 ≠ 0)
    (hstack : (k.thread p).userStackBase = userStackStart) :
    (reap k p).vmm = vmmDestroyAddressSpace
      (unmapAndFree k.vmm (k.thread p).pml4 (stackPages userStackStart)) (k.thread p).pml4 := by
  have hbase : (k.thread p).userStackBase ≠ 0 := by
    rw [hstack]
    decide
  rw [← hstack]
  unfold reap
  dsimp only
  rw [if_neg hbase, if_pos ⟨hpml4, hid⟩]
  rfl

theorem root_ne_zero {roots : Set Word} (h : SpacesInv 4 k.vmm roots) (hr : r ∈ roots) : r ≠ 0 := by
  obtain ⟨q, hq, hq0, -, rfl⟩ := h.backed _ (SpacesInv.mem_nodes hr TablePath.nil rfl)
  exact h.pageVirt_ne_zero hq hq0

/-- The clean-up of a DEAD user thread destroys its address space. -/
theorem reap_phase {roots : Set Word} (h : SpacesInv 4 k.vmm roots) (hid : (k.thread p).id ≠ 0)
    (hr : (k.thread p).pml4 ∈ roots) (hstack : (k.thread p).userStackBase = userStackStart) :
    HeapPhase roots (roots \ {(k.thread p).pml4}) k (reap k p) := by
  have hclears := unmapAndFree_clears h hr userHalf_stackPages
  have hdestroy := hclears.phase.trans (hclears.inv.destroy_phase hr) h
  exact ⟨reap_vmm hid (root_ne_zero h hr) hstack ▸ hdestroy, fun j hj => .inl hj⟩

theorem Owned.reap (h : Owned k pending) (hdead : k.Dead p) : Owned (reap k p) pending := by
  have huser := h.dead p hdead
  have hphase := reap_phase h.inv hdead.id huser.mem_allSpaces (h.stack p huser)
  have hthread : (Threads.reap k p).thread = k.thread := rfl
  have hlive : (Threads.reap k p).live = k.live.erase p := rfl
  have hback : FewerUsers k (Threads.reap k p) :=
    fewerUsers_of_same (Finset.erase_subset p k.live) hphase.phase.kernelPml4
      (fun _ _ => rfl) fun _ _ => rfl
  -- nobody else has the address space of the dead thread
  have hspaces : allSpaces k pending \ {(k.thread p).pml4} = allSpaces (Threads.reap k p) pending := by
    ext r
    constructor
    · rintro ⟨hr | ⟨q, hq, rfl⟩, hne⟩
      · exact .inl hr
      · refine .inr ⟨q, ⟨Finset.mem_erase.mpr ⟨?_, hq.1⟩, ?_⟩, rfl⟩
        · rintro rfl
          exact hne rfl
        · rw [hphase.phase.kernelPml4]
          exact hq.2
    · rintro (hr | ⟨q, hq, rfl⟩)
      · refine ⟨.inl hr, ?_⟩
        rintro rfl
        exact h.handed p huser hr
      · refine ⟨.inr ⟨q, hback.user q hq, rfl⟩, fun heq => ?_⟩
        have hqp := h.alone q p (hback.user q hq) huser heq
        exact (Finset.mem_erase.mp hq.1).1 hqp
  refine h.fewer (hspaces ▸ hphase) hback (fun q hq => h.handed q (hback.user q hq)) fun q hq => ?_
  have hq' := h.dead q ⟨Finset.mem_of_mem_erase hq.live, hq.dead, hq.id⟩
  exact ⟨hq.live, by rw [hphase.phase.kernelPml4]; exact hq'.2⟩

theorem Owned.reapSafe (h : Owned k pending) (hdead : k.Dead p) : ReapSafe k p := by
  have huser := h.dead p hdead
  refine fun _ => ⟨huser.2, fun q hq hne heq => hne ?_⟩
  exact h.alone q p ⟨hq, heq ▸ huser.2⟩ huser heq

theorem Owned.reapsSafely (h : Owned k pending) : ReapsSafely k := by
  intro s hs hfrees
  have hI : Owned s.kernel pending := hs.preserves (I := fun k => Owned k pending)
    (fun _ _ hI hshuffle => hI.shuffles hshuffle) (fun _ _ hI hdead => hI.reap hdead) h
  exact hI.reapSafe hfrees.dead

theorem Owned.tablesAllocated (h : Owned k pending) : TablesAllocated k := by
  intro p hp π t hπ ht
  obtain ⟨q, -, -, hall, rfl⟩ :=
    h.inv.backed t (SpacesInv.mem_nodes hp.mem_allSpaces (hπ.mono (by decide)) ht)
  exact ⟨q, rfl, hall⟩

/-! ### Address spaces without threads -/

/-- Where the threads stay the same, a phase changes the address spaces without an owner. -/
theorem Owned.pend (h : Owned k pending)
    (hphase : HeapPhase (allSpaces k pending) (pending' ∪ userSpaces k) k k')
    (hlive : k'.live = k.live) (hthread : ∀ p ∈ k.live, k'.thread p = k.thread p)
    (hhanded : ∀ p, IsUser k p → (k.thread p).pml4 ∉ pending') : Owned k' pending' := by
  have hkernel := hphase.phase.kernelPml4
  have hback : FewerUsers k k' := fewerUsers_of_same hlive.subset hkernel
    (fun p hp => by rw [hthread p (hlive ▸ hp)]) fun p hp => by rw [hthread p (hlive ▸ hp)]
  have hforth : FewerUsers k' k := fewerUsers_of_same hlive.superset hkernel.symm
    (fun p hp => by rw [hthread p hp]) fun p hp => by rw [hthread p hp]
  have hspaces : allSpaces k' pending' = pending' ∪ userSpaces k := by
    rw [allSpaces, userSpaces_congr hback hforth]
  refine h.fewer (hspaces ▸ hphase) hback (fun p hp => hhanded p (hback.user p hp)) fun p hp => ?_
  have hp' : p ∈ k.live := hlive ▸ hp.live
  have hdead : k.Dead p := ⟨hp', hthread p hp' ▸ hp.dead, hthread p hp' ▸ hp.id⟩
  exact ⟨hp.live, by rw [hthread p hp', hkernel]; exact (h.dead p hdead).2⟩

/-- An address space without an owner is destroyed. -/
theorem Owned.sdiff_pending (h : Owned k pending) (hr : r ∈ pending) :
    allSpaces k pending \ {r} = pending \ {r} ∪ userSpaces k := by
  ext r'
  constructor
  · rintro ⟨hr' | hr', hne⟩
    · exact .inl ⟨hr', hne⟩
    · exact .inr hr'
  · rintro (⟨hr', hne⟩ | ⟨p, hp, rfl⟩)
    · exact ⟨.inl hr', hne⟩
    · refine ⟨.inr ⟨p, hp, rfl⟩, ?_⟩
      rintro rfl
      exact h.handed p hp hr

/-! ### Creating threads -/

section Create

variable {sym : Symbols} {entry pml4 programBreak console t func arg : Word}
  {argv : List (List Byte)} {record kstack : Kmalloc}

/-- The address spaces without an owner after a call of `thread_create_userspace`. -/
def pendingAfterCreate (pending : Set Word) (pml4 : Word) (record : Kmalloc) : Set Word :=
  if record.block = 0 then pending else pending \ {pml4}

/-- A new user thread takes the address space that it is given, or it is destroyed. -/
theorem Owned.createUser (h : Owned k pending) (hr : pml4 ∈ pending) (hfit : ArgsFit argv)
    (hfresh : record.block ∉ k.live)
    (hend : CreateEnd sym k entry pml4 programBreak argv console record kstack k' t) :
    Owned k' (pendingAfterCreate pending pml4 record) := by
  have hphase := hend.phase h.inv (.inl hr) hfit
  unfold rootsAfterCreate at hphase
  unfold pendingAfterCreate
  have hsame : (insert record.block k.live).erase record.block = k.live :=
    Finset.erase_insert hfresh
  have hne : ∀ p ∈ k.live, p ≠ record.block := by
    rintro p hp rfl
    exact hfresh hp
  -- a call that fails changes no thread
  have hfail : record.block ≠ 0 → t = 0 → k'.live = (insert record.block k.live).erase record.block →
      (∀ p ≠ record.block, k'.thread p = k.thread p) → Owned k' (pending \ {pml4}) := by
    intro hblock ht hlive hthread
    rw [if_pos ⟨ht, hblock⟩, h.sdiff_pending hr] at hphase
    exact h.pend hphase (hlive.trans hsame) (fun p hp => hthread p (hne p hp))
      fun p hp hmem => h.handed p hp hmem.1
  cases hend with
  | noRecord hblock hk =>
    rw [if_neg fun hboth => hboth.2 hblock] at hphase
    rw [if_pos hblock]
    refine h.pend hphase ?_ (fun p _ => ?_) h.handed
    · rw [hk, kmalloc_live]
    · rw [hk, kmalloc_thread]
  | noPage vmm hblock hmap hvmm hheap hlive hcurrent hthread =>
    rw [if_neg hblock]
    exact hfail hblock rfl hlive hthread
  | noStack vmm hblock hmap hvmm hheap hlive hcurrent hthread =>
    rw [if_neg hblock]
    exact hfail hblock rfl hlive hthread
  | created vmm hblock hstack hmap hvmm hheap hlive hcurrent hkstack hnew hthread =>
    rw [if_neg fun hboth => hblock hboth.1] at hphase
    rw [if_neg hblock]
    obtain ⟨next, hnew⟩ := hnew
    have hkernel := hphase.phase.kernelPml4
    have hold : ∀ p ∈ k.live, (k'.thread p).pml4 = (k.thread p).pml4 ∧
        (k'.thread p).userStackBase = (k.thread p).userStackBase := by
      intro p hp
      obtain ⟨next, hp'⟩ := hthread p (hne p hp)
      rw [hp']
      exact ⟨rfl, rfl⟩
    have hpml4 : (k'.thread record.block).pml4 = pml4 := by rw [hnew]
    -- the users are those from before and the new thread
    have huser : ∀ p, IsUser k' p ↔ IsUser k p ∨ p = record.block := by
      intro p
      rw [IsUser, IsUser, hlive, Finset.mem_insert, hkernel]
      constructor
      · rintro ⟨rfl | hp, hpml4⟩
        · exact .inr rfl
        · exact .inl ⟨hp, (hold p hp).1 ▸ hpml4⟩
      · rintro (⟨hp, hpml4⟩ | rfl)
        · exact ⟨.inr hp, (hold p hp).1.symm ▸ hpml4⟩
        · refine ⟨.inl rfl, fun heq => h.inv.kernel_notMem ?_⟩
          rw [← heq, hpml4]
          exact SpacesInv.mem_nodes (.inl hr) TablePath.nil rfl
    have hspaces : allSpaces k' (pending \ {pml4}) = allSpaces k pending := by
      ext r
      constructor
      · rintro (⟨hr', -⟩ | ⟨p, hp, rfl⟩)
        · exact .inl hr'
        · rcases (huser p).mp hp with hp | rfl
          · exact .inr ⟨p, hp, (hold p hp.1).1.symm⟩
          · rw [hpml4]
            exact .inl hr
      · rintro (hr' | ⟨p, hp, rfl⟩)
        · by_cases heq : r = pml4
          · exact .inr ⟨record.block, (huser _).mpr (.inr rfl), hpml4.trans heq.symm⟩
          · exact .inl ⟨hr', heq⟩
        · exact .inr ⟨p, (huser p).mpr (.inl hp), (hold p hp.1).1⟩
    refine ⟨hspaces ▸ hphase.phase.inv, fun p q hp hq heq => ?_, fun p hp hmem => ?_,
      fun p hp => ?_, fun p hp => ?_, fun j hj => ?_⟩
    · rcases (huser p).mp hp with hp | rfl <;> rcases (huser q).mp hq with hq | rfl
      · rw [(hold p hp.1).1, (hold q hq.1).1] at heq
        exact h.alone p q hp hq heq
      · rw [(hold p hp.1).1, hpml4] at heq
        exact absurd (heq ▸ hr) (h.handed p hp)
      · rw [(hold q hq.1).1, hpml4] at heq
        exact absurd (heq ▸ hr) (h.handed q hq)
      · rfl
    · rcases (huser p).mp hp with hp | rfl
      · rw [(hold p hp.1).1] at hmem
        exact h.handed p hp hmem.1
      · exact hmem.2 hpml4
    · rcases (huser p).mp hp with hp | rfl
      · exact (hold p hp.1).2.trans (h.stack p hp)
      · rw [hnew]
    · rw [huser]
      have hlive' := hp.live
      rw [hlive, Finset.mem_insert] at hlive'
      rcases hlive' with rfl | hlive'
      · exact .inr rfl
      · obtain ⟨next, hp'⟩ := hthread p (hne p hlive')
        have hdead := hp.dead
        have hid := hp.id
        rw [hp'] at hdead hid
        exact .inl (h.dead p ⟨hlive', hdead, hid⟩)
    · rw [hspaces]
      rcases hphase.heap j hj with hj | hout
      · exact hphase.phase.outside j (h.heap j hj)
      · exact hout

/-- A new kernel thread runs in the current address space, which is the kernel's. -/
theorem Owned.createKernel (h : Owned k pending) (hcurrent : k.currentPml4 = k.vmm.kernelPml4)
    (hfresh : record.block ∉ k.live)
    (hend : KernelCreateEnd sym k func arg record kstack k' t) : Owned k' pending := by
  have hphase := hend.phase h.inv
  have hne : ∀ p ∈ k.live, p ≠ record.block := by
    rintro p hp rfl
    exact hfresh hp
  cases hend with
  | noRecord hblock hk =>
    refine h.pend hphase ?_ (fun p _ => ?_) h.handed
    · rw [hk, kmalloc_live]
    · rw [hk, kmalloc_thread]
  | noStack hblock hvmm hheap hlive _ hthread =>
    exact h.pend hphase (hlive.trans (Finset.erase_insert hfresh))
      (fun p hp => hthread p (hne p hp)) h.handed
  | created hblock hstack hvmm hheap hlive _ hkstack hnew hthread =>
    obtain ⟨next, hnew⟩ := hnew
    have hkernel := hphase.phase.kernelPml4
    have hold : ∀ p ∈ k.live, ∃ next, k'.thread p = { k.thread p with next } :=
      fun p hp => hthread p (hne p hp)
    -- the new thread is none with an address space of its own
    have huser : ∀ p, IsUser k' p → p ∈ k.live := by
      rintro p ⟨hp, hpml4⟩
      rw [hlive, Finset.mem_insert] at hp
      refine hp.resolve_left ?_
      rintro rfl
      rw [hnew, hkernel] at hpml4
      exact hpml4 hcurrent
    have hback : FewerUsers k k' := by
      refine ⟨fun p hp => ⟨huser p hp, ?_⟩, fun p hp => ?_, fun p hp => ?_⟩ <;>
        obtain ⟨next, hp'⟩ := hold p (huser p hp)
      · have hpml4 := hp.2
        rw [hp', hkernel] at hpml4
        exact hpml4
      · rw [hp']
      · rw [hp']
    have hforth : FewerUsers k' k := by
      refine fewerUsers_of_same ?_ hkernel.symm (fun p hp => ?_) fun p hp => ?_
      · rw [hlive]
        exact Finset.subset_insert _ _
      · obtain ⟨next, hp'⟩ := hold p hp
        rw [hp']
      · obtain ⟨next, hp'⟩ := hold p hp
        rw [hp']
    have hspaces : allSpaces k' pending = allSpaces k pending := by
      rw [allSpaces, userSpaces_congr hback hforth, allSpaces]
    refine h.fewer (hspaces ▸ hphase) hback (fun p hp => h.handed p (hback.user p hp))
      fun p hp => ?_
    have hp' := hp.live
    rw [hlive, Finset.mem_insert] at hp'
    rcases hp' with rfl | hp'
    · have hdead := hp.dead
      rw [hnew] at hdead
      cases hdead
    · obtain ⟨next, hthread'⟩ := hold p hp'
      have hdead := hp.dead
      have hid := hp.id
      rw [hthread'] at hdead hid
      exact hforth.user p (h.dead p ⟨hp', hdead, hid⟩)

end Create

end Owned

end KyroOS.Process

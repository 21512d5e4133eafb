import KyroOS.Elf.Mapping
import KyroOS.Lib.Transition
import KyroOS.Threads.UserSpace

/-!
# The kernel half of the address spaces

Every address space gets the upper entries of the kernel's top-level table, and so shares the
tables behind them. A program is mapped where its headers say, and `elf_load` does not look
whether that is the user half.

## Main definitions

* `UpperTable` — the tables behind the upper entries of a top-level table
* `Spaces`, `SpaceAct`, `spaceSystem` — the kernel with its address spaces, and its runs
* `StaysBelow` — the condition under which an act stays out of the kernel half
* `Spaces.SharesKernelHalf`, `Untouched` — the kernel half is shared, and stays as it is

## Main results

* `runsTo_phase` — a run of acts that stay below is a phase
* `kernelHalf_of_staysBelow` — in such a run the kernel half is shared and untouched
* `not_kernelHalf` — a program can map itself into the kernel half
-/

namespace KyroOS.Elf

open KyroOS.Memory KyroOS.Threads Transition

/-! ### The tables of the kernel half -/

/-- The table that an entry below the top level points to. An entry with the page-size bit
points to a page. -/
def tableAt (v : Vmm) (table : Word) (i : ℕ) : Option Word :=
  if v.entry table i &&& 0x80 = 0 then v.nextLevel table i else none

/-- The table `t` is reached through an entry of the upper half of the top-level table `root`,
`n` levels below it. -/
inductive UpperTable (v : Vmm) (root : Word) : ℕ → Word → Prop
  | pdpt {i : ℕ} {t : Word} (hi : 256 ≤ i) (hlt : i < 512) (ht : v.nextLevel root i = some t) :
    UpperTable v root 1 t
  | deeper {n i : ℕ} {table t : Word} (h : UpperTable v root n table) (hn : n < 3) (hlt : i < 512)
    (ht : tableAt v table i = some t) : UpperTable v root (n + 1) t

/-- The table is on a page that is not free, if that page can be allocated at all. -/
def Reserved (v : Vmm) (t : Word) : Prop :=
  ∃ q < 2 ^ 40, t = v.pageVirt q ∧ (q < v.pmm.totalPages → v.pmm.Allocated q)

section UpperTable

variable {v v' : Vmm} {roots roots' : Set Word} {root : Word} {n : ℕ} {t : Word}

theorem nextLevel_congr (hhdm : v'.hhdm = v.hhdm) {root' : Word} {i : ℕ}
    (hentry : v'.entry root' i = v.entry root i) : v'.nextLevel root' i = v.nextLevel root i := by
  rw [Vmm.nextLevel, Vmm.nextLevel, hentry, Vmm.physToVirt, Vmm.physToVirt, hhdm]

theorem tableAt_congr (hhdm : v'.hhdm = v.hhdm) {i : ℕ} (hentry : v'.entry t i = v.entry t i) :
    tableAt v' t i = tableAt v t i := by
  rw [tableAt, tableAt, hentry, nextLevel_congr hhdm hentry]

/-- The tables behind a top-level table depend on its upper entries and on theirs only. -/
theorem upperTable_congr {root' : Word} (hhdm : v'.hhdm = v.hhdm)
    (hroot : ∀ i, 256 ≤ i → i < 512 → v'.entry root' i = v.entry root i)
    (hentries : ∀ m table, UpperTable v root m table → ∀ i < 512,
      v'.entry table i = v.entry table i) :
    UpperTable v' root' n t ↔ UpperTable v root n t := by
  constructor
  · intro h
    induction h with
    | pdpt hi hlt ht => exact .pdpt hi hlt (nextLevel_congr hhdm (hroot _ hi hlt) ▸ ht)
    | deeper _ hn hlt ht ih =>
      exact .deeper ih hn hlt (tableAt_congr hhdm (hentries _ _ ih _ hlt) ▸ ht)
  · intro h
    induction h with
    | pdpt hi hlt ht => exact .pdpt hi hlt ((nextLevel_congr hhdm (hroot _ hi hlt)).trans ht)
    | deeper h hn hlt ht ih =>
      exact .deeper ih hn hlt ((tableAt_congr hhdm (hentries _ _ h _ hlt)).trans ht)

end UpperTable

/-! ### The system -/

/-- The kernel with its address spaces, by the addresses of their top-level tables. -/
structure Spaces where
  kernel : Kernel
  live : Set Word

/-- What happens to address spaces. -/
inductive SpaceAct
  /-- `vmm_create_address_space`. -/
  | create
  /-- `elf_load` into an address space. -/
  | load (pml4 : Word) (image : Image)
  /-- `thread_create_userspace` for an address space. -/
  | createThread (sym : Symbols) (entry pml4 programBreak : Word) (argv : List (List Byte))
    (console : Word) (record kstack : Kmalloc)
  /-- `vmm_destroy_address_space`. -/
  | destroy (pml4 : Word)
  /-- The heap takes pages. -/
  | kmalloc (m : Kmalloc)

/-- One step. The address spaces that are worked on are live ones. -/
inductive SpaceStep : Spaces → SpaceAct → Spaces → Prop
  | create {k : Kernel} {live : Set Word} {v : Vmm} {r : Word}
    (hcreate : vmmCreateAddressSpace k.vmm = (v, r)) (hr : r ≠ 0) :
    SpaceStep ⟨k, live⟩ .create ⟨{ k with vmm := v }, insert r live⟩
  | createNone {k : Kernel} {live : Set Word} {v : Vmm}
    (hcreate : vmmCreateAddressSpace k.vmm = (v, 0)) :
    SpaceStep ⟨k, live⟩ .create ⟨{ k with vmm := v }, live⟩
  | load {k : Kernel} {live : Set Word} {pml4 : Word} {image : Image} {v : Vmm}
    {result : LoadResult} (hlive : pml4 ∈ live) (hload : elfLoad k.vmm pml4 image = .ok (v, result)) :
    SpaceStep ⟨k, live⟩ (.load pml4 image) ⟨{ k with vmm := v }, live⟩
  | createThread {k k' : Kernel} {live : Set Word} {sym : Symbols} {entry pml4 programBreak : Word}
    {argv : List (List Byte)} {console t : Word} {record kstack : Kmalloc} (hlive : pml4 ∈ live)
    (hthread : threadCreateUserspace sym k entry pml4 programBreak argv console record kstack =
      .ok (k', t)) :
    SpaceStep ⟨k, live⟩ (.createThread sym entry pml4 programBreak argv console record kstack)
      ⟨k', rootsAfterCreate live pml4 record t⟩
  | destroy {k : Kernel} {live : Set Word} {pml4 : Word} (hlive : pml4 ∈ live) :
    SpaceStep ⟨k, live⟩ (.destroy pml4)
      ⟨{ k with vmm := vmmDestroyAddressSpace k.vmm pml4 }, live \ {pml4}⟩
  | kmalloc {k : Kernel} {live : Set Word} {m : Kmalloc} :
    SpaceStep ⟨k, live⟩ (.kmalloc m) ⟨k.kmalloc m, live⟩

/-- After the boot there are no address spaces but the kernel's, whose tables are not free. -/
structure Boot (s : Spaces) : Prop where
  live : s.live = ∅
  inv : SpacesInv 4 s.kernel.vmm ∅
  reserved : ∀ n t, UpperTable s.kernel.vmm s.kernel.vmm.kernelPml4 n t → Reserved s.kernel.vmm t

/-- The runs from the boot on. -/
def spaceSystem : System Spaces SpaceAct where
  init := Boot
  step := SpaceStep

/-- An act stays out of the kernel half: a new address space gets a page, the segments that are
loaded lie in the user half, and the arguments fit there. -/
def StaysBelow (s : Spaces) : SpaceAct → Prop
  | .create => ∃ p < s.kernel.vmm.pmm.totalPages, ¬ s.kernel.vmm.pmm.Allocated p
  | .load _ image => image.ehdr.Accepted → SegmentsInUserHalf image
  | .createThread _ _ _ _ argv _ _ _ => ArgsFit argv
  | .destroy _ => True
  | .kmalloc _ => True

/-- The upper entries of every address space are those of the kernel's table. -/
def Spaces.SharesKernelHalf (s : Spaces) : Prop :=
  ∀ r ∈ s.live, ∀ i, 256 ≤ i → i < 512 →
    s.kernel.vmm.entry r i = s.kernel.vmm.entry s.kernel.vmm.kernelPml4 i

/-- The tables behind the upper entries in `s` are not freed and not changed in `s'`. -/
def Untouched (s s' : Spaces) : Prop :=
  ∀ r ∈ insert s.kernel.vmm.kernelPml4 s.live, ∀ n t, UpperTable s.kernel.vmm r n t →
    Reserved s'.kernel.vmm t ∧ ∀ i < 512, s'.kernel.vmm.entry t i = s.kernel.vmm.entry t i

/-! ### Runs that stay below -/

section Runs

variable {s s' s'' : Spaces} {a : SpaceAct}

/-- The step lemma. -/
theorem SpaceStep.phase (hstep : SpaceStep s a s') (hbelow : StaysBelow s a)
    (h : SpacesInv 4 s.kernel.vmm s.live) :
    Phase s.live s'.live s.kernel.vmm s'.kernel.vmm := by
  cases hstep with
  | create hcreate hr =>
    obtain ⟨p, hp, hfree⟩ := hbelow
    obtain ⟨r', v', hcreate', -, hcreates⟩ :=
      vmmCreateAddressSpace_spec h le_rfl (Pmm.findFree_ne_none hp hfree)
    obtain ⟨rfl, rfl⟩ := Prod.mk.inj (hcreate.symm.trans hcreate')
    exact hcreates.phase
  | createNone hcreate =>
    -- with a free page the result is not `NULL`
    obtain ⟨p, hp, hfree⟩ := hbelow
    obtain ⟨r', v', hcreate', hr', -⟩ :=
      vmmCreateAddressSpace_spec h le_rfl (Pmm.findFree_ne_none hp hfree)
    obtain ⟨-, rfl⟩ := Prod.mk.inj (hcreate.symm.trans hcreate')
    exact absurd rfl hr'
  | load hlive hload =>
    obtain ⟨F, hfills, -⟩ := elfLoad_fills h hlive hbelow hload
    exact hfills.phase
  | createThread hlive hthread =>
    exact ((threadCreateUserspace_end hthread).phase h hlive hbelow).phase
  | destroy hlive => exact h.destroy_phase hlive
  | kmalloc => exact kmalloc_phase h _

/-- The run lemma. -/
theorem runsTo_phase (hrun : spaceSystem.RunsTo StaysBelow s s')
    (h : SpacesInv 4 s.kernel.vmm s.live) : Phase s.live s'.live s.kernel.vmm s'.kernel.vmm := by
  refine hrun.preserves (I := fun t => Phase s.live t.live s.kernel.vmm t.kernel.vmm)
    (fun t a t' hphase hbelow hstep => ?_) (.refl h)
  exact hphase.trans (SpaceStep.phase hstep hbelow hphase.inv) h

/-- The tables of the kernel are outside the address spaces. -/
def KernelOutside (s : Spaces) : Prop :=
  ∀ n t, UpperTable s.kernel.vmm s.kernel.vmm.kernelPml4 n t →
    ∃ q, t = s.kernel.vmm.pageVirt q ∧ s.kernel.vmm.Outside 4 s.live q

theorem Boot.kernelOutside (h : Boot s) : KernelOutside s := by
  intro n t ht
  obtain ⟨q, hq, heq, hall⟩ := h.reserved n t ht
  refine ⟨q, heq, hq, hall, ?_⟩
  rw [h.live]
  rintro ⟨r, hr, -⟩
  exact hr

/-- A phase leaves the entries of the kernel's tables as they are. -/
theorem KernelOutside.entry (hout : KernelOutside s)
    (hphase : Phase s.live s'.live s.kernel.vmm s'.kernel.vmm) {n : ℕ} {t : Word}
    (ht : UpperTable s.kernel.vmm s.kernel.vmm.kernelPml4 n t) {i : ℕ} (hi : i < 512) :
    s'.kernel.vmm.entry t i = s.kernel.vmm.entry t i := by
  obtain ⟨q, rfl, hq⟩ := hout n t ht
  exact hphase.entry_outside hq hi

/-- A phase finds the same tables of the kernel. -/
theorem KernelOutside.upperTable (hout : KernelOutside s)
    (hphase : Phase s.live s'.live s.kernel.vmm s'.kernel.vmm)
    (h : SpacesInv 4 s.kernel.vmm s.live) {n : ℕ} {t : Word} :
    UpperTable s'.kernel.vmm s'.kernel.vmm.kernelPml4 n t ↔
      UpperTable s.kernel.vmm s.kernel.vmm.kernelPml4 n t := by
  refine upperTable_congr hphase.hhdm (fun i _ hlt => ?_) fun m table ht i hi =>
    hout.entry hphase ht hi
  rw [hphase.kernelPml4]
  exact hphase.entry_kernel h hlt

/-- A phase leaves the tables of the kernel outside the address spaces. -/
theorem KernelOutside.phase (hout : KernelOutside s)
    (hphase : Phase s.live s'.live s.kernel.vmm s'.kernel.vmm)
    (h : SpacesInv 4 s.kernel.vmm s.live) : KernelOutside s' := by
  intro n t ht
  obtain ⟨q, rfl, hq⟩ := hout n t ((hout.upperTable hphase h).mp ht)
  exact ⟨q, (Vmm.pageVirt_congr hphase.hhdm q).symm, hphase.outside q hq⟩

/-- In a run of acts that stay below, the upper entries of every address space are the kernel's,
and the tables behind them are neither changed nor freed by what comes after. -/
theorem kernelHalf_of_staysBelow (h : spaceSystem.ReachableUnder StaysBelow s)
    (hrun : spaceSystem.RunsTo StaysBelow s s') : s.SharesKernelHalf ∧ Untouched s s' := by
  obtain ⟨s₀, hboot, hbefore⟩ := h
  have hinv₀ : SpacesInv 4 s₀.kernel.vmm s₀.live := hboot.live ▸ hboot.inv
  have hbefore' := runsTo_phase hbefore hinv₀
  have hafter := runsTo_phase hrun hbefore'.inv
  have hout := hboot.kernelOutside.phase hbefore' hinv₀
  have hshares : s.SharesKernelHalf := by
    intro r hr i hi hlt
    rw [hbefore'.kernelPml4, hbefore'.entry_kernel hinv₀ hlt]
    rcases hbefore'.upper r hr i hi hlt with ⟨hr₀, -⟩ | hkernel
    · -- there were no address spaces at the boot
      rw [hboot.live] at hr₀
      exact absurd hr₀ (Set.notMem_empty r)
    · exact hkernel
  refine ⟨hshares, fun r hr n t ht => ?_⟩
  have htable : UpperTable s.kernel.vmm s.kernel.vmm.kernelPml4 n t := by
    rcases hr with rfl | hr
    · exact ht
    · exact (upperTable_congr rfl (fun i hi hlt => (hshares r hr i hi hlt).symm)
        fun _ _ _ _ _ => rfl).mpr ht
  refine ⟨?_, fun i hi => hout.entry hafter htable hi⟩
  obtain ⟨q, rfl, hq⟩ := hout n t htable
  have hq' := hafter.outside q hq
  exact ⟨q, hq'.lt, (Vmm.pageVirt_congr hafter.hhdm q).symm, hq'.allocated⟩

end Runs

/-! ### Runs of a small machine -/

section Small

/-- A machine after its boot. -/
def smallSpaces : Spaces := ⟨smallKernel, ∅⟩

/-- The kernel's table is empty there. -/
theorem not_upperTable_smallVmm (n : ℕ) (t : Word) :
    ¬ UpperTable smallVmm smallVmm.kernelPml4 n t := by
  intro h
  induction h with
  | pdpt hi hlt ht =>
    have hentry : ∀ i, smallVmm.entry smallVmm.kernelPml4 i = 0 := fun _ => rfl
    rw [Vmm.nextLevel, hentry, if_pos (by decide)] at ht
    cases ht
  | deeper h hn hlt ht ih => exact ih

theorem boot_smallSpaces : Boot smallSpaces where
  live := rfl
  inv := smallVmm_inv (by decide)
  reserved := fun n t ht => absurd ht (not_upperTable_smallVmm n t)

/-- An address space is created and destroyed. -/
theorem kernelHalf_created : ∃ s s' : Spaces, s.live.Nonempty ∧ ¬ s'.live.Nonempty ∧
    s.SharesKernelHalf ∧ Untouched s s' := by
  have hfree : ∃ p < smallVmm.pmm.totalPages, ¬ smallVmm.pmm.Allocated p := ⟨2, by decide, by decide⟩
  obtain ⟨v, r, hcreate⟩ : ∃ v r, vmmCreateAddressSpace smallVmm = (v, r) := ⟨_, _, rfl⟩
  have hr : r ≠ 0 := by
    have hne : (vmmCreateAddressSpace smallVmm).2 ≠ 0 := by decide
    rwa [hcreate] at hne
  have hstep : spaceSystem.Allowed StaysBelow smallSpaces
      ⟨{ smallKernel with vmm := v }, insert r ∅⟩ := ⟨.create, hfree, .create hcreate hr⟩
  have hstep' : spaceSystem.Allowed StaysBelow ⟨{ smallKernel with vmm := v }, insert r ∅⟩
      ⟨{ smallKernel with vmm := vmmDestroyAddressSpace v r }, insert r ∅ \ {r}⟩ :=
    ⟨.destroy r, trivial, .destroy (Set.mem_insert r ∅)⟩
  refine ⟨_, _, Set.insert_nonempty r ∅, ?_,
    kernelHalf_of_staysBelow ⟨_, boot_smallSpaces, .head hstep .refl⟩ (.head hstep' .refl)⟩
  simp

/-- A program with a segment in the kernel half. -/
def highProgram : Image := program 0x400000 [⟨ptLoad, pfX, 0, 0xFFFF800000000000, 0, 1⟩] []

/-- The program is loaded, into a table that is not the kernel's. -/
theorem not_kernelHalf : ¬ ∀ s s' : Spaces, spaceSystem.Reachable s →
    spaceSystem.RunsTo (fun _ _ => True) s s' → s.SharesKernelHalf ∧ Untouched s s' := by
  intro h
  obtain ⟨v, r, hcreate⟩ : ∃ v r, vmmCreateAddressSpace smallVmm = (v, r) := ⟨_, _, rfl⟩
  have hload : r ≠ 0 ∧ (elfLoad v r highProgram).toOption.any
      (fun s => decide (s.1.entry r 256 ≠ s.1.entry s.1.kernelPml4 256)) = true := by
    have hrun : (vmmCreateAddressSpace smallVmm).2 ≠ 0 ∧
        (elfLoad (vmmCreateAddressSpace smallVmm).1 (vmmCreateAddressSpace smallVmm).2
          highProgram).toOption.any (fun s => decide (s.1.entry (vmmCreateAddressSpace smallVmm).2 256
            ≠ s.1.entry s.1.kernelPml4 256)) = true := by decide
    rwa [hcreate] at hrun
  obtain ⟨hr, hload⟩ := hload
  cases hok : elfLoad v r highProgram with
  | error e => simp [hok, Except.toOption] at hload
  | ok s =>
    have hmem : r ∈ (insert r ∅ : Set Word) := Set.mem_insert r ∅
    have hstep : spaceSystem.Allowed (fun _ _ => True) smallSpaces
        ⟨{ smallKernel with vmm := v }, insert r ∅⟩ := ⟨.create, trivial, .create hcreate hr⟩
    have hstep' : spaceSystem.Allowed (fun _ _ => True) ⟨{ smallKernel with vmm := v }, insert r ∅⟩
        ⟨{ smallKernel with vmm := s.1 }, insert r ∅⟩ :=
      ⟨.load r highProgram, trivial, .load hmem hok⟩
    obtain ⟨hshares, -⟩ := h _ _ ⟨_, boot_smallSpaces, .head hstep (.head hstep' .refl)⟩ .refl
    have hne : s.1.entry r 256 ≠ s.1.entry s.1.kernelPml4 256 := by
      simpa [hok, Except.toOption] using hload
    exact hne (hshares r hmem 256 le_rfl (by decide))

end Small

end KyroOS.Elf

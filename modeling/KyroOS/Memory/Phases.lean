import KyroOS.Memory.Filling

/-!
# Phases of a run

What the kernel does to its address spaces in one go, be it one page or a whole program, is a
phase: the address spaces before and after are in order, and what lies outside them is as it
was. Phases are put together.

## Main definitions

* `Phase` — from one set of address spaces to another

## Main results

* `Phase.trans`
* `Fills.phase`, `Creates.phase`, `Clears.phase`, `SpacesInv.destroy_phase`, `Grows.phase` — the
  operations of the page tables are phases
-/

namespace KyroOS.Memory

open RadixTree

/-- From `v` with the address spaces `roots` to `v'` with `roots'`: nothing outside was
written or freed, and the upper half of a top-level table is the one it had or the
kernel's. -/
structure Phase (roots roots' : Set Word) (v v' : Vmm) : Prop where
  inv : SpacesInv 4 v' roots'
  hhdm : v'.hhdm = v.hhdm
  kernelPml4 : v'.kernelPml4 = v.kernelPml4
  totalPages : v'.pmm.totalPages = v.pmm.totalPages
  outside : ∀ q, v.Outside 4 roots q → v'.Outside 4 roots' q
  mem : ∀ q, v.Outside 4 roots q → ∀ a, (a - v.pageVirt q).toNat < pageSize → v'.mem a = v.mem a
  upper : ∀ r ∈ roots', ∀ i, 256 ≤ i → i < 512 →
    r ∈ roots ∧ v'.entry r i = v.entry r i ∨ v'.entry r i = v.entry v.kernelPml4 i

section Phase

variable {v v' v'' : Vmm} {roots roots' roots'' : Set Word} {r : Word} {F : Set ℕ}
  {virts : List Word} {pmm : Pmm} {i q : ℕ}

/-- The kernel's top-level table is on a page outside. -/
theorem SpacesInv.kernel_outside (h : SpacesInv 4 v roots) :
    ∃ q, v.kernelPml4 = v.pageVirt q ∧ v.Outside 4 roots q := by
  obtain ⟨q, hq, hall, heq⟩ := h.kernel
  exact ⟨q, heq, h.lt_of_lt_totalPages hq, fun _ => hall, heq ▸ h.kernel_notMem⟩

/-- The entries of a table outside are as before. -/
theorem Phase.entry_outside (h : Phase roots roots' v v') (hq : v.Outside 4 roots q)
    (hi : i < 512) : v'.entry (v.pageVirt q) i = v.entry (v.pageVirt q) i := by
  refine h.mem q hq _ ?_
  rw [Vmm.entryAddr, BitVec.add_comm, BitVec.add_sub_cancel, Vmm.toNat_entry hi, pageSize]
  omega

theorem Phase.entry_kernel (h : Phase roots roots' v v') (hinv : SpacesInv 4 v roots)
    (hi : i < 512) : v'.entry v.kernelPml4 i = v.entry v.kernelPml4 i := by
  obtain ⟨q, heq, hout⟩ := hinv.kernel_outside
  rw [heq]
  exact h.entry_outside hout hi

theorem Phase.refl (h : SpacesInv 4 v roots) : Phase roots roots v v :=
  ⟨h, rfl, rfl, rfl, fun _ hq => hq, fun _ _ _ _ => rfl, fun _ hr _ _ _ => .inl ⟨hr, rfl⟩⟩

theorem Phase.trans (h : Phase roots roots' v v') (h' : Phase roots' roots'' v' v'')
    (hinv : SpacesInv 4 v roots) : Phase roots roots'' v v'' where
  inv := h'.inv
  hhdm := h'.hhdm.trans h.hhdm
  kernelPml4 := h'.kernelPml4.trans h.kernelPml4
  totalPages := h'.totalPages.trans h.totalPages
  outside := fun q hq => h'.outside q (h.outside q hq)
  mem := by
    intro q hq a ha
    have ha' : (a - v'.pageVirt q).toNat < pageSize := by rwa [Vmm.pageVirt_congr h.hhdm]
    rw [h'.mem q (h.outside q hq) a ha', h.mem q hq a ha]
  upper := by
    intro r hr i hi hi'
    rcases h'.upper r hr i hi hi' with ⟨hr', hold⟩ | hnew
    · rw [hold]
      exact h.upper r hr' i hi hi'
    · rw [hnew, h.kernelPml4, h.entry_kernel hinv hi']
      exact .inr rfl

/-- Filling in frames. -/
theorem Fills.phase (h : Fills roots r v v' F) : Phase roots roots v v' where
  inv := h.inv
  hhdm := h.hhdm
  kernelPml4 := h.kernelPml4
  totalPages := h.totalPages
  outside := fun q hq => h.spares.outside q (Set.notMem_empty q) hq
  mem := fun q hq => h.spares.mem q (Set.notMem_empty q) hq
  upper := fun r hr i hi hi' => .inl ⟨hr, h.spares.upper r hr i hi hi'⟩

/-- Writing to frames. -/
theorem Keeps.phase (h : Keeps roots v v') : Phase roots roots v v' where
  inv := h.inv
  hhdm := h.hhdm
  kernelPml4 := h.kernelPml4
  totalPages := by rw [h.pmm]
  outside := fun q hq => h.spares.outside q (Set.notMem_empty q) hq
  mem := fun q hq => h.spares.mem q (Set.notMem_empty q) hq
  upper := fun r hr i hi hi' => .inl ⟨hr, h.spares.upper r hr i hi hi'⟩

/-- Creating an address space. -/
theorem Creates.phase (h : Creates 4 roots v r v') : Phase roots (insert r roots) v v' where
  inv := h.inv
  hhdm := h.hhdm
  kernelPml4 := h.kernelPml4
  totalPages := h.totalPages
  outside := h.outside
  mem := h.mem
  upper := by
    rintro r' (rfl | hr') i hi hi'
    · exact .inr (h.kernelHalf i hi hi')
    · exact .inl ⟨hr', h.upper r' hr' i hi hi'⟩

/-- Unmapping and freeing frames. -/
theorem Clears.phase (h : Clears roots r virts v v') : Phase roots roots v v' where
  inv := h.inv
  hhdm := h.hhdm
  kernelPml4 := h.kernelPml4
  totalPages := h.frees.totalPages
  outside := fun q hq => h.spares.outside q (Set.notMem_empty q) hq
  mem := fun q hq => h.spares.mem q (Set.notMem_empty q) hq
  upper := fun r hr i hi hi' => .inl ⟨hr, h.spares.upper r hr i hi hi'⟩

/-- Destroying an address space. -/
theorem SpacesInv.destroy_phase (h : SpacesInv 4 v roots) (hr : r ∈ roots) :
    Phase roots (roots \ {r}) v (vmmDestroyAddressSpace v r) := by
  obtain ⟨pmm, heq, hfrees, hinv⟩ := h.destroy hr
  rw [heq]
  refine ⟨hinv, rfl, rfl, hfrees.totalPages, fun q hq => ⟨hq.lt, fun hlt => ?_, ?_⟩,
    fun _ _ _ _ => rfl, fun r' hr' i _ _ => .inl ⟨hr'.1, rfl⟩⟩
  · -- a page outside is none of the pages of the tables
    refine (hfrees.allocated q).mpr ⟨hq.allocated (hfrees.totalPages ▸ hlt), ?_⟩
    rintro ⟨⟨-, π, hπ, hw⟩, -⟩
    exact hq.notMem (SpacesInv.mem_nodes hr (hπ.mono h.depth) hw)
  · rintro ⟨r', hr', ρ, hρ, ht⟩
    exact hq.notMem ⟨r', hr'.1, ρ, hρ, ht⟩

/-- Pages that others take. -/
theorem Grows.phase (h : Grows v.pmm pmm) (hinv : SpacesInv 4 v roots) :
    Phase roots roots v { v with pmm } where
  inv := hinv.grow h
  hhdm := rfl
  kernelPml4 := rfl
  totalPages := h.totalPages
  outside := fun q hq =>
    ⟨hq.lt, fun hlt => h.allocated q (hq.allocated (h.totalPages ▸ hlt)), hq.notMem⟩
  mem := fun _ _ _ _ => rfl
  upper := fun _ hr _ _ _ => .inl ⟨hr, rfl⟩

end Phase

end KyroOS.Memory

import KyroOS.Memory.UserMemory

/-!
# Filling an address space

A program is loaded by allocating pages and mapping them, one by one, into one address
space. The account of such a phase is: the pages allocated before, the frames, and the
tables of the address space.

## Main definitions

* `Fills` — frames were allocated and mapped into one address space
* `Grows` — the heap took free pages
* `Room` — that many pages are free

## Main results

* `Fills.trans`, `Keeps.fills` — phases are put together
* `fills_mapFrame` — allocating a page and mapping it
* `vmmMapPage_ok` — with three free pages a mapping succeeds
-/

namespace KyroOS.Memory

open RadixTree

/-! ### Pages taken by others -/

/-- From `p` to `p'` free pages were taken. -/
structure Grows (p p' : Pmm) : Prop where
  totalPages : p'.totalPages = p.totalPages
  allocated : ∀ j, p.Allocated j → p'.Allocated j
  reserves : p.Reserves → p'.Reserves

theorem SpacesInv.grow {v : Vmm} {roots : Set Word} {pmm : Pmm} (h : SpacesInv 4 v roots)
    (hgrows : Grows v.pmm pmm) : SpacesInv 4 { v with pmm } roots :=
  h.anti subset_rfl rfl rfl hgrows.totalPages (hgrows.reserves h.reserves)
    (fun _ _ _ _ _ ht => ht) fun p _ hall _ => hgrows.allocated p hall

theorem Grows.takeRun (p : Pmm) (i count : ℕ) : Grows p (pmmTakeRun p i count) where
  totalPages := rfl
  allocated := fun j hj => (pmmTakeRun_allocated p i count j).mpr (.inl hj)
  reserves := fun h => h.takeRun i count

/-! ### One phase -/

/-- From `v` to `v'` the frames `F` were allocated and mapped into the address space `r`, with
the tables it takes, and nothing else happened. -/
structure Fills (roots : Set Word) (r : Word) (v v' : Vmm) (F : Set ℕ) : Prop where
  inv : SpacesInv 4 v' roots
  hhdm : v'.hhdm = v.hhdm
  kernelPml4 : v'.kernelPml4 = v.kernelPml4
  totalPages : v'.pmm.totalPages = v.pmm.totalPages
  allocated : ∀ j, v'.pmm.Allocated j ↔ v.pmm.Allocated j ∨ j ∈ F ∨ j ∈ v'.tablePages r
  frames_fresh : ∀ f ∈ F, f < v.pmm.totalPages ∧ ¬ v.pmm.Allocated f ∧ f ∉ v'.tablePages r
  tables_fresh : ∀ j ∈ v'.tablePages r, j ∈ v.tablePages r ∨ ¬ v.pmm.Allocated j
  tables_mono : v.tablePages r ⊆ v'.tablePages r
  spares : Spares 4 roots ∅ v v'
  others : ∀ r' ∈ roots, r' ≠ r → ∀ ρ, TablePath 4 ρ → v'.walk r' ρ = v.walk r' ρ

section Phase

variable {v v' v'' : Vmm} {roots : Set Word} {r virt flags : Word} {F F' : Set ℕ}

/-- The pages of the tables depend on the walks to them only. -/
theorem tablePages_congr (hhdm : v'.hhdm = v.hhdm) (htotal : v'.pmm.totalPages = v.pmm.totalPages)
    (hwalk : ∀ ρ, TablePath 3 ρ → v'.walk r ρ = v.walk r ρ) :
    v'.tablePages r = v.tablePages r := by
  ext p
  simp only [Vmm.tablePages, Set.mem_ofPred_eq, htotal, Vmm.pageVirt_congr hhdm]
  refine and_congr_right fun _ => exists_congr fun ρ => and_congr_right fun hρ => ?_
  rw [hwalk ρ hρ]

/-- Where the address spaces are kept, nothing is filled in. -/
theorem Keeps.fills (h : Keeps roots v v') (hinv : SpacesInv 4 v roots) (hr : r ∈ roots) :
    Fills roots r v v' ∅ := by
  have hpages : v'.tablePages r = v.tablePages r :=
    tablePages_congr h.hhdm (by rw [h.pmm]) fun ρ hρ => h.walk r hr ρ (hρ.mono (by decide))
  refine ⟨h.inv, h.hhdm, h.kernelPml4, by rw [h.pmm], ?_, by simp, ?_, hpages.symm.subset,
    h.spares, ?_⟩
  · intro j
    rw [h.pmm, hpages]
    simp only [Set.mem_empty_iff_false, false_or]
    exact (or_iff_left_of_imp (hinv.allocated_of_tablePages hr)).symm
  · rw [hpages]
    exact fun j hj => .inl hj
  · exact fun r' hr' _ ρ hρ => h.walk r' hr' ρ hρ

theorem Fills.refl (hinv : SpacesInv 4 v roots) (hr : r ∈ roots) : Fills roots r v v ∅ :=
  (Keeps.refl hinv).fills hinv hr

theorem Fills.trans (h : Fills roots r v v' F) (h' : Fills roots r v' v'' F') :
    Fills roots r v v'' (F ∪ F') where
  inv := h'.inv
  hhdm := h'.hhdm.trans h.hhdm
  kernelPml4 := h'.kernelPml4.trans h.kernelPml4
  totalPages := h'.totalPages.trans h.totalPages
  allocated := fun j => by
    rw [h'.allocated, h.allocated, Set.mem_union]
    have hmono := @h'.tables_mono j
    tauto
  frames_fresh := by
    rintro f (hf | hf)
    · obtain ⟨hlt, hfree, hnot⟩ := h.frames_fresh f hf
      refine ⟨hlt, hfree, fun htable => ?_⟩
      -- the frame was allocated by then
      rcases h'.tables_fresh f htable with hold | hnew
      · exact hnot hold
      · exact hnew ((h.allocated f).mpr (.inr (.inl hf)))
    · obtain ⟨hlt, hfree, hnot⟩ := h'.frames_fresh f hf
      rw [h.totalPages] at hlt
      exact ⟨hlt, fun hall => hfree ((h.allocated f).mpr (.inl hall)), hnot⟩
  tables_fresh := by
    intro j hj
    rcases h'.tables_fresh j hj with hold | hfree
    · exact h.tables_fresh j hold
    · exact .inr fun hall => hfree ((h.allocated j).mpr (.inl hall))
  tables_mono := h.tables_mono.trans h'.tables_mono
  spares := by
    rw [← Set.union_empty ∅]
    exact h.spares.trans h'.spares
  others := fun r' hr' hne ρ hρ =>
    (h'.others r' hr' hne ρ hρ).trans (h.others r' hr' hne ρ hρ)

/-- A phase that is a loop: each turn takes frames or takes none. -/
theorem fills_foldlM {α : Type} {step : Vmm → α → Outcome Vmm} {P : α → Prop} (hr : r ∈ roots)
    {l : List α} (hstep : ∀ w x w', x ∈ l → SpacesInv 4 w roots → step w x = .ok w' →
      ∃ F, Fills roots r w w' F ∧ (F.Nonempty ↔ P x))
    (hinv : SpacesInv 4 v roots) (hok : l.foldlM step v = .ok v') :
    ∃ F, Fills roots r v v' F ∧ (F.Nonempty ↔ ∃ x ∈ l, P x) := by
  induction l generalizing v with
  | nil =>
    obtain rfl := Except.ok.inj hok
    exact ⟨∅, Fills.refl hinv hr, by simp⟩
  | cons x l ih =>
    rw [List.foldlM_cons] at hok
    obtain ⟨v₁, hx, hrest⟩ := Outcome.bind_eq_ok.mp hok
    obtain ⟨F, hfills, hF⟩ := hstep v x v₁ List.mem_cons_self hinv hx
    obtain ⟨F', hfills', hF'⟩ := ih (fun w y w' hy => hstep w y w' (List.mem_cons_of_mem x hy))
      hfills.inv hrest
    refine ⟨F ∪ F', hfills.trans hfills', ?_⟩
    rw [Set.union_nonempty, hF, hF', List.exists_mem_cons_iff]

/-- A page that is allocated, cleared or not, and mapped. -/
theorem fills_of_maps (h : SpacesInv 4 v roots) (hr : r ∈ roots) {f : ℕ} {pmm : Pmm}
    {mem : Word → Word} (hf : f < v.pmm.totalPages) (hfree : ¬ v.pmm.Allocated f)
    (hallocated : ∀ j, pmm.Allocated j ↔ j = f ∨ v.pmm.Allocated j)
    (htotal : pmm.totalPages = v.pmm.totalPages)
    (hwalk : ∀ r ∈ roots, ∀ ρ, TablePath 4 ρ → ({ v with pmm, mem } : Vmm).walk r ρ = v.walk r ρ)
    (hspares : Spares 4 roots ∅ v { v with pmm, mem })
    (hmaps : Maps roots r virt f { v with pmm, mem } v') : Fills roots r v v' {f} := by
  have htables : ({ v with pmm, mem } : Vmm).tablePages r = v.tablePages r :=
    tablePages_congr rfl htotal fun ρ hρ => hwalk r hr ρ (hρ.mono (by decide))
  have hmono : v.tablePages r ⊆ v'.tablePages r := by
    rintro p ⟨hp, ρ, hρ₃, ht⟩
    have hρ := hρ₃.mono (show 3 ≤ 4 by decide)
    refine ⟨?_, ρ, hρ₃, ?_⟩
    · rw [hmaps.totalPages]
      exact htotal ▸ hp
    · rw [Vmm.pageVirt_congr hmaps.hhdm]
      exact hmaps.tables_mono ρ _ hρ hρ₃.1 ((hwalk r hr ρ hρ).trans ht)
  -- a table is on a page that was free before the frame was taken
  have hfresh : ∀ j ∈ v'.tablePages r, j ∈ v.tablePages r ∨ ¬ v.pmm.Allocated j ∧ j ≠ f := by
    intro j hj
    rcases hmaps.fresh j hj with hold | hnew
    · exact .inl (htables ▸ hold)
    · have hnot : ¬ (j = f ∨ v.pmm.Allocated j) := fun hor => hnew ((hallocated j).mpr hor)
      exact .inr ⟨fun hall => hnot (.inr hall), fun heq => hnot (.inl heq)⟩
  refine ⟨hmaps.inv, hmaps.hhdm, hmaps.kernelPml4, hmaps.totalPages.trans htotal, ?_, ?_, ?_,
    hmono, ?_, ?_⟩
  · intro j
    rw [hmaps.allocated, show ({ v with pmm, mem } : Vmm).pmm.Allocated j ↔ _ from hallocated j,
      Set.mem_singleton_iff]
    tauto
  · rintro g rfl
    refine ⟨hf, hfree, fun htable => ?_⟩
    rcases hfresh g htable with hold | ⟨-, hne⟩
    · exact hfree (h.allocated_of_tablePages hr hold)
    · exact hne rfl
  · exact fun j hj => (hfresh j hj).imp_right And.left
  · refine Spares.of_free (Set.empty_union {f} ▸ hspares.trans hmaps.spares) ?_
    rintro g rfl
    exact ⟨hf, hfree⟩
  · exact fun r' hr' hne ρ hρ => (hmaps.others r' hr' hne ρ hρ).trans (hwalk r' hr' ρ hρ)

/-- Allocating a page, clearing it or not, and mapping it. -/
theorem fills_mapFrame (h : SpacesInv 4 v roots) (hr : r ∈ roots) (huser : UserHalf virt)
    (hpresent : flags &&& pagePresent = pagePresent) (hflags : flags &&& physicalAddrMask = 0)
    {pmm : Pmm} {page : Word} {mem : Word → Word} (halloc : pmmAllocPage v.pmm = (pmm, page))
    (hpage : page ≠ 0) (hmem : ∀ f, page = pageAddr f → ChangesWithin v {f} mem)
    (hok : vmmMapPage { v with pmm, mem } r virt page flags = .ok v') :
    ∃ f, page = pageAddr f ∧ Fills roots r v v' {f} ∧
      v'.walk r (pathOf virt) = some (v.pageVirt f) ∧
      ∀ ρ, TablePath 4 ρ → ρ.length = 4 → ρ ≠ pathOf virt → v'.walk r ρ = v.walk r ρ := by
  have hspec := pmmAllocPage_spec h.reserves
  rw [halloc] at hspec
  cases hspec with
  | null _ => exact absurd rfl hpage
  | page f hf hf0 hfree pmm hallocated htotal hreserves =>
    have hnot := h.free_notMem_nodes hf hfree
    -- neither the allocation nor the clearing touches the trees
    have hkeeps : Keeps roots v { v with mem } := by
      refine h.writes (hmem f rfl) ?_ ?_
      · rintro g rfl
        exact ⟨hf, fun hin => hnot (tables_subset_nodes h.depth v roots hin)⟩
      · rintro g rfl
        exact .inr hfree
    have hgrows : Grows v.pmm pmm := ⟨htotal, fun j hj => (hallocated j).mpr (.inr hj),
      fun _ => hreserves⟩
    have hinv : SpacesInv 4 { v with pmm, mem } roots := hkeeps.inv.grow hgrows
    have hkernel : v.pageVirt f ≠ v.kernelPml4 := by
      intro heq
      obtain ⟨q, hq, hall, hqk⟩ := h.kernel
      have hqf := Vmm.pageVirt_inj (h.lt_of_lt_totalPages hq) (h.lt_of_lt_totalPages hf)
        (hqk.symm.trans heq.symm)
      exact hfree (hqf ▸ hall)
    have hout : v.pageVirt f ∉ ({ v with pmm, mem } : Vmm).nodes 4 roots := by
      rintro ⟨r', hr', ρ, hρ, ht⟩
      exact hnot ⟨r', hr', ρ, hρ, (hkeeps.walk r' hr' ρ hρ).symm.trans ht⟩
    have hmaps := vmmMapPage_spec hinv hr huser (htotal ▸ hf) hf0 ((hallocated f).mpr (.inl rfl))
      hout hkernel hpresent hflags hok
    have hspares : Spares 4 roots ∅ v { v with pmm, mem } := by
      refine ⟨rfl, fun q hq hout => ?_, hkeeps.spares.mem, hkeeps.spares.upper⟩
      have hout' := hkeeps.spares.outside q hq hout
      exact ⟨hout.lt, fun hlt => (hallocated q).mpr (.inr (hout.allocated (htotal ▸ hlt))), hout'.notMem⟩
    refine ⟨f, rfl, fills_of_maps h hr hf hfree hallocated htotal hkeeps.walk hspares hmaps, ?_, ?_⟩
    · rcases hmaps.frames r hr _ (tablePath_pathOf huser) rfl with ⟨-, -, hnew⟩ | ⟨hne, -⟩
      · exact hnew
      · exact absurd ⟨rfl, rfl⟩ hne
    · intro ρ hρ hlen hne
      rcases hmaps.frames r hr ρ hρ hlen with ⟨-, heq, -⟩ | ⟨-, hold⟩
      · exact absurd heq hne
      · exact hold.trans (hkeeps.walk r hr ρ hρ)

end Phase

/-! ### Enough pages -/

/-- At least `n` pages are free. -/
def Pmm.Room (p : Pmm) (n : ℕ) : Prop :=
  n ≤ ((Finset.range p.totalPages).filter fun i => ¬ p.Allocated i).card

instance (p : Pmm) (n : ℕ) : Decidable (p.Room n) := inferInstanceAs (Decidable (_ ≤ _))

theorem Pmm.Room.mono {p : Pmm} {m n : ℕ} (h : p.Room n) (hmn : m ≤ n) : p.Room m := hmn.trans h

theorem Pmm.Room.findFree_ne_none {p : Pmm} {n : ℕ} (h : p.Room (n + 1)) : p.findFree ≠ none := by
  have hpos : 0 < ((Finset.range p.totalPages).filter fun i => ¬ p.Allocated i).card :=
    Nat.lt_of_lt_of_le (Nat.succ_pos n) h
  obtain ⟨i, hi⟩ := Finset.card_pos.mp hpos
  obtain ⟨hi, hfree⟩ := Finset.mem_filter.mp hi
  exact Pmm.findFree_ne_none (Finset.mem_range.mp hi) hfree

/-- With a free page, one is allocated, and one fewer is free. -/
theorem pmmAllocPage_room {p : Pmm} {n : ℕ} (hres : p.Reserves) (h : p.Room (n + 1)) :
    ∃ p' page, pmmAllocPage p = (p', page) ∧ page ≠ 0 ∧ p'.Reserves ∧ p'.Room n := by
  have hspec := pmmAllocPage_spec hres
  generalize hres' : pmmAllocPage p = result at hspec
  cases hspec with
  | null hfull => exact absurd hfull h.findFree_ne_none
  | page i hlt hpos hfree p' hallocated htotal hreserves =>
    refine ⟨p', pageAddr i, rfl, pageAddr_ne_zero
      ((hlt.trans_le hres.totalPages_le).trans (by decide)) hpos,
      hreserves, ?_⟩
    have hset : (Finset.range p'.totalPages).filter (fun j => ¬ p'.Allocated j) =
        ((Finset.range p.totalPages).filter fun j => ¬ p.Allocated j).erase i := by
      ext j
      simp only [Finset.mem_filter, Finset.mem_range, Finset.mem_erase, htotal, hallocated]
      tauto
    rw [Pmm.Room, hset, Finset.card_erase_of_mem (by simp [hlt, hfree])]
    exact Nat.le_sub_one_of_lt h

theorem nextTable_ok {v : Vmm} {n : ℕ} (hres : v.pmm.Reserves) (h : v.pmm.Room (n + 1))
    (t : Word) (i : ℕ) (message : String) :
    ∃ v' t', nextTable v t i message = .ok (v', t') ∧ v'.pmm.Reserves ∧ v'.pmm.Room n := by
  unfold nextTable
  cases v.nextLevel t i with
  | some t' => exact ⟨v, t', rfl, hres, h.mono n.le_succ⟩
  | none =>
    obtain ⟨p', page, halloc, hpage, hres', hroom⟩ := pmmAllocPage_room hres h
    simp only [halloc, if_neg hpage]
    exact ⟨_, _, rfl, hres', hroom⟩

/-- With three free pages a mapping succeeds. -/
theorem vmmMapPage_ok {v : Vmm} {n : ℕ} (hres : v.pmm.Reserves) (h : v.pmm.Room (n + 3))
    (pml4 virt phys flags : Word) :
    ∃ v', vmmMapPage v pml4 virt phys flags = .ok v' ∧ v'.pmm.Reserves ∧ v'.pmm.Room n := by
  obtain ⟨v₁, pdpt, h₁, hres₁, hroom₁⟩ := nextTable_ok (n := n + 2) hres h pml4 (pml4Index virt)
    "VMM: Out of memory for PDPT!"
  obtain ⟨v₂, pd, h₂, hres₂, hroom₂⟩ := nextTable_ok (n := n + 1) hres₁ hroom₁ pdpt
    (pdptIndex virt) "VMM: Out of memory for PD!"
  obtain ⟨v₃, pt, h₃, hres₃, hroom₃⟩ := nextTable_ok (n := n) hres₂ hroom₂ pd (pdIndex virt)
    "VMM: Out of memory for PT!"
  refine ⟨v₃.setEntry pt (ptIndex virt) (phys ||| flags), ?_, hres₃, hroom₃⟩
  exact Outcome.bind_eq_ok.mpr ⟨_, h₁, Outcome.bind_eq_ok.mpr ⟨_, h₂,
    Outcome.bind_eq_ok.mpr ⟨_, h₃, rfl⟩⟩⟩

/-- With a free page there is one for a new address space. -/
theorem vmmCreateAddressSpace_room {v : Vmm} {n : ℕ} (hres : v.pmm.Reserves)
    (h : v.pmm.Room (n + 1)) :
    (vmmCreateAddressSpace v).1.pmm.Reserves ∧ (vmmCreateAddressSpace v).1.pmm.Room n := by
  obtain ⟨p', page, halloc, -, hres', hroom⟩ := pmmAllocPage_room hres h
  unfold vmmCreateAddressSpace
  rw [halloc]
  dsimp only
  split_ifs <;> exact ⟨hres', hroom⟩

/-! ### A small machine -/

/-- A machine of 64 pages, of which page 0 and the kernel's top-level table are taken. -/
def smallVmm : Vmm where
  pmm := { bitmap := fun k => if k = 0 then 3 else 0
           totalPages := 64
           allocatedPages := 2
           lastFreePage := 0 }
  mem := fun _ => 0
  hhdm := 0xFFFF800000000000
  kernelPml4 := 0xFFFF800000001000

theorem smallVmm_inv {d : ℕ} (hd : 3 ≤ d) : SpacesInv d smallVmm ∅ where
  depth := hd
  reserves := ⟨by decide, by decide, by decide⟩
  hhdm := by decide
  fits := by decide
  forest := by simp [Forest]
  backed := by simp [RadixTree.nodes]
  kernel := ⟨1, by decide, by decide, by decide⟩
  kernel_notMem := by simp [RadixTree.nodes]

theorem smallVmm_room : smallVmm.pmm.Room 62 := by decide

end KyroOS.Memory

import KyroOS.Memory.AddressSpace

/-!
# Unmapping pages and destroying address spaces

`vmm_unmap_page` cuts a frame off an address space, and `vmm_destroy_address_space` frees
the pages of its tables. What neither maps nor adds a table keeps the invariant of the
address spaces, as long as it frees no page that is still in use.

## Main definitions

* `Cuts` — a frame was cut off
* `unmapAndFree` — the loop over the pages of a user stack

## Main results

* `SpacesInv.anti` — the common argument: no walk is new, and no page in use is freed
* `vmmUnmapPage_some`, `unmapAndFree_clears` — the frames that are returned and freed
* `vmmDestroyAddressSpace_frees` — exactly the pages of the tables are freed
* `SpacesInv.destroy` — the other address spaces are as before
-/

namespace KyroOS.Memory

open RadixTree

section Anti

variable {d : ℕ} {v v' : Vmm} {roots roots' : Set Word}

/-- Without a new walk there is no new node. -/
theorem nodes_anti (hsub : roots' ⊆ roots)
    (hwalk : ∀ r ∈ roots', ∀ ρ t, TablePath d ρ → v'.walk r ρ = some t → v.walk r ρ = some t) :
    v'.nodes d roots' ⊆ v.nodes d roots := by
  rintro t ⟨r, hr, ρ, hρ, ht⟩
  exact ⟨r, hsub hr, ρ, hρ, hwalk r hr ρ t hρ ht⟩

/-- What neither adds a walk nor frees a page in use keeps the address spaces. -/
theorem SpacesInv.anti (h : SpacesInv d v roots) (hsub : roots' ⊆ roots)
    (hhdm : v'.hhdm = v.hhdm) (hkernel : v'.kernelPml4 = v.kernelPml4)
    (htotal : v'.pmm.totalPages = v.pmm.totalPages) (hreserves : v'.pmm.Reserves)
    (hwalk : ∀ r ∈ roots', ∀ ρ t, TablePath d ρ → v'.walk r ρ = some t → v.walk r ρ = some t)
    (hkept : ∀ p, p < v.pmm.totalPages → v.pmm.Allocated p →
      v.pageVirt p ∈ v'.nodes d roots' ∨ v.kernelPml4 = v.pageVirt p → v'.pmm.Allocated p) :
    SpacesInv d v' roots' := by
  have hvirt : ∀ q, v'.pageVirt q = v.pageVirt q := by
    intro q
    rw [Vmm.pageVirt, Vmm.pageVirt, Vmm.physToVirt, Vmm.physToVirt, hhdm]
  have hnodes := nodes_anti hsub hwalk
  refine ⟨h.depth, hreserves, hhdm ▸ h.hhdm, hhdm ▸ htotal ▸ h.fits, ?_, ?_, ?_, ?_⟩
  · intro r hr r' hr' π π' t hπ hπ' ht ht'
    exact h.forest r (hsub hr) r' (hsub hr') π π' t hπ hπ' (hwalk r hr π t hπ ht)
      (hwalk r' hr' π' t hπ' ht')
  · intro t ht
    obtain ⟨p, hp, hp0, hall, rfl⟩ := h.backed t (hnodes ht)
    exact ⟨p, htotal ▸ hp, hp0, hkept p hp hall (.inl ht), (hvirt p).symm⟩
  · obtain ⟨p, hp, hall, heq⟩ := h.kernel
    exact ⟨p, htotal ▸ hp, hkept p hp hall (.inr heq), hkernel.trans (heq.trans (hvirt p).symm)⟩
  · rw [hkernel]
    exact fun hmem => h.kernel_notMem (hnodes hmem)

/-- Pages outside the address spaces may be freed. -/
theorem SpacesInv.frees (h : SpacesInv d v roots) (hsub : roots' ⊆ roots) {S : Set ℕ} {pmm : Pmm}
    (hfrees : Frees v.pmm S pmm)
    (hout : ∀ p ∈ S, p ≠ 0 ∧ v.pageVirt p ∉ v.nodes d roots' ∧ v.kernelPml4 ≠ v.pageVirt p) :
    SpacesInv d { v with pmm } roots' := by
  refine h.anti hsub rfl rfl hfrees.totalPages ?_ (fun _ _ _ _ _ ht => ht) ?_
  · exact hfrees.reserves h.reserves fun hmem => (hout 0 hmem).1 rfl
  · intro p hp hall hin
    refine (hfrees.allocated p).mpr ⟨hall, fun hmem => ?_⟩
    obtain ⟨-, hnode, hkernel⟩ := hout p hmem.1
    exact hin.elim hnode hkernel

end Anti

/-! ### Unmapping a page -/

/-- From `v` to `v'` the frame at the address `virt` of the address space `r` was cut off. -/
structure Cuts (roots : Set Word) (r virt : Word) (v v' : Vmm) : Prop where
  inv : SpacesInv 4 v' roots
  hhdm : v'.hhdm = v.hhdm
  kernelPml4 : v'.kernelPml4 = v.kernelPml4
  pmm : v'.pmm = v.pmm
  walk : ∀ r' ∈ roots, ∀ ρ, TablePath 4 ρ →
    r' = r ∧ ρ = pathOf virt ∧ v'.walk r' ρ = none ∨
      ¬ (r' = r ∧ ρ = pathOf virt) ∧ v'.walk r' ρ = v.walk r' ρ
  spares : Spares 4 roots ∅ v v'

section Unmap

variable {v v' : Vmm} {roots : Set Word} {r t virt : Word} {f : ℕ}

/-- The table that covers an address is at the first three indices of its path. -/
theorem findTable_eq_walk (v : Vmm) (r virt : Word) :
    findTable v r virt = v.walk r [pml4Index virt, pdptIndex virt, pdIndex virt] := by
  simp only [findTable, Vmm.walk, RadixTree.walk, Option.bind_fun_some]
  rfl

theorem walk_pathOf (v : Vmm) (r virt : Word) :
    v.walk r (pathOf virt) =
      (findTable v r virt).bind fun pt => v.nextLevel pt (ptIndex virt) := by
  rw [findTable_eq_walk]
  exact walk_concat [pml4Index virt, pdptIndex virt, pdIndex virt] (ptIndex virt)

/-- Where nothing is mapped, nothing is unmapped. -/
theorem vmmUnmapPage_none (h : v.walk r (pathOf virt) = none) :
    vmmUnmapPage v r virt = (v, 0) := by
  rw [walk_pathOf] at h
  unfold vmmUnmapPage
  cases htable : findTable v r virt with
  | none => rfl
  | some pt =>
    rw [htable, Option.bind_some, Vmm.nextLevel] at h
    have habsent : v.entry pt (ptIndex virt) &&& pagePresent = 0 := by
      by_contra hpresent
      rw [if_neg hpresent] at h
      cases h
    simp only [habsent, if_true]

/-- The frame that is mapped is cut off, and its physical address returned. -/
theorem vmmUnmapPage_some (h : SpacesInv 4 v roots) (hr : r ∈ roots) (huser : UserHalf virt)
    (hf : v.walk r (pathOf virt) = some (v.pageVirt f)) :
    ∃ v', vmmUnmapPage v r virt = (v', pageAddr f) ∧ Cuts roots r virt v v' := by
  have hpath := tablePath_pathOf huser
  have hwalk := hf
  rw [walk_pathOf, Option.bind_eq_some_iff] at hwalk
  obtain ⟨pt, htable, hnext⟩ := hwalk
  have hpt : v.walk r [pml4Index virt, pdptIndex virt, pdIndex virt] = some pt := by
    rw [← findTable_eq_walk, htable]
  have hp₃ : TablePath 4 [pml4Index virt, pdptIndex virt, pdIndex virt] :=
    TablePath.closed _ (ptIndex virt) hpath
  -- the entry is present and holds the address of the frame
  obtain ⟨hpresent, haddr⟩ : v.entry pt (ptIndex virt) &&& pagePresent ≠ 0 ∧
      v.entry pt (ptIndex virt) &&& physicalAddrMask = pageAddr f := by
    rw [Vmm.nextLevel] at hnext
    split_ifs at hnext with habsent
    refine ⟨habsent, ?_⟩
    have hvirt := congrArg v.virtToPhys (Option.some.inj hnext)
    rwa [Vmm.virtToPhys_pageVirt, Vmm.virtToPhys, Vmm.physToVirt, BitVec.add_sub_cancel] at hvirt
  refine ⟨v.setEntry pt (ptIndex virt) 0, ?_, ?_⟩
  · simp only [vmmUnmapPage, htable, if_neg hpresent, haddr]
  have hcut : CutStep v.nextLevel (v.setEntry pt (ptIndex virt) 0).nextLevel (TablePath 4) roots r
      [pml4Index virt, pdptIndex virt, pdIndex virt] (ptIndex virt) := by
    refine ⟨h.forest, hr, hpath, ?_, pt, hpt, ?_, ?_⟩
    · intro j hj
      have := hj.1
      simp at this
    · rw [Vmm.nextLevel, Vmm.entry_setEntry_self]
      rfl
    · intro r' hr' ρ j t' hρ ht' hne
      obtain ⟨q', hq', -, -, rfl⟩ := h.backed t' (SpacesInv.mem_nodes hr' hρ.of_concat ht')
      obtain ⟨q, hq, -, -, rfl⟩ := h.backed pt (SpacesInv.mem_nodes hr hp₃ hpt)
      have hold := Vmm.entry_setEntry_of_ne (v := v) (h.lt_of_lt_totalPages hq)
        (h.lt_of_lt_totalPages hq') (show ptIndex virt < 512 from and_0x1FF_lt _) hρ.index_lt
        (fun heq => hne (by rw [heq.1, heq.2])) 0
      rw [Vmm.nextLevel, hold]
      rfl
  have hwalks := fun r' (hr' : r' ∈ roots) ρ hρ => hcut.walk_eq TablePath.closed hr' ρ hρ
  have hanti := fun r' (hr' : r' ∈ roots) ρ t' hρ ht' =>
    hcut.walk_anti TablePath.closed (ρ := ρ) (t := t') hr' hρ ht'
  refine ⟨?_, rfl, rfl, rfl, hwalks, ?_⟩
  · exact h.anti subset_rfl rfl rfl rfl h.reserves hanti fun p _ hall _ => hall
  · refine h.spares_setEntry hr hpt hpath 0 fun q _ hq => ⟨hq.lt, hq.allocated, ?_⟩
    exact fun hmem => hq.notMem (nodes_anti subset_rfl hanti hmem)

end Unmap

/-! ### Unmapping and freeing a range of pages -/

/-- One turn of the loop that frees a user stack: the page is unmapped and, if there was
one, freed. -/
def unmapTurn (pml4 : Word) (v : Vmm) (virt : Word) : Vmm :=
  let (v, phys) := vmmUnmapPage v pml4 virt
  if phys = 0 then v else { v with pmm := pmmFreePage v.pmm phys }

/-- The loop that frees a user stack, in the reaper and in `thread_create_userspace`. -/
def unmapAndFree (v : Vmm) (pml4 : Word) (virts : List Word) : Vmm :=
  virts.foldl (unmapTurn pml4) v

/-- The frames mapped at the addresses `virts`. -/
def Vmm.framesAt (v : Vmm) (r : Word) (virts : List Word) : Set ℕ :=
  {f | f < v.pmm.totalPages ∧ ∃ virt ∈ virts, v.walk r (pathOf virt) = some (v.pageVirt f)}

/-- From `v` to `v'` the frames at the addresses `virts` of the address space `r` were cut
off and freed. -/
structure Clears (roots : Set Word) (r : Word) (virts : List Word) (v v' : Vmm) : Prop where
  inv : SpacesInv 4 v' roots
  hhdm : v'.hhdm = v.hhdm
  kernelPml4 : v'.kernelPml4 = v.kernelPml4
  frees : Frees v.pmm (v.framesAt r virts) v'.pmm
  walk : ∀ r' ∈ roots, ∀ ρ, TablePath 4 ρ →
    r' = r ∧ (∃ virt ∈ virts, ρ = pathOf virt) ∧ v'.walk r' ρ = none ∨
      ¬ (r' = r ∧ ∃ virt ∈ virts, ρ = pathOf virt) ∧ v'.walk r' ρ = v.walk r' ρ
  spares : Spares 4 roots ∅ v v'

section UnmapAndFree

variable {v v' v'' : Vmm} {roots : Set Word} {r virt : Word} {virts : List Word}

theorem Vmm.framesAt_nil (v : Vmm) (r : Word) : v.framesAt r [] = ∅ := by
  ext f
  simp [framesAt]

theorem Clears.refl (h : SpacesInv 4 v roots) : Clears roots r [] v v where
  inv := h
  hhdm := rfl
  kernelPml4 := rfl
  frees := v.framesAt_nil r ▸ Frees.refl v.pmm
  walk := fun _ _ _ _ => .inr ⟨by simp, rfl⟩
  spares := .refl v

/-- One turn clears one page. -/
theorem unmapTurn_clears (h : SpacesInv 4 v roots) (hr : r ∈ roots) (huser : UserHalf virt) :
    Clears roots r [virt] v (unmapTurn r v virt) := by
  have hpath := tablePath_pathOf huser
  cases hwalk : v.walk r (pathOf virt) with
  | none =>
    have hset : v.framesAt r [virt] = ∅ := by
      ext f
      simp [Vmm.framesAt, hwalk]
    have hturn : unmapTurn r v virt = v := by
      rw [unmapTurn, vmmUnmapPage_none hwalk]
      rfl
    rw [hturn]
    refine ⟨h, rfl, rfl, hset ▸ Frees.refl v.pmm, fun r' hr' ρ hρ => ?_, .refl v⟩
    by_cases hhere : r' = r ∧ ρ = pathOf virt
    · obtain ⟨rfl, rfl⟩ := hhere
      exact .inl ⟨rfl, ⟨virt, by simp, rfl⟩, hwalk⟩
    · exact .inr ⟨by simpa using hhere, rfl⟩
  | some t =>
    obtain ⟨f, hf, hf0, hall, rfl⟩ := h.backed t (SpacesInv.mem_nodes hr hpath hwalk)
    have hf' := h.lt_of_lt_totalPages hf
    obtain ⟨v₁, hunmap, hcut⟩ := vmmUnmapPage_some h hr huser hwalk
    have hturn : unmapTurn r v virt = { v₁ with pmm := pmmFreePage v₁.pmm (pageAddr f) } := by
      rw [unmapTurn, hunmap]
      exact if_neg (pageAddr_ne_zero (hf'.trans (by decide)) hf0)
    have hset : v.framesAt r [virt] = {f} := by
      ext g
      simp only [Vmm.framesAt, List.mem_singleton, exists_eq_left, hwalk, Option.some.injEq,
        Set.mem_ofPred_eq, Set.mem_singleton_iff]
      constructor
      · rintro ⟨hg, heq⟩
        exact (Vmm.pageVirt_inj hf' (h.lt_of_lt_totalPages hg) heq).symm
      · rintro rfl
        exact ⟨hf, rfl⟩
    have hfrees : Frees v₁.pmm {f} (pmmFreePage v₁.pmm (pageAddr f)) := by
      simpa [pageIndex_pageAddr (hf'.trans (by decide))] using Frees.freePage v₁.pmm (pageAddr f)
    have hvirt : v₁.pageVirt f = v.pageVirt f := by
      rw [Vmm.pageVirt, Vmm.pageVirt, Vmm.physToVirt, Vmm.physToVirt, hcut.hhdm]
    rw [hturn]
    refine ⟨?_, hcut.hhdm, hcut.kernelPml4, ?_, fun r' hr' ρ hρ => ?_, ?_⟩
    · refine hcut.inv.frees subset_rfl hfrees ?_
      rintro g rfl
      rw [hvirt, hcut.kernelPml4]
      refine ⟨hf0, ?_, fun hk => ?_⟩
      · -- the frame was at this path only, and there it was cut off
        rintro ⟨r', hr', ρ, hρ, ht⟩
        rcases hcut.walk r' hr' ρ hρ with ⟨-, -, hnone⟩ | ⟨hne, hold⟩
        · cases hnone.symm.trans ht
        · exact hne (h.forest r' hr' r hr ρ _ _ hρ hpath (hold.symm.trans ht) hwalk)
      · exact h.kernel_notMem (hk ▸ SpacesInv.mem_nodes hr hpath hwalk)
    · rw [hset]
      exact hcut.pmm ▸ hfrees
    · simp only [List.mem_singleton, exists_eq_left]
      exact hcut.walk r' hr' ρ hρ
    · refine ⟨hcut.hhdm, fun q hq hout => ?_, hcut.spares.mem, hcut.spares.upper⟩
      have hout' := hcut.spares.outside q hq hout
      refine ⟨hout.lt, fun hlt => ?_, hout'.notMem⟩
      have hqf : q ≠ f := by
        rintro rfl
        exact hout.notMem (SpacesInv.mem_nodes hr hpath hwalk)
      rw [pmmFreePage_totalPages] at hlt
      exact (hfrees.allocated q).mpr ⟨hout'.allocated hlt, fun hmem => hqf hmem.1⟩

theorem Clears.trans {virts' : List Word} (h : Clears roots r virts v v')
    (h' : Clears roots r virts' v' v'') (hr : r ∈ roots)
    (huser : ∀ virt ∈ virts', UserHalf virt) : Clears roots r (virts ++ virts') v v'' := by
  have hvirt : ∀ f, v'.pageVirt f = v.pageVirt f := by
    intro f
    rw [Vmm.pageVirt, Vmm.pageVirt, Vmm.physToVirt, Vmm.physToVirt, h.hhdm]
  -- what is mapped in `v'` at `virts'` is what the first part left
  have hset : v.framesAt r (virts ++ virts') = v.framesAt r virts ∪ v'.framesAt r virts' := by
    ext f
    simp only [Vmm.framesAt, List.mem_append, Set.mem_union, Set.mem_ofPred_eq, h.frees.totalPages,
      hvirt]
    constructor
    · rintro ⟨hf, virt, hmem, hw⟩
      by_cases hthere : ∃ virt' ∈ virts, pathOf virt = pathOf virt'
      · obtain ⟨virt', hmem', heq⟩ := hthere
        exact .inl ⟨hf, virt', hmem', heq ▸ hw⟩
      · have hmem' : virt ∈ virts' :=
          hmem.resolve_left fun hm => hthere ⟨virt, hm, rfl⟩
        refine .inr ⟨hf, virt, hmem', ?_⟩
        rcases h.walk r hr _ (tablePath_pathOf (huser virt hmem')) with ⟨-, hin, -⟩ | ⟨-, hold⟩
        · exact absurd hin hthere
        · exact hold.trans hw
    · rintro (⟨hf, virt, hmem, hw⟩ | ⟨hf, virt, hmem, hw⟩)
      · exact ⟨hf, virt, .inl hmem, hw⟩
      · refine ⟨hf, virt, .inr hmem, ?_⟩
        rcases h.walk r hr _ (tablePath_pathOf (huser virt hmem)) with ⟨-, -, hnone⟩ | ⟨-, hold⟩
        · cases hnone.symm.trans hw
        · exact hold.symm.trans hw
  refine ⟨h'.inv, h'.hhdm.trans h.hhdm, h'.kernelPml4.trans h.kernelPml4, ?_, ?_,
    Set.union_empty ∅ ▸ h.spares.trans h'.spares⟩
  · rw [hset]
    exact h.frees.trans h'.frees
  · intro r' hr' ρ hρ
    have hsplit : (∃ virt ∈ virts ++ virts', ρ = pathOf virt) ↔
        (∃ virt ∈ virts, ρ = pathOf virt) ∨ ∃ virt ∈ virts', ρ = pathOf virt := by
      simp only [List.mem_append, or_and_right, exists_or]
    rw [hsplit]
    rcases h.walk r' hr' ρ hρ with ⟨hrr, hin, hnone⟩ | ⟨hout, hold⟩ <;>
      rcases h'.walk r' hr' ρ hρ with ⟨hrr', hin', hnone'⟩ | ⟨hout', hold'⟩
    · exact .inl ⟨hrr, .inl hin, hnone'⟩
    · exact .inl ⟨hrr, .inl hin, hold'.trans hnone⟩
    · exact .inl ⟨hrr', .inr hin', hnone'⟩
    · exact .inr ⟨fun hboth => hboth.2.elim (fun hin => hout ⟨hboth.1, hin⟩)
        (fun hin => hout' ⟨hboth.1, hin⟩), hold'.trans hold⟩

/-- The loop clears all its pages. -/
theorem unmapAndFree_clears (h : SpacesInv 4 v roots) (hr : r ∈ roots)
    (huser : ∀ virt ∈ virts, UserHalf virt) :
    Clears roots r virts v (unmapAndFree v r virts) := by
  induction virts generalizing v with
  | nil => exact Clears.refl h
  | cons virt virts ih =>
    have hturn := unmapTurn_clears h hr (huser virt (by simp))
    have hrest := ih hturn.inv fun virt' hmem => huser virt' (by simp [hmem])
    exact hturn.trans hrest hr fun virt' hmem => huser virt' (by simp [hmem])

end UnmapAndFree

/-! ### Destroying an address space -/

section Destroy

variable {d : ℕ} {v : Vmm} {roots : Set Word} {r : Word}

/-- The address of a page that exists is not `NULL`. -/
theorem SpacesInv.pageVirt_ne_zero (h : SpacesInv d v roots) {p : ℕ} (hp : p < v.pmm.totalPages)
    (hp0 : p ≠ 0) : v.pageVirt p ≠ 0 := by
  intro hzero
  have hnat := congrArg BitVec.toNat hzero
  have haddr := pageAddr_toNat ((h.lt_of_lt_totalPages hp).trans (by decide))
  have hfits := h.fits
  rw [Vmm.pageVirt, Vmm.physToVirt, BitVec.toNat_add, haddr] at hnat
  unfold pageSize at *
  simp at hnat
  omega

/-- The page a table lies in. -/
def Vmm.pageOf (v : Vmm) (t : Word) : ℕ := pageIndex (v.virtToPhys t)

theorem Vmm.pageOf_pageVirt (v : Vmm) {p : ℕ} (hp : p < 2 ^ 40) : v.pageOf (v.pageVirt p) = p := by
  rw [pageOf, virtToPhys_pageVirt, pageIndex_pageAddr (hp.trans (by decide))]

/-- The part of the loops of `vmm_destroy_address_space` that they share: what the turns
free for the tables that the first `n` entries of `t` point to, and the page of `t`. -/
theorem frees_level {S : Word → Set ℕ} {f : Pmm → Word → Pmm}
    (hf : ∀ pmm t', Frees pmm (S t') (f pmm t')) (v : Vmm) (n : ℕ) (pmm : Pmm) (t : Word) :
    Frees pmm ({j | ∃ i < n, ∃ t', v.nextLevel t i = some t' ∧ j ∈ S t'} ∪ {v.pageOf t})
      (pmmFreePage ((List.range n).foldl (fun pmm i => match v.nextLevel t i with
        | some t' => f pmm t'
        | none => pmm) pmm) (v.virtToPhys t)) := by
  have hturn : ∀ pmm i, Frees pmm {j | ∃ t', v.nextLevel t i = some t' ∧ j ∈ S t'}
      (match v.nextLevel t i with
        | some t' => f pmm t'
        | none => pmm) := by
    intro pmm i
    cases v.nextLevel t i with
    | none => simpa using Frees.refl pmm
    | some t' => simpa using hf pmm t'
  have hloop := Frees.foldl hturn (List.range n) pmm
  simp only [List.mem_range, Set.mem_ofPred_eq] at hloop
  exact hloop.trans (Frees.freePage _ _)

theorem vmmDestroyAddressSpace_frees (h : SpacesInv d v roots) (hr : r ∈ roots) :
    ∃ pmm, vmmDestroyAddressSpace v r = { v with pmm } ∧ Frees v.pmm (v.tablePages r) pmm := by
  have hpt : ∀ pmm t, Frees pmm {v.pageOf t} (pmmFreePage pmm (v.virtToPhys t)) :=
    fun pmm t => Frees.freePage pmm _
  have hpd : ∀ pmm t, Frees pmm _ (freePd v pmm t) := frees_level hpt v 512
  have hpdpt : ∀ pmm t, Frees pmm _ (freePdpt v pmm t) := frees_level hpd v 512
  have hall := frees_level hpdpt v 256 v.pmm r
  -- a table at a path of the lower half is a page of the machine
  have hmem : ∀ π t, TablePath 3 π → v.walk r π = some t → v.pageOf t ∈ v.tablePages r := by
    intro π t hπ ht
    obtain ⟨p, hp, -, -, rfl⟩ := h.backed t (SpacesInv.mem_nodes hr (hπ.mono h.depth) ht)
    rw [v.pageOf_pageVirt (h.lt_of_lt_totalPages hp)]
    exact ⟨hp, π, hπ, ht⟩
  have hr0 : r ≠ 0 := by
    obtain ⟨p, hp, hp0, -, rfl⟩ := h.backed r (SpacesInv.mem_nodes hr TablePath.nil rfl)
    exact h.pageVirt_ne_zero hp hp0
  refine ⟨_, if_neg hr0, ?_⟩
  refine Frees.congr ?_ hall
  ext j
  constructor
  · rintro (⟨i, hi, pdpt, hpdpt, ⟨k, hk, pd, hpd, ⟨l, hl, pt, hpt, rfl⟩ | rfl⟩ | rfl⟩ | rfl)
    · exact hmem [i, k, l] pt (by simp [TablePath]; omega)
        (by simp [Vmm.walk, RadixTree.walk, hpdpt, hpd, hpt])
    · exact hmem [i, k] pd (by simp [TablePath]; omega)
        (by simp [Vmm.walk, RadixTree.walk, hpdpt, hpd])
    · exact hmem [i] pdpt (by simp [TablePath]; omega)
        (by simp [Vmm.walk, RadixTree.walk, hpdpt])
    · exact hmem [] r TablePath.nil rfl
  · rintro ⟨hj, π, ⟨hlen, hidx, hhead⟩, ht⟩
    have hj' : j = v.pageOf (v.pageVirt j) := (v.pageOf_pageVirt (h.lt_of_lt_totalPages hj)).symm
    -- a path of length 0, 1, 2 or 3
    rcases π with _ | ⟨i, _ | ⟨k, _ | ⟨l, _ | ⟨m, rest⟩⟩⟩⟩
    · exact .inr (hj'.trans (by rw [Option.some.inj ht]))
    · simp only [Vmm.walk, RadixTree.walk, Option.bind_fun_some] at ht
      exact .inl ⟨i, hhead i rfl, _, ht, .inr hj'⟩
    · simp only [Vmm.walk, RadixTree.walk, Option.bind_fun_some, Option.bind_eq_some_iff] at ht
      obtain ⟨pdpt, hpdpt, hpd⟩ := ht
      exact .inl ⟨i, hhead i rfl, pdpt, hpdpt, .inl ⟨k, hidx k (by simp), _, hpd, .inr hj'⟩⟩
    · simp only [Vmm.walk, RadixTree.walk, Option.bind_fun_some, Option.bind_eq_some_iff] at ht
      obtain ⟨pdpt, hpdpt, pd, hpd, hpt⟩ := ht
      exact .inl ⟨i, hhead i rfl, pdpt, hpdpt, .inl ⟨k, hidx k (by simp), pd, hpd,
        .inl ⟨l, hidx l (by simp), _, hpt, hj'⟩⟩⟩
    · simp only [List.length_cons] at hlen
      omega

/-- After an address space is destroyed, the others are as before. -/
theorem SpacesInv.destroy (h : SpacesInv d v roots) (hr : r ∈ roots) :
    ∃ pmm, vmmDestroyAddressSpace v r = { v with pmm } ∧ Frees v.pmm (v.tablePages r) pmm ∧
      SpacesInv d { v with pmm } (roots \ {r}) := by
  obtain ⟨pmm, heq, hfrees⟩ := vmmDestroyAddressSpace_frees h hr
  refine ⟨pmm, heq, hfrees, h.frees Set.sdiff_subset hfrees ?_⟩
  rintro p ⟨hp, π, hπ₃, hw⟩
  have hπ := hπ₃.mono h.depth
  obtain ⟨q, hq, hq0, -, hpq⟩ := h.backed _ (SpacesInv.mem_nodes hr hπ hw)
  have hp0 : p ≠ 0 := by
    rwa [Vmm.pageVirt_inj (h.lt_of_lt_totalPages hp) (h.lt_of_lt_totalPages hq) hpq]
  refine ⟨hp0, ?_, fun hk => h.kernel_notMem (hk ▸ SpacesInv.mem_nodes hr hπ hw)⟩
  rintro ⟨r', hr', π', hπ', hw'⟩
  exact hr'.2 (h.forest r hr r' hr'.1 π π' _ hπ hπ' hw hw').1.symm

end Destroy

end KyroOS.Memory

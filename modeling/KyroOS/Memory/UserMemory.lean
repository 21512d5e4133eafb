import KyroOS.Memory.Teardown

/-!
# New address spaces and writes to frames

`vmm_create_address_space` adds an empty tree to the address spaces. What is written into
frames, the segments and the argument strings of a program, changes no tree.

## Main definitions

* `ChangesWithin` — memory changes in some pages only
* `Keeps` — the address spaces are the same before and after
* `Creates` — an empty address space was added

## Main results

* `SpacesInv.writes` — a write outside the tables keeps the address spaces
* `vmmMemcpyToUserspace_keeps` — so does a copy to user addresses
* `vmmCreateAddressSpace_spec` — the new address space is empty and on a page of its own
-/

namespace KyroOS.Memory

open RadixTree

/-! ### Writes outside the tables -/

/-- Memory changes only in the pages `S`. -/
def ChangesWithin (v : Vmm) (S : Set ℕ) (mem : Word → Word) : Prop :=
  ∀ a, (∀ f ∈ S, pageSize ≤ (a - v.pageVirt f).toNat) → mem a = v.mem a

/-- The tables of the address spaces `roots`. -/
def Vmm.tables (v : Vmm) (roots : Set Word) : Set Word :=
  {t | ∃ r ∈ roots, ∃ π, TablePath 3 π ∧ v.walk r π = some t}

/-- From `v` to `v'` nothing happened to the address spaces `roots`, and no page was
allocated or freed. -/
structure Keeps (roots : Set Word) (v v' : Vmm) : Prop where
  inv : SpacesInv 4 v' roots
  hhdm : v'.hhdm = v.hhdm
  kernelPml4 : v'.kernelPml4 = v.kernelPml4
  pmm : v'.pmm = v.pmm
  walk : ∀ r ∈ roots, ∀ ρ, TablePath 4 ρ → v'.walk r ρ = v.walk r ρ
  spares : Spares 4 roots ∅ v v'

section Writes

variable {d : ℕ} {v v' v'' : Vmm} {roots : Set Word} {r : Word} {S : Set ℕ} {mem : Word → Word}

theorem Keeps.refl (h : SpacesInv 4 v roots) : Keeps roots v v :=
  ⟨h, rfl, rfl, rfl, fun _ _ _ _ => rfl, .refl v⟩

theorem Keeps.trans (h : Keeps roots v v') (h' : Keeps roots v' v'') : Keeps roots v v'' :=
  ⟨h'.inv, h'.hhdm.trans h.hhdm, h'.kernelPml4.trans h.kernelPml4, h'.pmm.trans h.pmm,
    fun r hr ρ hρ => (h'.walk r hr ρ hρ).trans (h.walk r hr ρ hρ),
    Set.union_empty ∅ ▸ h.spares.trans h'.spares⟩

/-- The entries of a page outside `S` are as before. -/
theorem entry_changesWithin (hmem : ChangesWithin v S mem) (hS : ∀ f ∈ S, f < 2 ^ 40) {p j : ℕ}
    (hp : p < 2 ^ 40) (hpS : p ∉ S) (hj : j < 512) :
    ({ v with mem } : Vmm).entry (v.pageVirt p) j = v.entry (v.pageVirt p) j := by
  refine hmem _ fun f hf => ?_
  have hx : (BitVec.ofNat 64 (8 * j)).toNat < pageSize := by
    rw [Vmm.toNat_entry hj, pageSize]
    omega
  rw [Vmm.entryAddr, Vmm.sub_pageVirt, ← not_lt, Vmm.dist_lt_pageSize hp (hS f hf) hx]
  rintro rfl
  exact hpS hf

/-- The children of the nodes of the trees are as before, when the tables are. -/
theorem nextLevel_changesWithin (h : SpacesInv d v roots) (hd : d ≤ 4)
    (hmem : ChangesWithin v S mem) (hS : ∀ f ∈ S, f < 2 ^ 40 ∧ v.pageVirt f ∉ v.tables roots)
    (hr : r ∈ roots) {π : List ℕ} {j : ℕ} {t : Word} (hπ : TablePath d (π ++ [j]))
    (ht : v.walk r π = some t) : ({ v with mem } : Vmm).nextLevel t j = v.nextLevel t j := by
  obtain ⟨p, hp, -, -, rfl⟩ := h.backed t (SpacesInv.mem_nodes hr hπ.of_concat ht)
  have hlen : π.length ≤ 3 := by
    have := hπ.1
    rw [List.length_append, List.length_singleton] at this
    omega
  have hpS : p ∉ S := fun hpS => (hS p hpS).2 ⟨r, hr, π, hπ.of_concat.short hlen, ht⟩
  have hentry := entry_changesWithin hmem (fun f hf => (hS f hf).1) (h.lt_of_lt_totalPages hp) hpS
    hπ.index_lt
  rw [Vmm.nextLevel, hentry]
  rfl

/-- What is written into frames and free pages does not change the address spaces. -/
theorem SpacesInv.writes (h : SpacesInv 4 v roots) (hmem : ChangesWithin v S mem)
    (hS : ∀ f ∈ S, f < v.pmm.totalPages ∧ v.pageVirt f ∉ v.tables roots)
    (huse : ∀ f ∈ S, v.pageVirt f ∈ v.nodes 4 roots ∨ ¬ v.pmm.Allocated f) :
    Keeps roots v { v with mem } := by
  have hS' : ∀ f ∈ S, f < 2 ^ 40 ∧ v.pageVirt f ∉ v.tables roots :=
    fun f hf => ⟨h.lt_of_lt_totalPages (hS f hf).1, (hS f hf).2⟩
  have hwalk : ∀ r ∈ roots, ∀ ρ, TablePath 4 ρ → ({ v with mem } : Vmm).walk r ρ = v.walk r ρ := by
    intro r hr ρ hρ
    refine walk_frame TablePath.closed hr ?_ hρ
    intro r' hr' π j t hπ ht
    exact nextLevel_changesWithin h le_rfl hmem hS' hr' hπ ht
  refine ⟨h.anti subset_rfl rfl rfl rfl h.reserves ?_ fun p _ hall _ => hall, rfl, rfl, rfl, hwalk,
    ⟨rfl, fun q _ hq => ⟨hq.lt, hq.allocated, ?_⟩, fun q _ hq a ha => ?_, fun r hr i hi hi' => ?_⟩⟩
  · exact fun r hr ρ t hρ ht => (hwalk r hr ρ hρ).symm.trans ht
  · rintro ⟨r, hr, ρ, hρ, ht⟩
    exact hq.notMem ⟨r, hr, ρ, hρ, (hwalk r hr ρ hρ).symm.trans ht⟩
  · -- a page outside is none of the pages that are written
    refine hmem a fun f hf => ?_
    by_contra hin
    obtain rfl := Vmm.page_unique hq.lt (hS' f hf).1 ha (not_le.mp hin)
    exact (huse q hf).elim hq.notMem fun hfree => hfree (hq.allocated (hS q hf).1)
  · obtain ⟨p, hp, -, -, rfl⟩ := h.backed r (SpacesInv.mem_nodes hr TablePath.nil rfl)
    refine entry_changesWithin hmem (fun f hf => (hS' f hf).1) (h.lt_of_lt_totalPages hp) ?_ hi'
    exact fun hpS => (hS p hpS).2 ⟨_, hr, [], TablePath.nil, rfl⟩

/-- A frame of the address spaces is not a table. -/
theorem SpacesInv.frame_notMem_tables (h : SpacesInv 4 v roots) (hr : r ∈ roots) {π : List ℕ}
    {t : Word} (hπ : TablePath 4 π) (hlen : π.length = 4) (ht : v.walk r π = some t) :
    t ∉ v.tables roots := by
  rintro ⟨r', hr', π', hπ', ht'⟩
  obtain ⟨-, rfl⟩ := h.forest r hr r' hr' π π' t hπ (hπ'.mono (by decide)) ht ht'
  exact absurd hπ'.1 (by omega)

/-- A page that is free is not a table. -/
theorem SpacesInv.free_notMem_nodes (h : SpacesInv d v roots) {p : ℕ} (hp : p < v.pmm.totalPages)
    (hfree : ¬ v.pmm.Allocated p) : v.pageVirt p ∉ v.nodes d roots := by
  intro hmem
  obtain ⟨q, hq, -, hall, heq⟩ := h.backed _ hmem
  rw [Vmm.pageVirt_inj (h.lt_of_lt_totalPages hp) (h.lt_of_lt_totalPages hq) heq] at hfree
  exact hfree hall

theorem tables_subset_nodes (hd : 3 ≤ d) (v : Vmm) (roots : Set Word) :
    v.tables roots ⊆ v.nodes d roots := by
  rintro t ⟨r, hr, π, hπ, ht⟩
  exact ⟨r, hr, π, hπ.mono hd, ht⟩

end Writes

/-! ### Copying to user addresses -/

theorem userHalf_of_lt {virt : Word} (h : virt.toNat < 2 ^ 47) : UserHalf virt := by
  have hshift : (virt >>> 39).toNat < 256 := by
    rw [BitVec.toNat_ushiftRight, Nat.shiftRight_eq_div_pow]
    omega
  rw [UserHalf, pml4Index, BitVec.toNat_and]
  exact Nat.and_le_left.trans_lt hshift

theorem cellOf_toNat (a : Word) : (cellOf a).toNat = a.toNat / 8 * 8 := toNat_and_not_low a 3

/-- `memcpy` changes the cells of its target only. -/
theorem memcpy_of_ne (bytes : List Byte) : ∀ (mem : Word → Word) (dst a : Word),
    (∀ k < bytes.length, a ≠ cellOf (dst + BitVec.ofNat 64 k)) → memcpy mem dst bytes a = mem a := by
  induction bytes with
  | nil => exact fun _ _ _ _ => rfl
  | cons b bytes ih =>
    intro mem dst a hne
    rw [memcpy, ih]
    · have hhead := hne 0 (by simp)
      rw [BitVec.add_zero] at hhead
      rw [storeByte, Function.update_of_ne hhead]
    · intro k hk
      have htail := hne (k + 1) (by simpa using hk)
      rwa [BitVec.add_assoc, show (1 : Word) + BitVec.ofNat 64 k = BitVec.ofNat 64 (k + 1) by
        rw [BitVec.add_comm, BitVec.ofNat_add]
        rfl]

section Copy

variable {d : ℕ} {v v' : Vmm} {roots : Set Word} {r virt : Word} {f : ℕ}

/-- The cell of a place in a page lies in the page. -/
theorem cell_in_page (halign : v.hhdm.toNat % pageSize = 0) (hf : f < 2 ^ 40) {x : Word}
    (hx : x.toNat < pageSize) : (cellOf (v.pageVirt f + x) - v.pageVirt f).toNat < pageSize := by
  have hcell := cellOf_toNat (v.pageVirt f + x)
  have hpage : (v.pageVirt f).toNat = (f * pageSize + v.hhdm.toNat) % 2 ^ 64 := by
    rw [Vmm.pageVirt, Vmm.physToVirt, BitVec.toNat_add, pageAddr_toNat (hf.trans (by decide))]
  rw [BitVec.toNat_add] at hcell
  rw [BitVec.toNat_sub]
  unfold pageSize at *
  omega

/-- `memcpy` within a page. -/
theorem changesWithin_memcpy (halign : v.hhdm.toNat % pageSize = 0) (hf : f < 2 ^ 40) (off : ℕ)
    (bytes : List Byte) (hlen : off + bytes.length ≤ pageSize) :
    ChangesWithin v {f} (memcpy v.mem (v.pageVirt f + BitVec.ofNat 64 off) bytes) := by
  intro a ha
  refine memcpy_of_ne bytes _ _ a fun k hk heq => ?_
  have hx : (BitVec.ofNat 64 (off + k)).toNat < pageSize := by
    rw [BitVec.toNat_ofNat]
    unfold pageSize at *
    omega
  have hin := cell_in_page halign hf hx
  rw [heq, BitVec.add_assoc, ← BitVec.ofNat_add] at ha
  exact absurd hin (not_lt.mpr (ha f rfl))

/-- Clearing a page. -/
theorem changesWithin_memsetZero (v : Vmm) (f : ℕ) :
    ChangesWithin v {f} (memsetZero v.mem (v.pageVirt f) pageSize) := by
  intro a ha
  exact if_neg (not_lt.mpr (ha f rfl))

/-- The translation of a mapped address. -/
theorem vmmGetPhysAddr_some (hf : v.walk r (pathOf virt) = some (v.pageVirt f)) :
    vmmGetPhysAddr v r virt = pageAddr f + (virt &&& 0xFFF) := by
  rw [walk_pathOf, Option.bind_eq_some_iff] at hf
  obtain ⟨pt, htable, hnext⟩ := hf
  rw [Vmm.nextLevel] at hnext
  split_ifs at hnext with habsent
  have hvirt := congrArg v.virtToPhys (Option.some.inj hnext)
  rw [Vmm.virtToPhys_pageVirt, Vmm.virtToPhys, Vmm.physToVirt, BitVec.add_sub_cancel] at hvirt
  simp only [vmmGetPhysAddr, htable, if_neg habsent, hvirt]

theorem vmmGetPhysAddr_none (h : v.walk r (pathOf virt) = none) : vmmGetPhysAddr v r virt = 0 := by
  rw [walk_pathOf] at h
  unfold vmmGetPhysAddr
  cases htable : findTable v r virt with
  | none => rfl
  | some pt =>
    rw [htable, Option.bind_some, Vmm.nextLevel] at h
    split_ifs at h with habsent
    simp only [habsent, if_true]

theorem and_0xFFF (virt : Word) : virt &&& 0xFFF = BitVec.ofNat 64 (virt.toNat % pageSize) := by
  refine BitVec.eq_of_toNat_eq ?_
  rw [BitVec.toNat_and, show (0xFFF : Word).toNat = 2 ^ 12 - 1 from rfl, Nat.and_two_pow_sub_one_eq_mod,
    BitVec.toNat_ofNat, pageSize]
  omega

/-- The frame that one turn of the copy writes to, and what it does to the trees. -/
theorem SpacesInv.memcpy_page (h : SpacesInv 4 v roots) (hr : r ∈ roots) (huser : UserHalf virt)
    (hwalk : v.walk r (pathOf virt) = some (v.pageVirt f)) (hf : f < v.pmm.totalPages)
    {bytes : List Byte} (hlen : virt.toNat % pageSize + bytes.length ≤ pageSize) :
    v.physToVirt (vmmGetPhysAddr v r virt) =
        v.pageVirt f + BitVec.ofNat 64 (virt.toNat % pageSize) ∧
      Keeps roots v { v with
        mem := memcpy v.mem (v.pageVirt f + BitVec.ofNat 64 (virt.toNat % pageSize)) bytes } := by
  have hpath := tablePath_pathOf huser
  refine ⟨?_, h.writes (changesWithin_memcpy h.hhdm (h.lt_of_lt_totalPages hf) _ _ hlen) ?_ ?_⟩
  · rw [vmmGetPhysAddr_some hwalk, and_0xFFF, Vmm.pageVirt, Vmm.physToVirt, Vmm.physToVirt,
      BitVec.add_assoc, BitVec.add_comm (BitVec.ofNat 64 _) v.hhdm, BitVec.add_assoc]
  · rintro g rfl
    exact ⟨hf, h.frame_notMem_tables hr hpath rfl hwalk⟩
  · rintro g rfl
    exact .inl (SpacesInv.mem_nodes hr hpath hwalk)

/-- One page after the other is copied to, and the trees stay as they are. -/
theorem memcpyLoop_keeps (hr : r ∈ roots) (turns : ℕ) : ∀ {v : Vmm} {virt : Word} {src : List Byte},
    SpacesInv 4 v roots → virt.toNat + src.length ≤ 2 ^ 47 →
      Keeps roots v (memcpyLoop v r turns virt src) := by
  induction turns with
  | zero => exact fun h _ => Keeps.refl h
  | succ turns ih =>
    intro v virt src h hlen
    rw [memcpyLoop]
    by_cases hsrc : src = []
    · rw [if_pos hsrc]
      exact Keeps.refl h
    rw [if_neg hsrc]
    have hpos : 0 < src.length := List.length_pos_iff.mpr hsrc
    have huser : UserHalf virt := userHalf_of_lt (by omega)
    dsimp only
    cases hwalk : v.walk r (pathOf virt) with
    | none =>
      rw [if_pos (vmmGetPhysAddr_none hwalk)]
      exact Keeps.refl h
    | some t =>
      obtain ⟨f, hf, -, -, rfl⟩ :=
        h.backed t (SpacesInv.mem_nodes hr (tablePath_pathOf huser) hwalk)
      by_cases hphys : vmmGetPhysAddr v r virt = 0
      · rw [if_pos hphys]
        exact Keeps.refl h
      rw [if_neg hphys]
      have hmod : virt.toNat % pageSize < pageSize := Nat.mod_lt _ (by decide)
      have htake : virt.toNat % pageSize +
          (src.take (pageSize - virt.toNat % pageSize)).length ≤ pageSize := by
        rw [List.length_take]
        omega
      obtain ⟨hdst, hkeeps⟩ := h.memcpy_page hr huser hwalk hf htake
      rw [hdst]
      refine hkeeps.trans ?_
      by_cases hmore : src.drop (pageSize - virt.toNat % pageSize) = []
      · -- nothing is left: the next turn returns at once
        rw [hmore]
        cases turns with
        | zero => exact Keeps.refl hkeeps.inv
        | succ n =>
          rw [memcpyLoop, if_pos rfl]
          exact Keeps.refl hkeeps.inv
      · refine ih hkeeps.inv ?_
        have hleft : 0 < (src.drop (pageSize - virt.toNat % pageSize)).length :=
          List.length_pos_iff.mpr hmore
        rw [List.length_drop] at hleft ⊢
        rw [BitVec.toNat_add, BitVec.toNat_ofNat]
        unfold pageSize at *
        omega

/-- A copy to user addresses keeps the address spaces. -/
theorem vmmMemcpyToUserspace_keeps (h : SpacesInv 4 v roots) (hr : r ∈ roots) {src : List Byte}
    (hlen : virt.toNat + src.length ≤ 2 ^ 47) :
    Keeps roots v (vmmMemcpyToUserspace v r virt src) :=
  memcpyLoop_keeps hr src.length h hlen

end Copy

/-! ### Creating an address space -/

/-- From `v` to `v'` the address space `r` was added: an empty one, on a page that was free. -/
structure Creates (d : ℕ) (roots : Set Word) (v : Vmm) (r : Word) (v' : Vmm) : Prop where
  inv : SpacesInv d v' (insert r roots)
  hhdm : v'.hhdm = v.hhdm
  kernelPml4 : v'.kernelPml4 = v.kernelPml4
  totalPages : v'.pmm.totalPages = v.pmm.totalPages
  fresh : r ∉ v.nodes d roots
  page : ∃ p, r = v.pageVirt p ∧ p < v.pmm.totalPages ∧ ¬ v.pmm.Allocated p ∧
    ∀ j, v'.pmm.Allocated j ↔ j = p ∨ v.pmm.Allocated j
  empty : ∀ ρ t, TablePath d ρ → v'.walk r ρ = some t → ρ = []
  walk : ∀ r' ∈ roots, ∀ ρ, TablePath d ρ → v'.walk r' ρ = v.walk r' ρ
  outside : ∀ q, v.Outside d roots q → v'.Outside d (insert r roots) q
  mem : ∀ q, v.Outside d roots q → ∀ a, (a - v.pageVirt q).toNat < pageSize → v'.mem a = v.mem a
  upper : ∀ r' ∈ roots, ∀ i, 256 ≤ i → i < 512 → v'.entry r' i = v.entry r' i
  kernelHalf : ∀ i, 256 ≤ i → i < 512 → v'.entry r i = v.entry v.kernelPml4 i

section Create

variable {d : ℕ} {v v' : Vmm} {roots : Set Word} {r : Word}

/-- What `vmm_create_address_space` does to memory when it does not return `NULL`: the lower half of
the page is cleared, and the upper half is that of the kernel's table. -/
theorem vmmCreateAddressSpace_mem (hcreate : vmmCreateAddressSpace v = (v', r)) (hr : r ≠ 0) :
    r = v.physToVirt (pmmAllocPage v.pmm).2 ∧
      v' = { v with pmm := (pmmAllocPage v.pmm).1, mem := v'.mem } ∧
      (∀ a, pageSize ≤ (a - r).toNat → v'.mem a = v.mem a) ∧
      (∀ i < 256, v'.entry r i = 0) ∧
      ∀ i, 256 ≤ i → i < 512 → 256 * 8 ≤ (Vmm.entryAddr v.kernelPml4 i - r).toNat →
        v'.entry r i = v.entry v.kernelPml4 i := by
  have hoff : ∀ (t : Word) i, i < 512 → (Vmm.entryAddr t i - t).toNat = 8 * i := by
    intro t i hi
    rw [Vmm.entryAddr, BitVec.add_comm, BitVec.add_sub_cancel, Vmm.toNat_entry hi]
  unfold vmmCreateAddressSpace at hcreate
  dsimp only at hcreate
  split_ifs at hcreate with hnull
  · exact absurd (Prod.mk.inj hcreate).2.symm hr
  obtain ⟨rfl, rfl⟩ := Prod.mk.inj hcreate
  refine ⟨rfl, rfl, fun a ha => ?_, fun i hi => ?_, fun i hi hlt hkernel => ?_⟩
  · unfold pageSize at ha
    dsimp only
    rw [if_neg (by omega)]
    exact if_neg (by omega)
  · have hat := hoff (v.physToVirt (pmmAllocPage v.pmm).2) i (by omega)
    rw [Vmm.entry]
    dsimp only
    rw [if_neg (by omega)]
    exact if_pos (by omega)
  · have hat := hoff (v.physToVirt (pmmAllocPage v.pmm).2) i hlt
    have hback : v.kernelPml4 + (Vmm.entryAddr (v.physToVirt (pmmAllocPage v.pmm).2) i -
        v.physToVirt (pmmAllocPage v.pmm).2) = Vmm.entryAddr v.kernelPml4 i := by
      rw [Vmm.entryAddr, Vmm.entryAddr, BitVec.add_comm (v.physToVirt _), BitVec.add_sub_cancel]
    rw [Vmm.entry]
    dsimp only
    rw [if_pos (by omega), hback]
    exact if_neg (by omega)

/-- `vmm_create_address_space` with a page to be had. -/
theorem vmmCreateAddressSpace_spec (h : SpacesInv d v roots) (hd : d ≤ 4)
    (hfree : v.pmm.findFree ≠ none) :
    ∃ r v', vmmCreateAddressSpace v = (v', r) ∧ r ≠ 0 ∧ Creates d roots v r v' := by
  obtain ⟨⟨v', r⟩, hcreate⟩ : ∃ result, vmmCreateAddressSpace v = result := ⟨_, rfl⟩
  have hspec := pmmAllocPage_spec h.reserves
  have hnull : r = v.physToVirt (pmmAllocPage v.pmm).2 := by
    unfold vmmCreateAddressSpace at hcreate
    dsimp only at hcreate
    split_ifs at hcreate with hzero
    · rw [← (Prod.mk.inj hcreate).2, hzero]
    · exact (Prod.mk.inj hcreate).2.symm
  have hmemory := vmmCreateAddressSpace_mem hcreate
  generalize pmmAllocPage v.pmm = result at hspec hnull hmemory
  cases hspec with
  | null hfull => exact absurd hfull hfree
  | page p hp hp0 hnot pmm hallocated htotal hreserves =>
    have hp' := h.lt_of_lt_totalPages hp
    have hne := h.pageVirt_ne_zero hp hp0
    have hout := h.free_notMem_nodes hp hnot
    obtain rfl : r = v.pageVirt p := hnull
    obtain ⟨-, hv', hfar, hlower, hupper⟩ := hmemory hne
    refine ⟨v.pageVirt p, _, hcreate, hne, ?_⟩
    clear hcreate hmemory
    generalize v'.mem = mem at hv' hfar
    obtain rfl := hv'
    -- only the new page changes, and its lower half is cleared
    have hwithin : ChangesWithin v {p} mem := fun a ha => hfar a (ha p rfl)
    have hleaf : ∀ j, TablePath d [j] → ({ v with pmm, mem } : Vmm).nextLevel (v.pageVirt p) j = none := by
      intro j hj
      rw [Vmm.nextLevel, hlower j (hj.2.2 j rfl)]
      rfl
    have hS : ∀ f ∈ ({p} : Set ℕ), f < 2 ^ 40 ∧ v.pageVirt f ∉ v.tables roots := by
      rintro f rfl
      exact ⟨hp', fun hmem => hout (tables_subset_nodes h.depth v roots hmem)⟩
    have hsame : ∀ r ∈ roots, ∀ π j t, TablePath d (π ++ [j]) → v.walk r π = some t →
        ({ v with pmm, mem } : Vmm).nextLevel t j = v.nextLevel t j :=
      fun r' hr' π j t hπ ht => nextLevel_changesWithin h hd hwithin hS hr' hπ ht
    have hnodes := nodes_addRoot TablePath.closed hleaf hsame TablePath.nil
    refine ⟨⟨h.depth, hreserves, h.hhdm, htotal ▸ h.fits, ?_, ?_, ?_, ?_⟩, rfl, rfl, htotal, hout,
      ⟨p, rfl, hp, hnot, hallocated⟩, ?_, ?_, fun q hq => ⟨hq.lt, fun hlt => ?_, ?_⟩,
      fun q hq a ha => ?_, fun r' hr' i hi hi' => ?_, fun i hi hi' => ?_⟩
    · exact h.forest.addRoot TablePath.closed hout hleaf hsame
    · intro t ht
      rw [Vmm.nodes, hnodes] at ht
      rcases ht with rfl | ht
      · exact ⟨p, htotal ▸ hp, hp0, (hallocated p).mpr (.inl rfl), rfl⟩
      · obtain ⟨q, hq, hq0, hall, rfl⟩ := h.backed t ht
        exact ⟨q, htotal ▸ hq, hq0, (hallocated q).mpr (.inr hall), rfl⟩
    · obtain ⟨q, hq, hall, heq⟩ := h.kernel
      exact ⟨q, htotal ▸ hq, (hallocated q).mpr (.inr hall), heq⟩
    · rw [Vmm.nodes, hnodes]
      rintro (heq | hmem)
      · obtain ⟨q, hq, hall, hqk⟩ := h.kernel
        have hqp := Vmm.pageVirt_inj (h.lt_of_lt_totalPages hq) hp' (hqk.symm.trans heq)
        exact hnot (hqp ▸ hall)
      · exact h.kernel_notMem hmem
    · intro ρ t hρ ht
      exact (walk_leaf TablePath.closed hleaf hρ ht).1
    · intro r' hr' ρ hρ
      exact walk_frame TablePath.closed hr' hsame hρ
    · exact (hallocated q).mpr (.inr (hq.allocated (htotal ▸ hlt)))
    · rw [Vmm.nodes, hnodes]
      rintro (heq | hmem)
      · have hqp := Vmm.pageVirt_inj (v := v) hq.lt hp' heq
        exact hnot (hqp ▸ hq.allocated (hqp ▸ hp))
      · exact hq.notMem hmem
    · refine hwithin a fun f hf => ?_
      obtain rfl : f = p := hf
      by_contra hin
      obtain rfl := Vmm.page_unique hq.lt hp' ha (not_le.mp hin)
      exact hnot (hq.allocated hp)
    · obtain ⟨q, hq, -, hall, rfl⟩ := h.backed r' (SpacesInv.mem_nodes hr' TablePath.nil rfl)
      refine entry_changesWithin hwithin (fun f hf => (hS f hf).1) (h.lt_of_lt_totalPages hq) ?_ hi'
      rintro rfl
      exact hnot hall
    · -- the kernel's table is another page than the new one
      obtain ⟨k, hk, hallk, hkp⟩ := h.kernel
      have hk' := h.lt_of_lt_totalPages hk
      refine hupper i hi hi' (not_lt.mp fun hin => hnot ?_)
      have hink : (Vmm.entryAddr v.kernelPml4 i - v.pageVirt k).toNat < pageSize := by
        rw [hkp, Vmm.entryAddr, BitVec.add_comm, BitVec.add_sub_cancel, Vmm.toNat_entry hi', pageSize]
        omega
      have hinp : (Vmm.entryAddr v.kernelPml4 i - v.pageVirt p).toNat < pageSize :=
        hin.trans (by decide)
      exact Vmm.page_unique hk' hp' hink hinp ▸ hallk

end Create

end KyroOS.Memory

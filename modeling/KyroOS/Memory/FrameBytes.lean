import KyroOS.Memory.Translation

/-!
# The bytes of frames

A frame is a page outside of the page tables. What is written into it is read from it, and
mapping pages leaves it as it is.

## Main definitions

* `userByte` — the byte at a virtual address of an address space

## Main results

* `loadByte_memcpy` — a copy is read back
* `SpacesInv.write_outside` — a write outside of the tables changes no leaf
* `vmmMapPage_spares` — mapping a page writes to tables only
-/

namespace KyroOS.Memory

open RadixTree

/-- The byte at the virtual address `a`, if it is mapped. -/
def userByte (v : Vmm) (r a : Word) : Option Byte :=
  if vmmGetPhysAddr v r a = 0 then none
  else some (loadByte v.mem (v.physToVirt (vmmGetPhysAddr v r a)))

/-! ### Bytes in cells -/

section Bytes

variable {mem mem' : Word → Word} {a a' dst : Word} {b : Byte}

/-- A byte is read from its cell. -/
theorem loadByte_congr (h : mem' (cellOf a) = mem (cellOf a)) : loadByte mem' a = loadByte mem a := by
  rw [loadByte, h, loadByte]

theorem getLsbD_loadByte (mem : Word → Word) (a : Word) {i : ℕ} (hi : i < 8) :
    (loadByte mem a).getLsbD i = (mem (cellOf a)).getLsbD (bitOffset a + i) := by
  simp [loadByte, hi]

theorem getLsbD_byteMask : ∀ k < 64, (0xFF#64).getLsbD k = decide (k < 8) := by decide

/-- The bits of a cell after a byte of it was stored. -/
theorem getLsbD_storeByte (mem : Word → Word) (a : Word) (b : Byte) {j : ℕ} (hj : j < 64) :
    (storeByte mem a b (cellOf a)).getLsbD j =
      if bitOffset a ≤ j ∧ j < bitOffset a + 8 then b.getLsbD (j - bitOffset a)
      else (mem (cellOf a)).getLsbD j := by
  have hmask := getLsbD_byteMask (j - bitOffset a) (by omega)
  rw [storeByte, Function.update_self, BitVec.getLsbD_or, BitVec.getLsbD_and, BitVec.getLsbD_not,
    BitVec.getLsbD_shiftLeft, BitVec.getLsbD_shiftLeft, hmask, BitVec.getLsbD_setWidth]
  split_ifs with hin
  · have hlt : j - bitOffset a < 8 := by omega
    simp [hj, not_lt.mpr hin.1, hlt]
    omega
  · by_cases hle : bitOffset a ≤ j
    · have hge : ¬ j - bitOffset a < 8 := by omega
      have hbit : b.getLsbD (j - bitOffset a) = false := BitVec.getLsbD_of_ge _ _ (by omega)
      simp [hj, hge, hbit]
    · simp [hj, not_le.mp hle]

theorem bitOffset_le (a : Word) : bitOffset a + 8 ≤ 64 := by
  unfold bitOffset
  omega

theorem loadByte_storeByte_self (mem : Word → Word) (a : Word) (b : Byte) :
    loadByte (storeByte mem a b) a = b := by
  refine BitVec.eq_of_getLsbD_eq fun i hi => ?_
  have hle := bitOffset_le a
  rw [getLsbD_loadByte _ _ hi, getLsbD_storeByte mem a b (by omega), if_pos (by omega),
    Nat.add_sub_cancel_left]

/-- The other bytes stay as they are, also those of the same cell. -/
theorem loadByte_storeByte_of_ne (hne : a' ≠ a) :
    loadByte (storeByte mem a b) a' = loadByte mem a' := by
  by_cases hcell : cellOf a' = cellOf a
  · refine BitVec.eq_of_getLsbD_eq fun i hi => ?_
    have hle := bitOffset_le a'
    have hdiff : a'.toNat % 8 ≠ a.toNat % 8 := by
      intro hmod
      have hdiv := congrArg BitVec.toNat hcell
      rw [cellOf_toNat, cellOf_toNat] at hdiv
      exact hne (BitVec.eq_of_toNat_eq (by omega))
    rw [getLsbD_loadByte _ _ hi, getLsbD_loadByte _ _ hi, hcell,
      getLsbD_storeByte mem a b (by omega), if_neg]
    unfold bitOffset
    omega
  · exact loadByte_congr (Function.update_of_ne hcell _ _)

/-- A copy leaves the bytes outside of its target. -/
theorem loadByte_memcpy_of_ne (bytes : List Byte) : ∀ (mem : Word → Word) (dst : Word),
    (∀ k < bytes.length, a ≠ dst + BitVec.ofNat 64 k) →
      loadByte (memcpy mem dst bytes) a = loadByte mem a := by
  induction bytes with
  | nil => exact fun _ _ _ => rfl
  | cons b bytes ih =>
    intro mem dst hne
    rw [memcpy, ih]
    · refine loadByte_storeByte_of_ne ?_
      have hhead := hne 0 (by simp)
      rwa [BitVec.add_zero] at hhead
    · intro k hk
      have htail := hne (k + 1) (by simpa using hk)
      rwa [BitVec.add_assoc, show (1 : Word) + BitVec.ofNat 64 k = BitVec.ofNat 64 (k + 1) by
        rw [BitVec.add_comm, BitVec.ofNat_add]
        rfl]

/-- A copy is read back. -/
theorem loadByte_memcpy (bytes : List Byte) : ∀ (mem : Word → Word) (dst : Word) {k : ℕ}
    (hk : k < bytes.length), bytes.length ≤ 2 ^ 64 →
      loadByte (memcpy mem dst bytes) (dst + BitVec.ofNat 64 k) = bytes.get ⟨k, hk⟩ := by
  induction bytes with
  | nil => exact fun _ _ k hk => absurd hk (Nat.not_lt_zero k)
  | cons b bytes ih =>
    intro mem dst k hk hlen
    rw [List.length_cons] at hk hlen
    have hnext : ∀ k, dst + 1 + BitVec.ofNat 64 k = dst + BitVec.ofNat 64 (k + 1) := by
      intro k
      rw [BitVec.add_assoc, Nat.add_comm, BitVec.ofNat_add]
      rfl
    cases k with
    | zero =>
      rw [memcpy, loadByte_memcpy_of_ne]
      · rw [BitVec.add_zero]
        exact loadByte_storeByte_self mem dst b
      · intro k hk' heq
        rw [hnext, BitVec.add_right_inj] at heq
        have hval := congrArg BitVec.toNat heq
        rw [BitVec.toNat_ofNat, BitVec.toNat_ofNat, Nat.mod_eq_of_lt (by omega)] at hval
        omega
    | succ k =>
      rw [memcpy, ← hnext]
      exact ih _ _ (by omega) (by omega)

end Bytes

/-! ### Writes outside of the tables -/

section Outside

variable {d : ℕ} {v v' : Vmm} {roots : Set Word} {r t virt phys flags : Word} {ρ : List ℕ}
  {f g l : ℕ} {mem : Word → Word}

/-- What is written into one page that is not a table changes no table and no leaf. -/
theorem SpacesInv.write_outside (h : SpacesInv 3 v roots) (hf : f < 2 ^ 40)
    (hnot : v.pageVirt f ∉ v.nodes 3 roots) (hmem : ChangesWithin v {f} mem) :
    SpacesInv 3 { v with mem } roots ∧
      (∀ r ∈ roots, ∀ ρ, TablePath 3 ρ → ({ v with mem } : Vmm).walk r ρ = v.walk r ρ) ∧
      ∀ r ∈ roots, ∀ ρ i, TablePath 3 ρ → i < 512 →
        ({ v with mem } : Vmm).leaf r ρ i = v.leaf r ρ i := by
  have hS : ∀ g ∈ ({f} : Set ℕ), g < 2 ^ 40 ∧ v.pageVirt g ∉ v.tables roots := by
    rintro g rfl
    exact ⟨hf, fun hin => hnot (tables_subset_nodes h.depth v roots hin)⟩
  have hwalk : ∀ r ∈ roots, ∀ ρ, TablePath 3 ρ →
      ({ v with mem } : Vmm).walk r ρ = v.walk r ρ := by
    intro r hr ρ hρ
    refine walk_frame TablePath.closed hr ?_ hρ
    intro r' hr' π j t hπ ht
    exact nextLevel_changesWithin h (by decide) hmem hS hr' hπ ht
  refine ⟨?_, hwalk, fun r hr ρ i hρ hi => ?_⟩
  · refine h.anti subset_rfl rfl rfl rfl h.reserves ?_ fun p _ hall _ => hall
    exact fun r hr ρ t hρ ht => (hwalk r hr ρ hρ).symm.trans ht
  · unfold Vmm.leaf
    rw [hwalk r hr ρ hρ]
    cases hw : v.walk r ρ with
    | none => rfl
    | some t =>
      have hin := SpacesInv.mem_nodes hr hρ hw
      obtain ⟨q, hq, -, -, rfl⟩ := h.backed t hin
      refine entry_changesWithin hmem (fun g hg => (hS g hg).1) (h.lt_of_lt_totalPages hq) ?_ hi
      rintro rfl
      exact hnot hin

/-- Pages outside stay outside where no table is new. -/
theorem Vmm.Outside.of_walk (hout : v.Outside d roots g) (hhdm : v'.hhdm = v.hhdm)
    (htotal : v'.pmm.totalPages = v.pmm.totalPages)
    (hall : ∀ p, v.pmm.Allocated p → v'.pmm.Allocated p)
    (hwalk : ∀ r ∈ roots, ∀ ρ, TablePath d ρ → v'.walk r ρ = v.walk r ρ) :
    v'.Outside d roots g := by
  refine ⟨hout.lt, fun hlt => hall g (hout.allocated (htotal ▸ hlt)), ?_⟩
  rintro ⟨r, hr, ρ, hρ, ht⟩
  rw [Vmm.pageVirt_congr hhdm] at ht
  exact hout.notMem ⟨r, hr, ρ, hρ, (hwalk r hr ρ hρ).symm.trans ht⟩

/-- The bytes of a page that is not written to. -/
theorem loadByte_page (halign : v.hhdm.toNat % pageSize = 0) (hg : g < 2 ^ 40) (mem : Word → Word)
    (hmem : ∀ a, (a - v.pageVirt g).toNat < pageSize → mem a = v.mem a) {o : ℕ}
    (ho : o < pageSize) : loadByte mem (v.pageVirt g + BitVec.ofNat 64 o) =
      loadByte v.mem (v.pageVirt g + BitVec.ofNat 64 o) := by
  refine loadByte_congr (hmem _ (cell_in_page halign hg ?_))
  rw [BitVec.toNat_ofNat]
  unfold pageSize at *
  omega

/-- A write to one page leaves the others. -/
theorem ChangesWithin.mem_of_ne (hmem : ChangesWithin v {f} mem) (hf : f < 2 ^ 40)
    (hg : g < 2 ^ 40) (hne : g ≠ f) {a : Word} (ha : (a - v.pageVirt g).toNat < pageSize) :
    mem a = v.mem a := by
  refine hmem a fun f' hf' => ?_
  obtain rfl : f' = f := hf'
  by_contra hin
  exact hne (Vmm.page_unique hg hf ha (not_le.mp hin))

/-- A cleared page has zero bytes. -/
theorem SpacesInv.loadByte_memsetZero (h : SpacesInv d v roots) (hf : f < 2 ^ 40) {o : ℕ}
    (ho : o < pageSize) : loadByte (memsetZero v.mem (v.pageVirt f) pageSize)
      (v.pageVirt f + BitVec.ofNat 64 o) = 0 := by
  have hin : (cellOf (v.pageVirt f + BitVec.ofNat 64 o) - v.pageVirt f).toNat < pageSize := by
    refine cell_in_page h.hhdm hf ?_
    rw [BitVec.toNat_ofNat]
    unfold pageSize at *
    omega
  rw [loadByte, memsetZero, if_pos hin]
  simp

/-- Writing an entry of a page table leaves the pages outside. -/
theorem SpacesInv.spares_setLeaf (h : SpacesInv 3 v roots) (hr : r ∈ roots) (hρ : TablePath 3 ρ)
    (hlen : ρ.length = 3) (hwalk : v.walk r ρ = some t) (hl : l < 512) (e : Word) :
    Spares 3 roots ∅ v (v.setEntry t l e) := by
  have hin := SpacesInv.mem_nodes hr hρ hwalk
  have hwalks : ∀ r' ∈ roots, ∀ ρ', TablePath 3 ρ' →
      (v.setEntry t l e).walk r' ρ' = v.walk r' ρ' :=
    fun r' hr' ρ' hρ' => h.walk_setLeaf hr hρ hlen hwalk hl e hr' hρ'
  obtain ⟨p, hp, -, -, rfl⟩ := h.backed t hin
  have hp' := h.lt_of_lt_totalPages hp
  refine ⟨rfl, fun q _ hq => hq.of_walk rfl rfl (fun _ hall => hall) hwalks, fun q _ hq a ha => ?_,
    fun r' hr' j _ hj => ?_⟩
  · have hne : p ≠ q := fun heq => hq.notMem (heq ▸ hin)
    exact Function.update_of_ne (SpacesInv.ne_entryAddr hp' hq.lt hne hl ha) _ _
  · obtain ⟨q, hq, -, -, rfl⟩ := h.backed r' (SpacesInv.mem_nodes hr' TablePath.nil rfl)
    refine Vmm.entry_setEntry_of_ne hp' (h.lt_of_lt_totalPages hq) hl hj ?_ e
    rintro ⟨rfl, -⟩
    -- the top-level table is no page table
    obtain ⟨-, rfl⟩ := h.forest _ hr' r hr [] ρ _ TablePath.nil hρ rfl hwalk
    cases hlen

/-- `vmm_map_page` leaves the pages outside of the tables. -/
theorem vmmMapPage_spares (h : SpacesInv 3 v roots) (hr : r ∈ roots) (huser : UserHalf virt)
    (hok : vmmMapPage v r virt phys flags = .ok v') :
    Spares 3 roots ∅ v v' ∧ v'.pmm.totalPages = v.pmm.totalPages := by
  have hp₃ := tablePath_tablePathOf huser
  have hp₂ : TablePath 3 [pml4Index virt, pdptIndex virt] := TablePath.closed _ (pdIndex virt) hp₃
  have hp₁ : TablePath 3 [pml4Index virt] := TablePath.closed _ (pdptIndex virt) hp₂
  unfold vmmMapPage at hok
  obtain ⟨⟨v₁, pdpt⟩, h₁, hok⟩ := Outcome.bind_eq_ok.mp hok
  obtain ⟨⟨v₂, pd⟩, h₂, hok⟩ := Outcome.bind_eq_ok.mp hok
  obtain ⟨⟨v₃, pt⟩, h₃, hok⟩ := Outcome.bind_eq_ok.mp hok
  obtain rfl := Except.ok.inj hok
  obtain ⟨hext₁, hwalk₁⟩ := nextTable_spec (π := []) h hr rfl hp₁ (by simp) h₁
  obtain ⟨hext₂, hwalk₂⟩ := nextTable_spec hext₁.inv hr hwalk₁ hp₂ (by simp) h₂
  obtain ⟨hext₃, hwalk₃⟩ := nextTable_spec hext₂.inv hr hwalk₂ hp₃ (by simp) h₃
  have hext := (hext₁.trans hext₂ hr).trans hext₃ hr
  refine ⟨?_, hext.totalPages⟩
  rw [← Set.union_empty ∅]
  exact hext.spares.trans
    (hext.inv.spares_setLeaf hr hp₃ rfl hwalk₃ (ptIndex_lt virt) (phys ||| flags))

end Outside

end KyroOS.Memory

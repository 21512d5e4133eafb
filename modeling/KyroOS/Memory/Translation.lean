import KyroOS.Memory.Filling

/-!
# Page tables as a finite map

The page tables of an address space are a radix tree of three levels, whose leaves are the
entries of the page tables. What the entries point to is of no concern here: the frames that
are mapped can be any pages, also one page many times.

## Main definitions

* `Vmm.leafEntry` — the entry of the page table for an address
* `PageOp` — a call of `vmm_map_page` or `vmm_unmap_page`
* `Mapping` — the finite map that the tables stand for
* `Refines` — the tables hold the map

## Main results

* `SpacesInv.setLeaf` — writing one leaf changes no other
* `translation_refines` — translations, frames and flags are those of the map
-/

namespace KyroOS.Memory

open RadixTree

/-! ### Leaves -/

/-- The path of the page table for an address. -/
def tablePathOf (virt : Word) : List ℕ := [pml4Index virt, pdptIndex virt, pdIndex virt]

/-- The entry of the page table for an address, 0 where there is no table. -/
def Vmm.leafEntry (v : Vmm) (r virt : Word) : Word := v.leaf r (tablePathOf virt) (ptIndex virt)

section Leaves

variable {v v' : Vmm} {roots : Set Word} {r r' t virt phys flags : Word} {ρ ρ' : List ℕ} {i l : ℕ}

theorem tablePath_tablePathOf (h : UserHalf virt) : TablePath 3 (tablePathOf virt) := by
  have hpath := (tablePath_pathOf h).of_concat (π := tablePathOf virt) (i := ptIndex virt)
  exact hpath.short (le_refl 3)

theorem ptIndex_lt (virt : Word) : ptIndex virt < 512 := and_0x1FF_lt _

/-- A walk reads the tables above the page tables only. -/
theorem SpacesInv.walk_setLeaf (h : SpacesInv 3 v roots) (hr : r ∈ roots) (hρ : TablePath 3 ρ)
    (hlen : ρ.length = 3) (hwalk : v.walk r ρ = some t) (hl : l < 512) (e : Word)
    (hr' : r' ∈ roots) (hρ' : TablePath 3 ρ') : (v.setEntry t l e).walk r' ρ' = v.walk r' ρ' := by
  obtain ⟨q, hq, -, -, rfl⟩ := h.backed t (SpacesInv.mem_nodes hr hρ hwalk)
  refine walk_frame TablePath.closed hr' ?_ hρ'
  intro r'' hr'' π j t' hπ ht'
  obtain ⟨p, hp, -, -, rfl⟩ := h.backed t' (SpacesInv.mem_nodes hr'' hπ.of_concat ht')
  have hne : p ≠ q := by
    rintro rfl
    obtain ⟨-, rfl⟩ := h.forest r'' hr'' r hr π ρ _ hπ.of_concat hρ ht' hwalk
    have hlong := hπ.1
    rw [List.length_append, List.length_singleton, hlen] at hlong
    omega
  have hold := Vmm.entry_setEntry_of_ne (v := v) (h.lt_of_lt_totalPages hq)
    (h.lt_of_lt_totalPages hp) hl hπ.index_lt (fun heq => hne heq.1) e
  rw [Vmm.nextLevel, hold]
  rfl

/-- An entry of a page table is written: the tables are as before, and so are the other
leaves. -/
theorem SpacesInv.setLeaf (h : SpacesInv 3 v roots) (hr : r ∈ roots) (hρ : TablePath 3 ρ)
    (hlen : ρ.length = 3) (hwalk : v.walk r ρ = some t) (hl : l < 512) (e : Word) :
    SpacesInv 3 (v.setEntry t l e) roots ∧ (v.setEntry t l e).leaf r ρ l = e ∧
      ∀ r' ∈ roots, ∀ ρ' i, TablePath 3 ρ' → ρ'.length = 3 → i < 512 →
        ¬ (r' = r ∧ ρ' = ρ ∧ i = l) → (v.setEntry t l e).leaf r' ρ' i = v.leaf r' ρ' i := by
  have hwalks : ∀ r' ∈ roots, ∀ ρ', TablePath 3 ρ' →
      (v.setEntry t l e).walk r' ρ' = v.walk r' ρ' :=
    fun r' hr' ρ' hρ' => h.walk_setLeaf hr hρ hlen hwalk hl e hr' hρ'
  obtain ⟨q, hq, -, -, rfl⟩ := h.backed t (SpacesInv.mem_nodes hr hρ hwalk)
  have hq' := h.lt_of_lt_totalPages hq
  refine ⟨?_, ?_, ?_⟩
  · refine h.anti subset_rfl rfl rfl rfl h.reserves ?_ fun p _ hall _ => hall
    intro r' hr' ρ' t' hρ' ht'
    rwa [hwalks r' hr' ρ' hρ'] at ht'
  · rw [Vmm.leaf, hwalks r hr ρ hρ, hwalk]
    exact Vmm.entry_setEntry_self v _ l e
  · intro r' hr' ρ' i hρ' hlen' hi hne
    unfold Vmm.leaf
    rw [hwalks r' hr' ρ' hρ']
    cases hw : v.walk r' ρ' with
    | none => rfl
    | some t' =>
      obtain ⟨p, hp, -, -, rfl⟩ := h.backed t' (SpacesInv.mem_nodes hr' hρ' hw)
      refine Vmm.entry_setEntry_of_ne hq' (h.lt_of_lt_totalPages hp) hl hi ?_ e
      rintro ⟨rfl, rfl⟩
      obtain ⟨hrr, hρρ⟩ := h.forest r' hr' r hr ρ' ρ _ hρ' hρ hw hwalk
      exact hne ⟨hrr, hρρ, rfl⟩

/-- `vmm_map_page` writes one leaf. -/
theorem vmmMapPage_leaf (h : SpacesInv 3 v roots) (hr : r ∈ roots) (huser : UserHalf virt)
    (hok : vmmMapPage v r virt phys flags = .ok v') :
    SpacesInv 3 v' roots ∧ v'.hhdm = v.hhdm ∧ v'.leafEntry r virt = phys ||| flags ∧
      ∀ r' ∈ roots, ∀ ρ i, TablePath 3 ρ → ρ.length = 3 → i < 512 →
        ¬ (r' = r ∧ ρ = tablePathOf virt ∧ i = ptIndex virt) → v'.leaf r' ρ i = v.leaf r' ρ i := by
  have hp₃ := tablePath_tablePathOf huser
  -- the three levels of tables, then the entry of the last one
  obtain ⟨v₃, pt, hext, hwalk₃, rfl⟩ := vmmMapPage_tables h hr huser hok
  obtain ⟨hinv, hnew, hold⟩ := hext.inv.setLeaf hr hp₃ rfl hwalk₃ (ptIndex_lt virt) (phys ||| flags)
  refine ⟨hinv, hext.hhdm, hnew, fun r' hr' ρ i hρ hlen hi hne => ?_⟩
  rw [hold r' hr' ρ i hρ hlen hi hne]
  exact hext.leaf r' hr' ρ i hρ hlen hi

theorem leafEntry_of_none (h : findTable v r virt = none) : v.leafEntry r virt = 0 := by
  rw [findTable_eq_walk] at h
  simp only [Vmm.leafEntry, Vmm.leaf, tablePathOf, h]

theorem leafEntry_of_some (h : findTable v r virt = some t) :
    v.leafEntry r virt = v.entry t (ptIndex virt) := by
  rw [findTable_eq_walk] at h
  simp only [Vmm.leafEntry, Vmm.leaf, tablePathOf, h]

/-- A translation reads the leaf. -/
theorem vmmGetPhysAddr_leaf (v : Vmm) (r virt : Word) : vmmGetPhysAddr v r virt =
    if v.leafEntry r virt &&& pagePresent = 0 then 0
    else (v.leafEntry r virt &&& physicalAddrMask) + (virt &&& 0xFFF) := by
  cases htable : findTable v r virt with
  | none =>
    rw [leafEntry_of_none htable, if_pos (by decide)]
    simp only [vmmGetPhysAddr, htable]
  | some pt =>
    rw [leafEntry_of_some htable]
    simp only [vmmGetPhysAddr, htable]

/-- `vmm_unmap_page` returns the frame of the leaf. -/
theorem vmmUnmapPage_frame (v : Vmm) (r virt : Word) : (vmmUnmapPage v r virt).2 =
    if v.leafEntry r virt &&& pagePresent = 0 then 0
    else v.leafEntry r virt &&& physicalAddrMask := by
  cases htable : findTable v r virt with
  | none =>
    rw [leafEntry_of_none htable, if_pos (by decide)]
    simp only [vmmUnmapPage, htable]
  | some pt =>
    rw [leafEntry_of_some htable]
    simp only [vmmUnmapPage, htable]
    split_ifs <;> rfl

/-- `vmm_unmap_page` clears the leaf, if it is present. -/
theorem vmmUnmapPage_leaf (h : SpacesInv 3 v roots) (hr : r ∈ roots) (huser : UserHalf virt) :
    SpacesInv 3 (vmmUnmapPage v r virt).1 roots ∧
      (vmmUnmapPage v r virt).1.leafEntry r virt =
        (if v.leafEntry r virt &&& pagePresent = 0 then v.leafEntry r virt else 0) ∧
      ∀ r' ∈ roots, ∀ ρ i, TablePath 3 ρ → ρ.length = 3 → i < 512 →
        ¬ (r' = r ∧ ρ = tablePathOf virt ∧ i = ptIndex virt) →
          (vmmUnmapPage v r virt).1.leaf r' ρ i = v.leaf r' ρ i := by
  cases htable : findTable v r virt with
  | none =>
    rw [leafEntry_of_none htable, if_pos (by decide)]
    simp only [vmmUnmapPage, htable]
    exact ⟨h, leafEntry_of_none htable, fun _ _ _ _ _ _ _ _ => trivial⟩
  | some pt =>
    have hentry := leafEntry_of_some htable
    have hwalk : v.walk r (tablePathOf virt) = some pt := (findTable_eq_walk v r virt).symm.trans htable
    simp only [vmmUnmapPage, htable, ← hentry]
    split_ifs with habsent
    · exact ⟨h, rfl, fun _ _ _ _ _ _ _ _ => rfl⟩
    · exact h.setLeaf hr (tablePath_tablePathOf huser) rfl hwalk (ptIndex_lt virt) 0

end Leaves

/-! ### The finite map -/

/-- What is mapped at each page: a physical address and flags. -/
abbrev Mapping := ℕ → Option (Word × Word)

/-- A call of `vmm_map_page` or `vmm_unmap_page`. -/
inductive PageOp
  | map (virt phys flags : Word)
  | unmap (virt : Word)

namespace PageOp

/-- The page that is mapped or unmapped. -/
def page : PageOp → ℕ
  | map virt _ _ => pageIndex virt
  | unmap virt => pageIndex virt

/-- The address is in the user half, the frame is aligned and has a 52-bit address, and the
flags have the present bit and none of the address bits. -/
def Valid : PageOp → Prop
  | map virt phys flags => virt.toNat < 2 ^ 47 ∧ phys.toNat % pageSize = 0 ∧ phys.toNat < 2 ^ 52 ∧
      flags &&& pagePresent = pagePresent ∧ flags &&& physicalAddrMask = 0
  | unmap virt => virt.toNat < 2 ^ 47

def run (r : Word) (v : Vmm) : PageOp → Outcome Vmm
  | map virt phys flags => vmmMapPage v r virt phys flags
  | unmap virt => .ok (vmmUnmapPage v r virt).1

/-- What a call does to the finite map. -/
def apply (m : Mapping) : PageOp → Mapping
  | map virt phys flags => Function.update m (pageIndex virt) (some (phys, flags))
  | unmap virt => Function.update m (pageIndex virt) none

end PageOp

/-- The leaf for what is mapped at a page. -/
def leafOf : Option (Word × Word) → Word
  | some (phys, flags) => phys ||| flags
  | none => 0

/-- The physical address `o` bytes into what is mapped at a page. -/
def translate (o : ℕ) : Option (Word × Word) → Word
  | some (phys, _) => phys + BitVec.ofNat 64 o
  | none => 0

/-- The tables of the address space `r` hold the map `m`, which has frames with 52-bit
addresses and flags with the present bit. -/
structure Refines (v : Vmm) (r : Word) (m : Mapping) : Prop where
  leaf : ∀ virt : Word, virt.toNat < 2 ^ 47 → v.leafEntry r virt = leafOf (m (pageIndex virt))
  valid : ∀ n phys flags, m n = some (phys, flags) → phys.toNat % pageSize = 0 ∧
    phys.toNat < 2 ^ 52 ∧ flags &&& pagePresent = pagePresent ∧ flags &&& physicalAddrMask = 0

section Map

variable {v v' : Vmm} {roots : Set Word} {r a b virt phys flags : Word} {m : Mapping} {op : PageOp}
  {o : Option (Word × Word)}

theorem toNat_index (virt : Word) (k : ℕ) :
    (virt >>> k &&& 0x1FF).toNat = virt.toNat / 2 ^ k % 512 := by
  rw [BitVec.toNat_and, show (0x1FF : Word).toNat = 2 ^ 9 - 1 from rfl,
    Nat.and_two_pow_sub_one_eq_mod, BitVec.toNat_ushiftRight, Nat.shiftRight_eq_div_pow]

/-- The indices split the address of the page without overlap. -/
theorem pageIndex_eq_iff (ha : a.toNat < 2 ^ 47) (hb : b.toNat < 2 ^ 47) :
    pageIndex a = pageIndex b ↔ tablePathOf a = tablePathOf b ∧ ptIndex a = ptIndex b := by
  simp only [tablePathOf, pml4Index, pdptIndex, pdIndex, ptIndex, toNat_index, List.cons.injEq,
    and_true, pageIndex, pageSize]
  omega

theorem Refines.leafEntry_of_ne (hm : Refines v r m) (hold : v'.leafEntry r a = v.leafEntry r a)
    (ha : a.toNat < 2 ^ 47) (hne : pageIndex a ≠ op.page) :
    v'.leafEntry r a = leafOf (op.apply m (pageIndex a)) := by
  rw [hold, hm.leaf a ha]
  cases op with
  | map virt phys flags => exact congrArg leafOf (Function.update_of_ne hne _ _).symm
  | unmap virt => exact congrArg leafOf (Function.update_of_ne hne _ _).symm

/-- A frame and its flags can be read off the leaf. -/
theorem leafOf_some (haligned : phys.toNat % pageSize = 0) (hphys : phys.toNat < 2 ^ 52)
    (hpresent : flags &&& pagePresent = pagePresent) (hflags : flags &&& physicalAddrMask = 0) :
    leafOf (some (phys, flags)) &&& pagePresent ≠ 0 ∧
      leafOf (some (phys, flags)) &&& physicalAddrMask = phys := by
  have hpage : phys = pageAddr (phys.toNat / pageSize) := by
    refine BitVec.eq_of_toNat_eq ?_
    rw [pageAddr_toNat (by unfold pageSize; omega)]
    unfold pageSize at *
    omega
  have hlt : phys.toNat / pageSize < 2 ^ 40 := by
    unfold pageSize
    omega
  constructor
  · intro hzero
    have hbit := congrArg (fun x => BitVec.getLsbD x 0) hzero
    have hflag := congrArg (fun x => BitVec.getLsbD x 0) hpresent
    simp only [leafOf, BitVec.getLsbD_and, BitVec.getLsbD_or] at hbit hflag
    simp [pagePresent] at hbit hflag
    simp [hflag] at hbit
  · rw [leafOf, hpage]
    exact pageAddr_or_and_mask hlt hflags

theorem leafEntry_congr (v : Vmm) (r : Word) (ha : a.toNat < 2 ^ 47) (hb : b.toNat < 2 ^ 47)
    (hab : pageIndex a = pageIndex b) : v.leafEntry r a = v.leafEntry r b := by
  obtain ⟨hpath, hindex⟩ := (pageIndex_eq_iff ha hb).mp hab
  rw [Vmm.leafEntry, hpath, hindex, Vmm.leafEntry]

/-- What writes the leaf of one address leaves those of the other pages. -/
theorem leafEntry_of_leaf (hr : r ∈ roots) (hb : b.toNat < 2 ^ 47)
    (hold : ∀ r' ∈ roots, ∀ ρ i, TablePath 3 ρ → ρ.length = 3 → i < 512 →
      ¬ (r' = r ∧ ρ = tablePathOf b ∧ i = ptIndex b) → v'.leaf r' ρ i = v.leaf r' ρ i)
    (ha : a.toNat < 2 ^ 47) (hne : pageIndex a ≠ pageIndex b) :
    v'.leafEntry r a = v.leafEntry r a := by
  refine hold r hr _ _ (tablePath_tablePathOf (userHalf_of_lt ha)) rfl (ptIndex_lt a) ?_
  rintro ⟨-, hpath, hindex⟩
  exact hne ((pageIndex_eq_iff ha hb).mpr ⟨hpath, hindex⟩)

/-- One call: the tables hold the new map, and the leaves of the other pages are as before. -/
theorem PageOp.run_refines (h : SpacesInv 3 v roots) (hr : r ∈ roots) (hm : Refines v r m)
    (hvalid : op.Valid) (hok : op.run r v = .ok v') :
    SpacesInv 3 v' roots ∧ Refines v' r (op.apply m) ∧
      ∀ a : Word, a.toNat < 2 ^ 47 → pageIndex a ≠ op.page →
        v'.leafEntry r a = v.leafEntry r a := by
  cases op with
  | map virt phys flags =>
    obtain ⟨hvirt, hframe⟩ := hvalid
    obtain ⟨hinv, -, hnew, hold⟩ := vmmMapPage_leaf h hr (userHalf_of_lt hvirt) hok
    have hothers := fun a ha hne => leafEntry_of_leaf (a := a) hr hvirt hold ha hne
    refine ⟨hinv, ⟨fun a ha => ?_, fun n phys' flags' hn => ?_⟩, hothers⟩
    · by_cases hpage : pageIndex a = pageIndex virt
      · rw [leafEntry_congr v' r ha hvirt hpage, hnew, PageOp.apply, hpage, Function.update_self]
        rfl
      · exact hm.leafEntry_of_ne (hothers a ha hpage) ha hpage
    · rw [PageOp.apply, Function.update_apply] at hn
      split_ifs at hn
      · obtain ⟨rfl, rfl⟩ := Prod.mk.inj (Option.some.inj hn)
        exact hframe
      · exact hm.valid n phys' flags' hn
  | unmap virt =>
    obtain rfl := Except.ok.inj hok
    obtain ⟨hinv, hnew, hold⟩ := vmmUnmapPage_leaf h hr (userHalf_of_lt hvalid)
    have hothers := fun a ha hne => leafEntry_of_leaf (a := a) hr hvalid hold ha hne
    refine ⟨hinv, ⟨fun a ha => ?_, fun n phys' flags' hn => ?_⟩, hothers⟩
    · by_cases hpage : pageIndex a = pageIndex virt
      · rw [leafEntry_congr _ r ha hvalid hpage, hnew, PageOp.apply, hpage, Function.update_self]
        -- a leaf without the present bit is an empty one
        split_ifs with habsent
        · cases hmapped : m (pageIndex virt) with
          | none => rw [hm.leaf virt hvalid, hmapped]
          | some frame =>
            obtain ⟨haligned, hphys, hpresent, hflags⟩ := hm.valid _ frame.1 frame.2 hmapped
            rw [hm.leaf virt hvalid, hmapped] at habsent
            exact absurd habsent (leafOf_some haligned hphys hpresent hflags).1
        · rfl
      · exact hm.leafEntry_of_ne (hothers a ha hpage) ha hpage
    · rw [PageOp.apply, Function.update_apply] at hn
      split_ifs at hn
      exact hm.valid n phys' flags' hn

/-- A sequence of calls. -/
theorem runs_refine (ops : List PageOp) (h : SpacesInv 3 v roots) (hr : r ∈ roots)
    (hm : Refines v r m) (hvalid : ∀ op ∈ ops, op.Valid)
    (hok : ops.foldlM (PageOp.run r) v = .ok v') :
    SpacesInv 3 v' roots ∧ Refines v' r (ops.foldl PageOp.apply m) := by
  induction ops generalizing v m with
  | nil =>
    obtain rfl := Except.ok.inj hok
    exact ⟨h, hm⟩
  | cons op ops ih =>
    rw [List.foldlM_cons] at hok
    obtain ⟨v₁, hop, hrest⟩ := Outcome.bind_eq_ok.mp hok
    obtain ⟨hinv, hrefines, -⟩ := PageOp.run_refines h hr hm (hvalid op List.mem_cons_self) hop
    exact ih hinv hrefines (fun op' hop' => hvalid op' (List.mem_cons_of_mem op hop')) hrest

/-- The translation of an address. -/
theorem Refines.getPhysAddr (hm : Refines v r m) (ha : a.toNat < 2 ^ 47) :
    vmmGetPhysAddr v r a = translate (a.toNat % pageSize) (m (pageIndex a)) := by
  rw [vmmGetPhysAddr_leaf, hm.leaf a ha, and_0xFFF]
  cases hmapped : m (pageIndex a) with
  | none => exact if_pos (by decide)
  | some frame =>
    obtain ⟨haligned, hphys, hpresent, hflags⟩ := hm.valid _ frame.1 frame.2 hmapped
    obtain ⟨hset, hframe⟩ := leafOf_some haligned hphys hpresent hflags
    rw [if_neg hset, hframe]
    rfl

/-- The frame that `vmm_unmap_page` returns. -/
theorem Refines.frame (hm : Refines v r m) (ha : a.toNat < 2 ^ 47) :
    (vmmUnmapPage v r a).2 = translate 0 (m (pageIndex a)) := by
  rw [vmmUnmapPage_frame, hm.leaf a ha]
  cases hmapped : m (pageIndex a) with
  | none => exact if_pos (by decide)
  | some frame =>
    obtain ⟨haligned, hphys, hpresent, hflags⟩ := hm.valid _ frame.1 frame.2 hmapped
    obtain ⟨hset, hframe⟩ := leafOf_some haligned hphys hpresent hflags
    rw [if_neg hset, hframe]
    exact (BitVec.add_zero _).symm

/-- A new address space holds the empty map. -/
theorem Creates.refines_empty {v₀ : Vmm} (h : Creates 3 roots v₀ r v) :
    Refines v r fun _ => none := by
  refine ⟨fun virt hvirt => ?_, fun _ _ _ hn => by cases hn⟩
  cases htable : findTable v r virt with
  | none => exact leafEntry_of_none htable
  | some pt =>
    -- there is no table but the top-level one
    rw [findTable_eq_walk] at htable
    have hnil := h.empty _ pt (tablePath_tablePathOf (userHalf_of_lt hvirt)) htable
    cases hnil

/-- The address space that `vmm_create_address_space` returns holds the empty map, and after
any sequence of calls the translations, leaves and returned frames are those of the finite
map; and a further call changes nothing at another page. -/
theorem translation_refines {v₀ : Vmm} (h : SpacesInv 3 v₀ roots) (hpage : v₀.pmm.findFree ≠ none)
    (hcreate : vmmCreateAddressSpace v₀ = (v, r)) (ops : List PageOp)
    (hvalid : ∀ op ∈ ops, op.Valid) (hok : ops.foldlM (PageOp.run r) v = .ok v') :
    (∀ a : Word, a.toNat < 2 ^ 47 → vmmGetPhysAddr v' r a =
      translate (a.toNat % pageSize) (ops.foldl PageOp.apply (fun _ => none) (pageIndex a))) ∧
    (∀ a : Word, a.toNat < 2 ^ 47 →
      v'.leafEntry r a = leafOf (ops.foldl PageOp.apply (fun _ => none) (pageIndex a))) ∧
    (∀ a : Word, a.toNat < 2 ^ 47 → (vmmUnmapPage v' r a).2 =
      translate 0 (ops.foldl PageOp.apply (fun _ => none) (pageIndex a))) ∧
    ∀ (op : PageOp) v'', op.Valid → op.run r v' = .ok v'' → ∀ a : Word, a.toNat < 2 ^ 47 →
      pageIndex a ≠ op.page → vmmGetPhysAddr v'' r a = vmmGetPhysAddr v' r a ∧
        v''.leafEntry r a = v'.leafEntry r a := by
  obtain ⟨r', w, hcreate', -, hcreates⟩ := vmmCreateAddressSpace_spec h (by decide) hpage
  obtain ⟨rfl, rfl⟩ := Prod.mk.inj (hcreate.symm.trans hcreate')
  have hr : r ∈ insert r roots := Set.mem_insert r roots
  obtain ⟨hinv, hm⟩ := runs_refine ops hcreates.inv hr hcreates.refines_empty hvalid hok
  refine ⟨fun a ha => hm.getPhysAddr ha, hm.leaf, fun a ha => hm.frame ha, ?_⟩
  intro op v'' hop hrun a ha hne
  obtain ⟨-, -, hold⟩ := PageOp.run_refines hinv hr hm hop hrun
  rw [vmmGetPhysAddr_leaf, vmmGetPhysAddr_leaf, hold a ha hne]
  exact ⟨rfl, rfl⟩

end Map

/-- A page is mapped in a new address space and translated. -/
theorem translation_refines_smallVmm : ∃ v r v', vmmCreateAddressSpace smallVmm = (v, r) ∧
    [PageOp.map 0x400000 0x5000 7].foldlM (PageOp.run r) v = .ok v' ∧
    vmmGetPhysAddr v' r 0x400123 = 0x5123 := by
  have hinv : SpacesInv 3 smallVmm ∅ := smallVmm_inv (by decide)
  obtain ⟨hres, hroom⟩ := vmmCreateAddressSpace_room hinv.reserves smallVmm_room
  obtain ⟨v', hok, -⟩ := vmmMapPage_ok (n := 58) hres hroom (vmmCreateAddressSpace smallVmm).2 0x400000
    0x5000 7
  have hrun : [PageOp.map 0x400000 0x5000 7].foldlM
      (PageOp.run (vmmCreateAddressSpace smallVmm).2) (vmmCreateAddressSpace smallVmm).1 = .ok v' := by
    rw [List.foldlM_cons]
    exact Outcome.bind_eq_ok.mpr ⟨v', hok, rfl⟩
  have hvalid : ∀ op ∈ [PageOp.map 0x400000 0x5000 7], op.Valid := by
    intro op hop
    obtain rfl := List.mem_singleton.mp hop
    exact ⟨by decide, by decide, by decide, by decide, by decide⟩
  refine ⟨_, _, v', rfl, hrun, ?_⟩
  obtain ⟨htranslate, -⟩ := translation_refines hinv (Pmm.Room.findFree_ne_none smallVmm_room) rfl _
    hvalid hrun
  rw [htranslate 0x400123 (by decide)]
  decide

end KyroOS.Memory

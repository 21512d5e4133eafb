import KyroOS.Lib.RadixTree
import KyroOS.Memory.Vmm

/-!
# Address spaces as a forest of page tables
-/

namespace KyroOS.Memory

open RadixTree

/-! ### Addresses of entries -/

namespace Vmm

/-- The address of a physical page in the direct map. -/
def pageVirt (v : Vmm) (p : ℕ) : Word := v.physToVirt (pageAddr p)

@[simp] theorem virtToPhys_pageVirt (v : Vmm) (p : ℕ) :
    v.virtToPhys (v.pageVirt p) = pageAddr p := by
  simp only [virtToPhys, pageVirt, physToVirt, BitVec.add_sub_cancel]

theorem pageVirt_congr {v v' : Vmm} (h : v'.hhdm = v.hhdm) (p : ℕ) :
    v'.pageVirt p = v.pageVirt p := by
  rw [pageVirt, pageVirt, physToVirt, physToVirt, h]

theorem pageVirt_inj {v : Vmm} {p q : ℕ} (hp : p < 2 ^ 40) (hq : q < 2 ^ 40)
    (h : v.pageVirt p = v.pageVirt q) : p = q := by
  refine pageAddr_inj (hp.trans (by decide)) (hq.trans (by decide)) ?_
  rw [← v.virtToPhys_pageVirt p, h, virtToPhys_pageVirt]

/-- The distance from a page to a place in another one, or in itself. -/
theorem sub_pageVirt (v : Vmm) (p q : ℕ) (x : Word) :
    v.pageVirt p + x - v.pageVirt q = pageAddr p + x - pageAddr q := by
  simp only [pageVirt, physToVirt]
  bv_omega

theorem toNat_entry {i : ℕ} (hi : i < 512) : (BitVec.ofNat 64 (8 * i)).toNat = 8 * i := by
  rw [BitVec.toNat_ofNat, Nat.mod_eq_of_lt (by omega)]

/-- The place `x` bytes into page `p` is within the first page after `q` only for
`p = q`. -/
theorem dist_lt_pageSize {p q : ℕ} (hp : p < 2 ^ 40) (hq : q < 2 ^ 40) {x : Word}
    (hx : x.toNat < pageSize) :
    (pageAddr p + x - pageAddr q).toNat < pageSize ↔ p = q := by
  have hpa := pageAddr_toNat (hp.trans (show 2 ^ 40 < 2 ^ 52 by decide))
  have hqa := pageAddr_toNat (hq.trans (show 2 ^ 40 < 2 ^ 52 by decide))
  constructor
  · intro h
    rw [BitVec.toNat_sub, BitVec.toNat_add, hpa, hqa] at h
    unfold pageSize at *
    omega
  · rintro rfl
    rwa [BitVec.add_comm, BitVec.add_sub_cancel]

/-- Pages do not overlap. -/
theorem page_unique {v : Vmm} {p q : ℕ} (hp : p < 2 ^ 40) (hq : q < 2 ^ 40) {a : Word}
    (hap : (a - v.pageVirt p).toNat < pageSize) (haq : (a - v.pageVirt q).toNat < pageSize) :
    p = q := by
  rw [← dist_lt_pageSize hp hq hap, ← v.sub_pageVirt]
  rwa [BitVec.add_comm, BitVec.sub_add_cancel]

theorem entryAddr_inj {v : Vmm} {p q i j : ℕ} (hp : p < 2 ^ 40) (hq : q < 2 ^ 40)
    (hi : i < 512) (hj : j < 512)
    (h : entryAddr (v.pageVirt p) i = entryAddr (v.pageVirt q) j) : p = q ∧ i = j := by
  have hni := toNat_entry hi
  have hnj := toNat_entry hj
  have hpq : p = q := by
    rw [← dist_lt_pageSize hp hq (x := BitVec.ofNat 64 (8 * i)) (by rw [hni, pageSize]; omega)]
    rw [← v.sub_pageVirt, ← entryAddr, h, entryAddr, v.sub_pageVirt]
    simp [hnj, pageSize]
    omega
  subst hpq
  refine ⟨rfl, ?_⟩
  have hoff : BitVec.ofNat 64 (8 * i) = BitVec.ofNat 64 (8 * j) := by
    simpa [entryAddr] using h
  have := congrArg BitVec.toNat hoff
  omega

end Vmm

/-! ### Entries -/

theorem mask_getLsbD : ∀ i < 64, physicalAddrMask.getLsbD i = decide (12 ≤ i ∧ i < 52) := by
  decide

theorem pageAddr_getLsbD {p i : ℕ} (hp : p < 2 ^ 40) (hbit : (pageAddr p).getLsbD i = true) :
    12 ≤ i ∧ i < 52 := by
  rw [pageAddr, BitVec.getLsbD_ofNat, Bool.and_eq_true] at hbit
  have h2 := hbit.2
  rw [show pageSize = 2 ^ 12 from rfl, Nat.testBit_mul_two_pow] at h2
  simp at h2
  refine ⟨h2.1, ?_⟩
  by_contra hge
  have hlt : p < 2 ^ (i - 12) := hp.trans_le (Nat.pow_le_pow_right (by decide) (by omega))
  simp [Nat.testBit_lt_two_pow hlt] at h2

/-- A page address with flags in the other bits points to the page. -/
theorem pageAddr_or_and_mask {p : ℕ} (hp : p < 2 ^ 40) {flags : Word}
    (hflags : flags &&& physicalAddrMask = 0) :
    (pageAddr p ||| flags) &&& physicalAddrMask = pageAddr p := by
  refine BitVec.eq_of_getLsbD_eq fun i hi => ?_
  have hf := congrArg (fun x => BitVec.getLsbD x i) hflags
  simp only [BitVec.getLsbD_and, BitVec.getLsbD_or, mask_getLsbD i hi] at hf ⊢
  by_cases hr : 12 ≤ i ∧ i < 52
  · simp [hr] at hf ⊢
    simp [hf]
  · have hbit : (pageAddr p).getLsbD i = false := by
      by_contra hne
      exact hr (pageAddr_getLsbD hp (by simpa using hne))
    simp [hr, hbit]

namespace Vmm

theorem entry_setEntry_self (v : Vmm) (t : Word) (i : ℕ) (e : Word) :
    (v.setEntry t i e).entry t i = e := by
  simp [entry, setEntry]

/-- Writing an entry changes no other entry of a table. -/
theorem entry_setEntry_of_ne {v : Vmm} {p q i j : ℕ} (hp : p < 2 ^ 40) (hq : q < 2 ^ 40)
    (hi : i < 512) (hj : j < 512) (hne : ¬ (q = p ∧ j = i)) (e : Word) :
    (v.setEntry (v.pageVirt p) i e).entry (v.pageVirt q) j = v.entry (v.pageVirt q) j := by
  have haddr : entryAddr (v.pageVirt q) j ≠ entryAddr (v.pageVirt p) i :=
    fun h => hne (entryAddr_inj hq hp hj hi h)
  simp [entry, setEntry, Function.update_of_ne haddr]

/-- An entry that holds a page address and the present bit. -/
theorem nextLevel_of_entry {v : Vmm} {t : Word} {i p : ℕ} (hp : p < 2 ^ 40) (flags : Word)
    (hpresent : flags &&& pagePresent = pagePresent) (hflags : flags &&& physicalAddrMask = 0)
    (he : v.entry t i = pageAddr p ||| flags) : v.nextLevel t i = some (v.pageVirt p) := by
  have hset : (pageAddr p ||| flags) &&& pagePresent ≠ 0 := by
    intro hzero
    have hbit := congrArg (fun x => BitVec.getLsbD x 0) hzero
    have hflag := congrArg (fun x => BitVec.getLsbD x 0) hpresent
    simp only [BitVec.getLsbD_and, BitVec.getLsbD_or] at hbit hflag
    simp [pagePresent] at hbit hflag
    simp [hflag] at hbit
  rw [nextLevel, he, if_neg hset, pageAddr_or_and_mask hp hflags, pageVirt]

/-- Clearing page `q` clears its entries and no others. -/
theorem entry_memsetZero {v : Vmm} {pmm : Pmm} {p q j : ℕ} (hp : p < 2 ^ 40)
    (hq : q < 2 ^ 40) (hj : j < 512) :
    ({ v with pmm, mem := memsetZero v.mem (v.pageVirt q) pageSize } : Vmm).entry
      (v.pageVirt p) j = if p = q then 0 else v.entry (v.pageVirt p) j := by
  have hx : (BitVec.ofNat 64 (8 * j)).toNat < pageSize := by
    rw [toNat_entry hj, pageSize]
    omega
  simp only [entry, memsetZero, entryAddr, sub_pageVirt, dist_lt_pageSize hp hq hx]

end Vmm

/-! ### Paths and trees -/

section Paths

variable {d : ℕ}

/-- The paths of the lower half of at most `d` levels, with an index below 256 in the first.
A path of length four leads to a frame, a shorter one to a table. -/
def TablePath (d : ℕ) (π : List ℕ) : Prop :=
  π.length ≤ d ∧ (∀ i ∈ π, i < 512) ∧ ∀ i ∈ π.head?, i < 256

/-- The path of a virtual address. -/
def pathOf (virt : Word) : List ℕ := [pml4Index virt, pdptIndex virt, pdIndex virt, ptIndex virt]

/-- An address of the lower half of the address space. -/
def UserHalf (virt : Word) : Prop := pml4Index virt < 256

theorem TablePath.nil : TablePath d [] := by simp [TablePath]

theorem TablePath.of_concat {π : List ℕ} {i : ℕ} (h : TablePath d (π ++ [i])) : TablePath d π := by
  obtain ⟨hlen, hidx, hhead⟩ := h
  refine ⟨?_, fun j hj => hidx j (by simp [hj]), fun j hj => hhead j ?_⟩
  · rw [List.length_append] at hlen
    omega
  · cases π with
    | nil => simp at hj
    | cons k π => simpa using hj

theorem TablePath.closed (π : List ℕ) (i : ℕ) (h : TablePath d (π ++ [i])) : TablePath d π :=
  h.of_concat

theorem TablePath.index_lt {π : List ℕ} {i : ℕ} (h : TablePath d (π ++ [i])) : i < 512 :=
  h.2.1 i (by simp)

theorem and_0x1FF_lt (x : Word) : (x &&& 0x1FF).toNat < 512 := by
  rw [BitVec.toNat_and]
  exact Nat.and_le_right.trans_lt (by decide)

theorem TablePath.mono {d' : ℕ} (hd : d ≤ d') {π : List ℕ} (h : TablePath d π) : TablePath d' π :=
  ⟨h.1.trans hd, h.2⟩

theorem TablePath.short {π : List ℕ} (h : TablePath d π) (hlen : π.length ≤ 3) : TablePath 3 π :=
  ⟨hlen, h.2⟩

end Paths

theorem tablePath_pathOf {virt : Word} (h : UserHalf virt) : TablePath 4 (pathOf virt) := by
  refine ⟨by simp [pathOf], ?_, by simpa [pathOf, UserHalf] using h⟩
  simp only [pathOf, List.mem_cons, List.not_mem_nil, or_false, forall_eq_or_imp, forall_eq]
  exact ⟨and_0x1FF_lt _, and_0x1FF_lt _, and_0x1FF_lt _, and_0x1FF_lt _⟩

namespace Vmm

/-- The table or frame that a path leads to. -/
abbrev walk (v : Vmm) (r : Word) (π : List ℕ) : Option Word := RadixTree.walk v.nextLevel r π

/-- The tables and frames of the address spaces `roots`. -/
abbrev nodes (v : Vmm) (d : ℕ) (roots : Set Word) : Set Word :=
  RadixTree.nodes v.nextLevel (TablePath d) roots

/-- The pages of the tables of an address space. -/
def tablePages (v : Vmm) (r : Word) : Set ℕ :=
  {p | p < v.pmm.totalPages ∧ ∃ π, TablePath 3 π ∧ v.walk r π = some (v.pageVirt p)}

/-- The entry `i` of the page table at the path `ρ`; 0 where there is no such table. -/
def leaf (v : Vmm) (r : Word) (ρ : List ℕ) (i : ℕ) : Word :=
  match v.walk r ρ with
  | some t => v.entry t i
  | none => 0

end Vmm

/-- The address spaces `roots` down to `d` levels, three for the tables alone and four for
tables and frames: the nodes are different allocated pages, and not the kernel's top-level
table. -/
structure SpacesInv (d : ℕ) (v : Vmm) (roots : Set Word) : Prop where
  depth : 3 ≤ d
  reserves : v.pmm.Reserves
  hhdm : v.hhdm.toNat % pageSize = 0
  fits : v.hhdm.toNat + v.pmm.totalPages * pageSize ≤ 2 ^ 64
  forest : Forest v.nextLevel (TablePath d) roots
  backed : ∀ t ∈ v.nodes d roots, ∃ p, p < v.pmm.totalPages ∧ p ≠ 0 ∧ v.pmm.Allocated p ∧
    t = v.pageVirt p
  kernel : ∃ p, p < v.pmm.totalPages ∧ v.pmm.Allocated p ∧ v.kernelPml4 = v.pageVirt p
  kernel_notMem : v.kernelPml4 ∉ v.nodes d roots

/-- The page `q` is not free, and in none of the address spaces. -/
structure Vmm.Outside (v : Vmm) (d : ℕ) (roots : Set Word) (q : ℕ) : Prop where
  lt : q < 2 ^ 40
  allocated : q < v.pmm.totalPages → v.pmm.Allocated q
  notMem : v.pageVirt q ∉ v.nodes d roots

/-- From `v` to `v'` nothing was written outside the address spaces, the pages `F` excepted,
and nothing in the upper halves of the top-level tables. -/
structure Spares (d : ℕ) (roots : Set Word) (F : Set ℕ) (v v' : Vmm) : Prop where
  hhdm : v'.hhdm = v.hhdm
  outside : ∀ q ∉ F, v.Outside d roots q → v'.Outside d roots q
  mem : ∀ q ∉ F, v.Outside d roots q → ∀ a, (a - v.pageVirt q).toNat < pageSize →
    v'.mem a = v.mem a
  upper : ∀ r ∈ roots, ∀ i, 256 ≤ i → i < 512 → v'.entry r i = v.entry r i

/-- From `v` to `v'` tables were added to the address space `r`, each on a page that was
free, and nothing else happened to the address spaces. -/
structure Extends (d : ℕ) (roots : Set Word) (r : Word) (v v' : Vmm) : Prop where
  inv : SpacesInv d v' roots
  hhdm : v'.hhdm = v.hhdm
  kernelPml4 : v'.kernelPml4 = v.kernelPml4
  totalPages : v'.pmm.totalPages = v.pmm.totalPages
  walk_mono : ∀ r' ∈ roots, ∀ ρ t, TablePath d ρ → v.walk r' ρ = some t → v'.walk r' ρ = some t
  frames : ∀ r' ∈ roots, ∀ ρ, TablePath d ρ → ρ.length = 4 → v'.walk r' ρ = v.walk r' ρ
  leaf : ∀ r' ∈ roots, ∀ ρ i, TablePath 3 ρ → ρ.length = 3 → i < 512 →
    v'.leaf r' ρ i = v.leaf r' ρ i
  others : ∀ r' ∈ roots, r' ≠ r → ∀ ρ, TablePath d ρ → v'.walk r' ρ = v.walk r' ρ
  allocated : ∀ j, v'.pmm.Allocated j ↔ v.pmm.Allocated j ∨ j ∈ v'.tablePages r
  fresh : ∀ j ∈ v'.tablePages r, j ∈ v.tablePages r ∨ ¬ v.pmm.Allocated j
  spares : Spares d roots ∅ v v'

section Spares

variable {d : ℕ} {roots : Set Word} {F F' : Set ℕ} {v v' v'' : Vmm}

theorem Spares.refl (v : Vmm) : Spares d roots F v v :=
  ⟨rfl, fun _ _ h => h, fun _ _ _ _ _ => rfl, fun _ _ _ _ _ => rfl⟩

theorem Spares.trans (h : Spares d roots F v v') (h' : Spares d roots F' v' v'') :
    Spares d roots (F ∪ F') v v'' where
  hhdm := h'.hhdm.trans h.hhdm
  outside := fun q hq hout =>
    h'.outside q (fun hq' => hq (.inr hq')) (h.outside q (fun hq' => hq (.inl hq')) hout)
  mem := by
    intro q hq hout a ha
    have hF : q ∉ F := fun hq' => hq (.inl hq')
    have hF' : q ∉ F' := fun hq' => hq (.inr hq')
    have ha' : (a - v'.pageVirt q).toNat < pageSize := by rwa [Vmm.pageVirt_congr h.hhdm]
    rw [h'.mem q hF' (h.outside q hF hout) a ha', h.mem q hF hout a ha]
  upper := fun r hr i hi hi' => (h'.upper r hr i hi hi').trans (h.upper r hr i hi hi')

/-- The exception can be dropped for pages that were free. -/
theorem Spares.of_free (h : Spares d roots F v v')
    (hF : ∀ f ∈ F, f < v.pmm.totalPages ∧ ¬ v.pmm.Allocated f) : Spares d roots ∅ v v' := by
  have hne : ∀ q, v.Outside d roots q → q ∉ F :=
    fun q hout hq => (hF q hq).2 (hout.allocated (hF q hq).1)
  exact ⟨h.hhdm, fun q _ hout => h.outside q (hne q hout) hout,
    fun q _ hout => h.mem q (hne q hout) hout, h.upper⟩

end Spares

namespace SpacesInv

variable {d : ℕ} {v v' : Vmm} {roots : Set Word} {r t t' : Word} {π : List ℕ} {i : ℕ}

theorem lt_of_lt_totalPages (h : SpacesInv d v roots) {p : ℕ} (hp : p < v.pmm.totalPages) :
    p < 2 ^ 40 :=
  hp.trans_le h.reserves.totalPages_le

theorem mem_nodes (hr : r ∈ roots) (hπ : TablePath d π) (ht : v.walk r π = some t) :
    t ∈ v.nodes d roots :=
  ⟨r, hr, π, hπ, ht⟩

/-- The pages of the tables are allocated. -/
theorem allocated_of_tablePages (h : SpacesInv d v roots) (hr : r ∈ roots) {p : ℕ}
    (hp : p ∈ v.tablePages r) : v.pmm.Allocated p := by
  obtain ⟨hlt, π, hπ, hwalk⟩ := hp
  obtain ⟨q, hq, -, hall, hpq⟩ := h.backed _ (mem_nodes hr (hπ.mono h.depth) hwalk)
  rwa [Vmm.pageVirt_inj (h.lt_of_lt_totalPages hlt) (h.lt_of_lt_totalPages hq) hpq]

theorem extends_refl (h : SpacesInv d v roots) (hr : r ∈ roots) : Extends d roots r v v where
  inv := h
  hhdm := rfl
  kernelPml4 := rfl
  totalPages := rfl
  walk_mono := fun _ _ _ _ _ ht => ht
  frames := fun _ _ _ _ _ => rfl
  leaf := fun _ _ _ _ _ _ _ => rfl
  others := fun _ _ _ _ _ => rfl
  allocated := fun _ => (or_iff_left_of_imp (h.allocated_of_tablePages hr)).symm
  fresh := fun _ hj => .inl hj
  spares := .refl v

/-- An address outside a page differs from the entries of the page. -/
theorem ne_entryAddr {p q : ℕ} (hp : p < 2 ^ 40) (hq : q < 2 ^ 40) (hne : p ≠ q) (hi : i < 512)
    {a : Word} (ha : (a - v.pageVirt q).toNat < pageSize) :
    a ≠ Vmm.entryAddr (v.pageVirt p) i := by
  rintro rfl
  have hin : (Vmm.entryAddr (v.pageVirt p) i - v.pageVirt p).toNat < pageSize := by
    rw [Vmm.entryAddr, BitVec.add_comm, BitVec.add_sub_cancel, Vmm.toNat_entry hi, pageSize]
    omega
  exact hne (Vmm.page_unique hp hq hin ha)

/-- The entries of the trees are not in the upper half of a top-level table. -/
theorem not_upper (h : SpacesInv d v roots) (hr : r ∈ roots) (hwalk : v.walk r π = some t)
    (hπ : TablePath d (π ++ [i])) {r' : Word} (hr' : r' ∈ roots) {j : ℕ} (hj : 256 ≤ j) :
    ¬ (r' = t ∧ j = i) := by
  rintro ⟨rfl, rfl⟩
  obtain ⟨-, rfl⟩ := h.forest r hr r' hr' π [] _ hπ.of_concat TablePath.nil hwalk rfl
  exact absurd (hπ.2.2 j rfl) (by omega)

/-- Writing an entry of the trees. -/
theorem spares_setEntry (h : SpacesInv d v roots) (hr : r ∈ roots) (hwalk : v.walk r π = some t)
    (hπ : TablePath d (π ++ [i])) (e : Word) {F : Set ℕ}
    (hout : ∀ q ∉ F, v.Outside d roots q → (v.setEntry t i e).Outside d roots q) :
    Spares d roots F v (v.setEntry t i e) := by
  have hmem : t ∈ v.nodes d roots := mem_nodes hr hπ.of_concat hwalk
  obtain ⟨p, hp, -, -, rfl⟩ := h.backed t hmem
  have hp' := h.lt_of_lt_totalPages hp
  refine ⟨rfl, hout, fun q _ hq a ha => ?_, fun r' hr' j hj hj' => ?_⟩
  · have hne : p ≠ q := fun heq => hq.notMem (heq ▸ hmem)
    exact Function.update_of_ne (ne_entryAddr hp' hq.lt hne hπ.index_lt ha) _ _
  · obtain ⟨q, hq, -, -, rfl⟩ := h.backed r' (mem_nodes hr' TablePath.nil rfl)
    refine Vmm.entry_setEntry_of_ne hp' (h.lt_of_lt_totalPages hq) hπ.index_lt hj' ?_ e
    rintro ⟨rfl, rfl⟩
    exact h.not_upper hr hwalk hπ hr' hj ⟨rfl, rfl⟩

end SpacesInv

theorem Extends.tablePages_subset {d : ℕ} {roots : Set Word} {r : Word} {v v' : Vmm}
    (h : Extends d roots r v v') (hr : r ∈ roots) : v.tablePages r ⊆ v'.tablePages r := by
  rintro p ⟨hp, π, hπ, hwalk⟩
  refine ⟨h.totalPages ▸ hp, π, hπ, ?_⟩
  rw [h.walk_mono r hr π _ (hπ.mono h.inv.depth) hwalk, Vmm.pageVirt, Vmm.pageVirt, Vmm.physToVirt,
    Vmm.physToVirt, h.hhdm]

theorem Extends.trans {d : ℕ} {roots : Set Word} {r : Word} {v v' v'' : Vmm}
    (h : Extends d roots r v v') (h' : Extends d roots r v' v'') (hr : r ∈ roots) :
    Extends d roots r v v'' where
  inv := h'.inv
  hhdm := h'.hhdm.trans h.hhdm
  kernelPml4 := h'.kernelPml4.trans h.kernelPml4
  totalPages := h'.totalPages.trans h.totalPages
  walk_mono := fun r' hr' ρ t hρ ht => h'.walk_mono r' hr' ρ t hρ (h.walk_mono r' hr' ρ t hρ ht)
  frames := fun r' hr' ρ hρ hlen => (h'.frames r' hr' ρ hρ hlen).trans (h.frames r' hr' ρ hρ hlen)
  leaf := fun r' hr' ρ i hρ hlen hi =>
    (h'.leaf r' hr' ρ i hρ hlen hi).trans (h.leaf r' hr' ρ i hρ hlen hi)
  others := fun r' hr' hne ρ hρ =>
    (h'.others r' hr' hne ρ hρ).trans (h.others r' hr' hne ρ hρ)
  allocated := fun j => by
    rw [h'.allocated, h.allocated, or_assoc]
    exact or_congr_right (or_iff_right_of_imp fun hj => h'.tablePages_subset hr hj)
  fresh := fun j hj => by
    rcases h'.fresh j hj with hj | hj
    · exact h.fresh j hj
    · rw [h.allocated, not_or] at hj
      exact .inr hj.1
  spares := by
    rw [← Set.union_empty ∅]
    exact h.spares.trans h'.spares

/-! ### One level of `vmm_map_page` -/

section NextTable

variable {d : ℕ} {v v' : Vmm} {roots : Set Word} {r t t' : Word} {π : List ℕ} {i : ℕ}
  {message : String}

/-- The two ways `nextTable` succeeds. -/
theorem nextTable_cases (h : SpacesInv d v roots) (hok : nextTable v t i message = .ok (v', t')) :
    v.nextLevel t i = some t' ∧ v' = v ∨
      ∃ p pmm, v.nextLevel t i = none ∧ p < v.pmm.totalPages ∧ p ≠ 0 ∧ ¬ v.pmm.Allocated p ∧
        (∀ j, pmm.Allocated j ↔ j = p ∨ v.pmm.Allocated j) ∧
        pmm.totalPages = v.pmm.totalPages ∧ pmm.Reserves ∧ t' = v.pageVirt p ∧
        v' = { v with pmm, mem := memsetZero v.mem (v.pageVirt p) pageSize }.setEntry t i
          (pageAddr p ||| pagePresent ||| pageWrite ||| pageUser) := by
  unfold nextTable at hok
  cases hnext : v.nextLevel t i with
  | some next =>
    simp only [hnext, Except.ok.injEq, Prod.mk.injEq] at hok
    exact .inl ⟨by rw [hok.2], hok.1.symm⟩
  | none =>
    simp only [hnext] at hok
    have hspec := pmmAllocPage_spec h.reserves
    generalize pmmAllocPage v.pmm = result at hok hspec
    cases hspec with
    | null _ => simp at hok
    | page p hlt hpos hfree pmm hallocated htotal hreserves =>
      have hne : pageAddr p ≠ 0 := pageAddr_ne_zero ((h.lt_of_lt_totalPages hlt).trans (by decide)) hpos
      simp only [hne, if_false, Except.ok.injEq, Prod.mk.injEq] at hok
      exact .inr ⟨p, pmm, rfl, hlt, hpos, hfree, hallocated, htotal, hreserves, hok.2.symm,
        hok.1.symm⟩

/-- The entries after a table was added on page `p`: the slot `i` of page `q` was written,
and page `p` is clear. -/
theorem entry_addTable (v : Vmm) (pmm : Pmm) {p q q' i j : ℕ} (hp : p < 2 ^ 40) (hq : q < 2 ^ 40)
    (hq' : q' < 2 ^ 40) (hi : i < 512) (hj : j < 512) (hne : ¬ (q' = q ∧ j = i)) (e : Word) :
    ({ v with pmm, mem := memsetZero v.mem (v.pageVirt p) pageSize }.setEntry (v.pageVirt q) i
      e).entry (v.pageVirt q') j = if q' = p then 0 else v.entry (v.pageVirt q') j := by
  have hset := Vmm.entry_setEntry_of_ne
    (v := { v with pmm, mem := memsetZero v.mem (v.pageVirt p) pageSize }) hq hq' hi hj hne e
  exact hset.trans (Vmm.entry_memsetZero hq' hp hj)

/-- A fresh table under an empty slot. -/
theorem linkStep_nextTable (h : SpacesInv d v roots) (hr : r ∈ roots)
    (hwalk : v.walk r π = some t) (hπ : TablePath d (π ++ [i])) (hempty : v.nextLevel t i = none)
    {p : ℕ} (hp : p < v.pmm.totalPages) (hfree : ¬ v.pmm.Allocated p) (pmm : Pmm) :
    LinkStep v.nextLevel
      ({ v with pmm, mem := memsetZero v.mem (v.pageVirt p) pageSize }.setEntry t i
        (pageAddr p ||| pagePresent ||| pageWrite ||| pageUser)).nextLevel
      (TablePath d) roots r π i (v.pageVirt p) := by
  have hp' := h.lt_of_lt_totalPages hp
  have hpage : ∀ t' ∈ v.nodes d roots, ∃ q, q < 2 ^ 40 ∧ q ≠ p ∧ t' = v.pageVirt q := by
    intro t' ht'
    obtain ⟨q, hq, -, hall, rfl⟩ := h.backed t' ht'
    exact ⟨q, h.lt_of_lt_totalPages hq, fun hqp => hfree (hqp ▸ hall), rfl⟩
  obtain ⟨q, hq, hqp, rfl⟩ := hpage t (SpacesInv.mem_nodes hr hπ.of_concat hwalk)
  refine ⟨h.forest, hr, hπ, ⟨v.pageVirt q, hwalk, hempty, ?_, ?_⟩, ?_, ?_⟩
  · refine Vmm.nextLevel_of_entry (v := Vmm.setEntry _ _ _ _) hp'
      (pagePresent ||| pageWrite ||| pageUser) (by decide) (by decide) ?_
    rw [Vmm.entry_setEntry_self, BitVec.or_assoc, BitVec.or_assoc]
    rfl
  · intro r' hr' ρ j t' hρ ht' hne
    obtain ⟨q', hq', hqp', rfl⟩ := hpage t' (SpacesInv.mem_nodes hr' hρ.of_concat ht')
    have hold := entry_addTable v pmm hp' hq hq' hπ.index_lt hρ.index_lt
      (fun heq => hne (by rw [heq.1, heq.2]))
      (pageAddr p ||| pagePresent ||| pageWrite ||| pageUser)
    rw [if_neg hqp'] at hold
    simp only [Vmm.nextLevel, hold]
    rfl
  · intro hmem
    obtain ⟨q', hq', hqp', heq⟩ := hpage _ hmem
    exact hqp' (Vmm.pageVirt_inj hp' hq' heq).symm
  · intro j hj
    have hzero := entry_addTable v pmm hp' hq hp' hπ.index_lt hj.index_lt
      (fun heq => hqp heq.1.symm) (pageAddr p ||| pagePresent ||| pageWrite ||| pageUser)
    rw [if_pos rfl] at hzero
    simp [Vmm.nextLevel, hzero]

/-- The entries of the page tables are as before, and those of a new page table are clear. -/
theorem leaf_addTable (h : SpacesInv d v roots) (hr : r ∈ roots) (hwalk : v.walk r π = some t)
    (hπ : TablePath d (π ++ [i])) (hlen : π.length ≤ 2) (hempty : v.nextLevel t i = none) {p : ℕ}
    (hp : p < v.pmm.totalPages) (hfree : ¬ v.pmm.Allocated p) (pmm : Pmm) {r' : Word}
    (hr' : r' ∈ roots) {ρ : List ℕ} {j : ℕ} (hρ : TablePath 3 ρ) (hρlen : ρ.length = 3)
    (hj : j < 512) :
    ({ v with pmm, mem := memsetZero v.mem (v.pageVirt p) pageSize }.setEntry t i
      (pageAddr p ||| pagePresent ||| pageWrite ||| pageUser)).leaf r' ρ j = v.leaf r' ρ j := by
  have hlink := linkStep_nextTable h hr hwalk hπ hempty hp hfree pmm
  have hp' := h.lt_of_lt_totalPages hp
  have hρd := hρ.mono h.depth
  obtain ⟨q, hq, -, hall, rfl⟩ := h.backed t (SpacesInv.mem_nodes hr hπ.of_concat hwalk)
  have hq' := h.lt_of_lt_totalPages hq
  have hqp : q ≠ p := fun hqp => hfree (hqp ▸ hall)
  unfold Vmm.leaf
  rcases hlink.walk_eq TablePath.closed hr' ρ hρd with ⟨rfl, rfl, hnew⟩ | ⟨-, hold⟩
  · -- the new table is a page table
    have hnone : v.walk r' (π ++ [i]) = none := by
      rw [Vmm.walk, walk_concat]
      simp [Vmm.walk] at hwalk
      rw [hwalk, Option.bind_some, hempty]
    rw [hnone]
    have hzero := entry_addTable v pmm hp' hq' hp' hπ.index_lt hj
      (fun heq => hqp heq.1.symm) (pageAddr p ||| pagePresent ||| pageWrite ||| pageUser)
    rw [if_pos rfl] at hzero
    rw [Vmm.walk, hnew]
    exact hzero
  · rw [Vmm.walk, Vmm.walk, hold]
    cases hw : RadixTree.walk v.nextLevel r' ρ with
    | none => rfl
    | some t' =>
      obtain ⟨q', hq₁, -, hall', rfl⟩ := h.backed t' (SpacesInv.mem_nodes hr' hρd hw)
      -- the slot that was written is in a table of a higher level
      have hne : q' ≠ q := by
        rintro rfl
        obtain ⟨-, rfl⟩ := h.forest r' hr' r hr ρ π _ hρd hπ.of_concat hw hwalk
        omega
      have hold' := entry_addTable v pmm hp' hq' (h.lt_of_lt_totalPages hq₁)
        hπ.index_lt hj (fun heq => hne heq.1)
        (pageAddr p ||| pagePresent ||| pageWrite ||| pageUser)
      rw [if_neg fun heq : q' = p => hfree (heq ▸ hall')] at hold'
      exact hold'

/-- Adding a table writes on a free page and in the trees. -/
theorem spares_addTable (h : SpacesInv d v roots) (hr : r ∈ roots) (hwalk : v.walk r π = some t)
    (hπ : TablePath d (π ++ [i])) (hempty : v.nextLevel t i = none) {p : ℕ}
    (hp : p < v.pmm.totalPages) (hfree : ¬ v.pmm.Allocated p) {pmm : Pmm}
    (hallocated : ∀ j, pmm.Allocated j ↔ j = p ∨ v.pmm.Allocated j)
    (htotal : pmm.totalPages = v.pmm.totalPages) :
    Spares d roots ∅ v
      ({ v with pmm, mem := memsetZero v.mem (v.pageVirt p) pageSize }.setEntry t i
        (pageAddr p ||| pagePresent ||| pageWrite ||| pageUser)) := by
  have hlink := linkStep_nextTable h hr hwalk hπ hempty hp hfree pmm
  have hp' := h.lt_of_lt_totalPages hp
  have hmem : t ∈ v.nodes d roots := SpacesInv.mem_nodes hr hπ.of_concat hwalk
  obtain ⟨q', hq', -, hall', rfl⟩ := h.backed t hmem
  have hne : ∀ q, v.Outside d roots q → q ≠ p := by
    rintro q hq rfl
    exact hfree (hq.allocated hp)
  refine ⟨rfl, fun q _ hq => ⟨hq.lt, fun hlt => ?_, ?_⟩, fun q _ hq a ha => ?_,
    fun r' hr' j hj hj' => ?_⟩
  · exact (hallocated q).mpr (.inr (hq.allocated (htotal ▸ hlt)))
  · rw [Vmm.nodes, hlink.nodes_eq TablePath.closed]
    rintro (heq | hin)
    · exact hne q hq (Vmm.pageVirt_inj (v := v) hq.lt hp' heq)
    · exact hq.notMem hin
  · -- neither in the new table nor at the entry
    have hq'q : q' ≠ q := fun heq => hq.notMem (heq ▸ hmem)
    refine (Function.update_of_ne
      (SpacesInv.ne_entryAddr (h.lt_of_lt_totalPages hq') hq.lt hq'q hπ.index_lt ha) _ _).trans ?_
    exact if_neg fun hlt => hne q hq (Vmm.page_unique hq.lt hp' ha hlt)
  · obtain ⟨q, hq, -, hall, rfl⟩ := h.backed r' (SpacesInv.mem_nodes hr' TablePath.nil rfl)
    have hold := entry_addTable v pmm hp' (h.lt_of_lt_totalPages hq') (h.lt_of_lt_totalPages hq)
      hπ.index_lt hj' (fun heq => h.not_upper hr hwalk hπ hr' hj ⟨by rw [heq.1], heq.2⟩)
      (pageAddr p ||| pagePresent ||| pageWrite ||| pageUser)
    rwa [if_neg fun heq : q = p => hfree (heq ▸ hall)] at hold

theorem nextTable_spec (h : SpacesInv d v roots) (hr : r ∈ roots) (hwalk : v.walk r π = some t)
    (hπ : TablePath d (π ++ [i])) (hlen : π.length ≤ 2)
    (hok : nextTable v t i message = .ok (v', t')) :
    Extends d roots r v v' ∧ v'.walk r (π ++ [i]) = some t' := by
  rcases nextTable_cases h hok with ⟨hnext, rfl⟩ |
    ⟨p, pmm, hempty, hp, hpos, hfree, hallocated, htotal, hreserves, rfl, rfl⟩
  · refine ⟨h.extends_refl hr, ?_⟩
    exact (walk_concat π i).trans ((congrArg (Option.bind · _) hwalk).trans hnext)
  have hlink := linkStep_nextTable h hr hwalk hπ hempty hp hfree pmm
  have hclosed := TablePath.closed (d := d)
  set w := { v with pmm, mem := memsetZero v.mem (v.pageVirt p) pageSize }.setEntry t i
    (pageAddr p ||| pagePresent ||| pageWrite ||| pageUser)
  have hp' := h.lt_of_lt_totalPages hp
  have hwpmm : w.pmm = pmm := rfl
  have hvirt : ∀ q, w.pageVirt q = v.pageVirt q := fun _ => rfl
  have hnodes : w.nodes d roots = insert (v.pageVirt p) (v.nodes d roots) := hlink.nodes_eq hclosed
  have hnew : p ∈ w.tablePages r := by
    have hshort : (π ++ [i]).length ≤ 3 := by simpa using Nat.lt_succ_of_le hlen
    exact ⟨hwpmm ▸ htotal ▸ hp, π ++ [i], hπ.short hshort, hlink.walk_new hclosed⟩
  refine ⟨⟨?_, rfl, rfl, htotal, ?_, ?_, ?_, ?_, ?_, ?_,
    spares_addTable h hr hwalk hπ hempty hp hfree hallocated htotal⟩, hlink.walk_new hclosed⟩
  · refine ⟨h.depth, hreserves, h.hhdm, hwpmm ▸ htotal ▸ h.fits, hlink.forest_link hclosed, ?_, ?_, ?_⟩
    · intro t' ht'
      rw [hnodes] at ht'
      rcases ht' with rfl | ht'
      · exact ⟨p, hwpmm ▸ htotal ▸ hp, hpos, (hallocated p).mpr (.inl rfl), rfl⟩
      · obtain ⟨q, hq, hq0, hall, rfl⟩ := h.backed t' ht'
        exact ⟨q, hwpmm ▸ htotal ▸ hq, hq0, (hallocated q).mpr (.inr hall), rfl⟩
    · obtain ⟨q, hq, hall, heq⟩ := h.kernel
      exact ⟨q, hwpmm ▸ htotal ▸ hq, (hallocated q).mpr (.inr hall), heq⟩
    · rw [hnodes]
      rintro (heq | hmem)
      · obtain ⟨q, hq, hall, hqk⟩ := h.kernel
        have hqp := Vmm.pageVirt_inj (h.lt_of_lt_totalPages hq) hp' (hqk.symm.trans heq)
        exact hfree (hqp ▸ hall)
      · exact h.kernel_notMem hmem
  · intro r' hr' ρ t' hρ ht'
    exact hlink.walk_mono hclosed hr' hρ ht'
  · intro r' hr' ρ hρ hρlen
    rcases hlink.walk_eq hclosed hr' ρ hρ with ⟨-, rfl, -⟩ | ⟨-, hold⟩
    · simp only [List.length_append, List.length_singleton] at hρlen
      omega
    · exact hold
  · intro r' hr' ρ j hρ hρlen hj
    exact leaf_addTable h hr hwalk hπ hlen hempty hp hfree pmm hr' hρ hρlen hj
  · intro r' hr' hne ρ hρ
    rcases hlink.walk_eq hclosed hr' ρ hρ with ⟨hrr, -, -⟩ | ⟨-, hold⟩
    · exact absurd hrr hne
    · exact hold
  · intro j
    rw [hwpmm, hallocated, or_comm]
    refine ⟨Or.imp_right fun hj => hj ▸ hnew, fun hj => hj.elim .inl ?_⟩
    rintro ⟨hlt, ρ, hρ₃, hw⟩
    have hρ := hρ₃.mono h.depth
    rw [hwpmm, htotal] at hlt
    rcases hlink.walk_eq hclosed hr ρ hρ with ⟨-, -, hw'⟩ | ⟨-, hold⟩
    · exact .inr (Vmm.pageVirt_inj (h.lt_of_lt_totalPages hlt) hp'
        (Option.some.inj (hw.symm.trans hw')))
    · refine .inl ?_
      obtain ⟨q, hq, -, hall, heq⟩ := h.backed _ (SpacesInv.mem_nodes hr hρ (hold.symm.trans hw))
      have hqj := Vmm.pageVirt_inj (v := v) (h.lt_of_lt_totalPages hlt)
        (h.lt_of_lt_totalPages hq) heq
      exact hqj ▸ hall
  · rintro j ⟨hlt, ρ, hρ₃, hw⟩
    have hρ := hρ₃.mono h.depth
    rw [hwpmm, htotal] at hlt
    rcases hlink.walk_eq hclosed hr ρ hρ with ⟨-, -, hw'⟩ | ⟨-, hold⟩
    · have hjp := Vmm.pageVirt_inj (h.lt_of_lt_totalPages hlt) hp'
        (Option.some.inj (hw.symm.trans hw'))
      exact .inr (hjp ▸ hfree)
    · exact .inl ⟨hlt, ρ, hρ₃, hold.symm.trans hw⟩

end NextTable

/-! ### Mapping a frame -/

/-- From `v` to `v'` the frame `f` was mapped at the address `virt` of the address space `r`,
in tables that were there or added for it. -/
structure Maps (roots : Set Word) (r virt : Word) (f : ℕ) (v v' : Vmm) : Prop where
  inv : SpacesInv 4 v' roots
  hhdm : v'.hhdm = v.hhdm
  kernelPml4 : v'.kernelPml4 = v.kernelPml4
  totalPages : v'.pmm.totalPages = v.pmm.totalPages
  frames : ∀ r' ∈ roots, ∀ ρ, TablePath 4 ρ → ρ.length = 4 →
    r' = r ∧ ρ = pathOf virt ∧ v'.walk r' ρ = some (v.pageVirt f) ∨
      ¬ (r' = r ∧ ρ = pathOf virt) ∧ v'.walk r' ρ = v.walk r' ρ
  others : ∀ r' ∈ roots, r' ≠ r → ∀ ρ, TablePath 4 ρ → v'.walk r' ρ = v.walk r' ρ
  tables_mono : ∀ ρ t, TablePath 4 ρ → ρ.length ≤ 3 → v.walk r ρ = some t → v'.walk r ρ = some t
  allocated : ∀ j, v'.pmm.Allocated j ↔ v.pmm.Allocated j ∨ j ∈ v'.tablePages r
  fresh : ∀ j ∈ v'.tablePages r, j ∈ v.tablePages r ∨ ¬ v.pmm.Allocated j
  spares : Spares 4 roots {f} v v'

section MapPage

variable {v v' : Vmm} {roots : Set Word} {r t virt flags : Word} {π : List ℕ} {f l : ℕ}

/-- The walks after an entry of a page table was written: the frame at its path, and the
rest as before. -/
theorem walk_setEntry_last (h : SpacesInv 4 v roots) (hr : r ∈ roots)
    (hwalk : v.walk r π = some t) (hπ : TablePath 4 (π ++ [l])) (hlen : π.length = 3)
    (hf : f < v.pmm.totalPages) (hnot : v.pageVirt f ∉ v.nodes 4 roots)
    (hpresent : flags &&& pagePresent = pagePresent) (hflags : flags &&& physicalAddrMask = 0) :
    Forest (v.setEntry t l (pageAddr f ||| flags)).nextLevel (TablePath 4) roots ∧
      ∀ r' ∈ roots, ∀ ρ, TablePath 4 ρ →
        r' = r ∧ ρ = π ++ [l] ∧
            (v.setEntry t l (pageAddr f ||| flags)).walk r' ρ = some (v.pageVirt f) ∨
          ¬ (r' = r ∧ ρ = π ++ [l]) ∧
            (v.setEntry t l (pageAddr f ||| flags)).walk r' ρ = v.walk r' ρ := by
  have hlast : ∀ j, ¬ TablePath 4 (π ++ [l] ++ [j]) := by
    intro j hj
    have := hj.1
    simp only [List.length_append, List.length_singleton, hlen] at this
    omega
  -- first the old leaf is cut off, then the frame is linked
  let cut : Word → ℕ → Option Word := fun t' j => if t' = t ∧ j = l then none else v.nextLevel t' j
  have hcut : CutStep v.nextLevel cut (TablePath 4) roots r π l := by
    refine ⟨h.forest, hr, hπ, hlast, t, hwalk, by simp [cut], ?_⟩
    intro r' _ ρ j t' _ _ hne
    simp only [cut]
    rw [if_neg fun heq => hne (by rw [heq.1, heq.2])]
  have hlink : LinkStep cut (v.setEntry t l (pageAddr f ||| flags)).nextLevel (TablePath 4) roots
      r π l (v.pageVirt f) := by
    refine ⟨hcut.forest_cut TablePath.closed, hr, hπ, ⟨t, ?_, by simp [cut], ?_, ?_⟩, ?_,
      fun j hj => absurd hj (hlast j)⟩
    · rcases hcut.walk_eq TablePath.closed hr π hπ.of_concat with ⟨-, heq, -⟩ | ⟨-, hold⟩
      · simp at heq
      · exact hold.trans hwalk
    · exact Vmm.nextLevel_of_entry (v := v.setEntry _ _ _) (h.lt_of_lt_totalPages hf) flags
        hpresent hflags (Vmm.entry_setEntry_self v t l _)
    · intro r' hr' ρ j t' hρ ht' hne
      have hpage : ∀ r' ∈ roots, ∀ ρ t', TablePath 4 ρ → v.walk r' ρ = some t' →
          ∃ q, q < 2 ^ 40 ∧ t' = v.pageVirt q := by
        intro r' hr' ρ t' hρ ht'
        obtain ⟨q, hq, -, -, rfl⟩ := h.backed t' (SpacesInv.mem_nodes hr' hρ ht')
        exact ⟨q, h.lt_of_lt_totalPages hq, rfl⟩
      have ht'' := hcut.walk_anti TablePath.closed hr' hρ.of_concat ht'
      obtain ⟨q', hq', rfl⟩ := hpage r' hr' ρ t' hρ.of_concat ht''
      obtain ⟨q, hq, rfl⟩ := hpage r hr π t hπ.of_concat hwalk
      have hold := Vmm.entry_setEntry_of_ne (v := v) hq hq' hπ.index_lt hρ.index_lt
        (fun heq => hne (by rw [heq.1, heq.2])) (pageAddr f ||| flags)
      simp only [cut]
      rw [if_neg fun heq => hne (by rw [heq.1, heq.2]), Vmm.nextLevel, hold]
      rfl
    · intro hmem
      rw [hcut.nodes_eq TablePath.closed] at hmem
      exact hnot hmem.1
  refine ⟨hlink.forest_link TablePath.closed, fun r' hr' ρ hρ => ?_⟩
  rcases hlink.walk_eq TablePath.closed hr' ρ hρ with hnew | ⟨hne, hold⟩
  · exact .inl hnew
  · rcases hcut.walk_eq TablePath.closed hr' ρ hρ with ⟨hrr, hρ', -⟩ | ⟨-, hold'⟩
    · exact absurd ⟨hrr, hρ'⟩ hne
    · exact .inr ⟨hne, hold.trans hold'⟩

/-- `vmm_map_page` goes down three levels of tables, which are there or added for it, and writes
an entry of the last one. -/
theorem vmmMapPage_tables {d : ℕ} {phys : Word} (h : SpacesInv d v roots) (hr : r ∈ roots)
    (huser : UserHalf virt) (hok : vmmMapPage v r virt phys flags = .ok v') :
    ∃ v₃ pt, Extends d roots r v v₃ ∧
      v₃.walk r [pml4Index virt, pdptIndex virt, pdIndex virt] = some pt ∧
      v' = v₃.setEntry pt (ptIndex virt) (phys ||| flags) := by
  have hpath : TablePath 3 [pml4Index virt, pdptIndex virt, pdIndex virt] :=
    ((tablePath_pathOf huser).of_concat (i := ptIndex virt)).short (le_refl 3)
  have hp₃ := hpath.mono h.depth
  have hp₂ : TablePath d [pml4Index virt, pdptIndex virt] := TablePath.closed _ (pdIndex virt) hp₃
  have hp₁ : TablePath d [pml4Index virt] := TablePath.closed _ (pdptIndex virt) hp₂
  unfold vmmMapPage at hok
  obtain ⟨⟨v₁, pdpt⟩, h₁, hok⟩ := Outcome.bind_eq_ok.mp hok
  obtain ⟨⟨v₂, pd⟩, h₂, hok⟩ := Outcome.bind_eq_ok.mp hok
  obtain ⟨⟨v₃, pt⟩, h₃, hok⟩ := Outcome.bind_eq_ok.mp hok
  obtain rfl := Except.ok.inj hok
  obtain ⟨hext₁, hwalk₁⟩ := nextTable_spec (π := []) h hr rfl hp₁ (by simp) h₁
  obtain ⟨hext₂, hwalk₂⟩ := nextTable_spec hext₁.inv hr hwalk₁ hp₂ (by simp) h₂
  obtain ⟨hext₃, hwalk₃⟩ := nextTable_spec hext₂.inv hr hwalk₂ hp₃ (by simp) h₃
  exact ⟨v₃, pt, (hext₁.trans hext₂ hr).trans hext₃ hr, hwalk₃, rfl⟩

/-- `vmm_map_page` maps the frame and touches no other mapping. -/
theorem vmmMapPage_spec (h : SpacesInv 4 v roots) (hr : r ∈ roots) (huser : UserHalf virt)
    (hf : f < v.pmm.totalPages) (hf0 : f ≠ 0) (hall : v.pmm.Allocated f)
    (hnot : v.pageVirt f ∉ v.nodes 4 roots) (hkernel : v.pageVirt f ≠ v.kernelPml4)
    (hpresent : flags &&& pagePresent = pagePresent) (hflags : flags &&& physicalAddrMask = 0)
    (hok : vmmMapPage v r virt (pageAddr f) flags = .ok v') : Maps roots r virt f v v' := by
  have hpath := tablePath_pathOf huser
  obtain ⟨v₃, pt, hext, hwalk₃, rfl⟩ := vmmMapPage_tables h hr huser hok
  -- the entry of the last one
  have hvirt : ∀ q, v₃.pageVirt q = v.pageVirt q := by
    intro q
    rw [Vmm.pageVirt, Vmm.pageVirt, Vmm.physToVirt, Vmm.physToVirt, hext.hhdm]
  have hf₃ : f < v₃.pmm.totalPages := hext.totalPages ▸ hf
  have hout₃ := hext.spares.outside f (Set.notMem_empty f) ⟨h.lt_of_lt_totalPages hf, fun _ => hall, hnot⟩
  have hnot₃ := hout₃.notMem
  obtain ⟨hforest, hwalks⟩ := walk_setEntry_last hext.inv hr hwalk₃ hpath rfl hf₃ hnot₃ hpresent
    hflags
  set w := v₃.setEntry pt (ptIndex virt) (pageAddr f ||| flags)
  have hshort : ∀ r' ∈ roots, ∀ ρ, TablePath 4 ρ → ρ.length ≤ 3 → w.walk r' ρ = v₃.walk r' ρ := by
    intro r' hr' ρ hρ hlen
    rcases hwalks r' hr' ρ hρ with ⟨-, rfl, -⟩ | ⟨-, hold⟩
    · simp at hlen
    · exact hold
  have hpages : w.tablePages r = v₃.tablePages r := by
    ext p
    refine and_congr_right fun _ => exists_congr fun ρ => and_congr_right fun hρ => ?_
    rw [hshort r hr ρ (hρ.mono (by decide)) hρ.1]
    rfl
  refine ⟨⟨hext.inv.depth, hext.inv.reserves, hext.inv.hhdm, hext.inv.fits, hforest, ?_, hext.inv.kernel, ?_⟩,
    hext.hhdm, hext.kernelPml4, hext.totalPages, ?_, ?_, ?_, ?_, ?_, ?_⟩
  · rintro t ⟨r', hr', ρ, hρ, ht⟩
    rcases hwalks r' hr' ρ hρ with ⟨-, -, hnew⟩ | ⟨-, hold⟩
    · obtain rfl := Option.some.inj (ht.symm.trans hnew)
      exact ⟨f, hf₃, hf0, (hext.allocated f).mpr (.inl hall), rfl⟩
    · exact hext.inv.backed t (SpacesInv.mem_nodes hr' hρ (hold.symm.trans ht))
  · rintro ⟨r', hr', ρ, hρ, ht⟩
    rcases hwalks r' hr' ρ hρ with ⟨-, -, hnew⟩ | ⟨-, hold⟩
    · have heq := Option.some.inj (ht.symm.trans hnew)
      exact hkernel ((hvirt f).symm.trans (heq.symm.trans hext.kernelPml4))
    · exact hext.inv.kernel_notMem (SpacesInv.mem_nodes hr' hρ (hold.symm.trans ht))
  · intro r' hr' ρ hρ hlen
    rcases hwalks r' hr' ρ hρ with ⟨hrr, hρ', hnew⟩ | ⟨hne, hold⟩
    · exact .inl ⟨hrr, hρ', hnew.trans (congrArg some (hvirt f))⟩
    · exact .inr ⟨hne, hold.trans (hext.frames r' hr' ρ hρ hlen)⟩
  · intro r' hr' hne ρ hρ
    rcases hwalks r' hr' ρ hρ with ⟨hrr, -, -⟩ | ⟨-, hold⟩
    · exact absurd hrr hne
    · exact hold.trans (hext.others r' hr' hne ρ hρ)
  · intro ρ t hρ hlen ht
    exact (hshort r hr ρ hρ hlen).trans (hext.walk_mono r hr ρ t hρ ht)
  · rw [hpages]
    exact hext.allocated
  · rw [hpages]
    exact hext.fresh
  · rw [← Set.empty_union {f}]
    refine hext.spares.trans (hext.inv.spares_setEntry hr hwalk₃ hpath _ fun q hq hout => ?_)
    refine ⟨hout.lt, hout.allocated, ?_⟩
    rintro ⟨r', hr', ρ, hρ, ht⟩
    rcases hwalks r' hr' ρ hρ with ⟨-, -, hnew⟩ | ⟨-, hold⟩
    · have heq : v₃.pageVirt q = v₃.pageVirt f := Option.some.inj (ht.symm.trans hnew)
      exact hq (Vmm.pageVirt_inj hout.lt (h.lt_of_lt_totalPages hf) heq)
    · exact hout.notMem ⟨r', hr', ρ, hρ, hold.symm.trans ht⟩

end MapPage

end KyroOS.Memory

import KyroOS.Lib.ByteMap
import KyroOS.Memory.FrameBytes

/-!
# Copies to user addresses

`vmm_memcpy_to_userspace` translates an address for each page, and writes to the frame there.
Different pages are mapped to different frames, none of them a table, so that the translation is the
same for all turns of the loop. A program reads what was written at the user addresses, wherever the
frames are, and no other byte of memory changes.

## Main definitions

* `DistinctFrames` — the frames of the user half of an address space
* `MemcpyReturns` — the loop returns

## Main results

* `memcpyLoop_returns` — the loop returns, whatever is mapped
* `MemcpyReturns.userByte` — a copy to mapped addresses is a write to user memory
* `copied_to_userspace` — what is read behind a copy, and what it leaves
-/

namespace KyroOS.Memory

open RadixTree ByteMap

/-- The user pages of the address space `r` have frames of their own: none is mapped at a second
page, none is a table, and none is frame 0. -/
structure DistinctFrames (v : Vmm) (r : Word) : Prop where
  hhdm : v.hhdm.toNat % pageSize = 0
  root : ∃ p, p < 2 ^ 40 ∧ r = v.pageVirt p
  distinct : ∀ π ρ t, TablePath 4 π → TablePath 4 ρ → π.length = 4 →
    v.walk r π = some t → v.walk r ρ = some t → π = ρ
  nonzero : ∀ π, TablePath 4 π → π.length = 4 → v.walk r π ≠ some (v.pageVirt 0)

/-- The bytes from `virt` on are in mapped pages of the user half. -/
def UserMapped (v : Vmm) (r virt : Word) (n : ℕ) : Prop :=
  ∀ k < n, virt.toNat + k < 2 ^ 47 ∧ v.walk r (pathOf (virt + BitVec.ofNat 64 k)) ≠ none

/-- `PAGE_SIZE - page_offset`. -/
def roomInPage (virt : Word) : ℕ := pageSize - virt.toNat % pageSize

/-- What one turn of the loop copies. -/
def memcpyPage (v : Vmm) (pml4 virt : Word) (src : List Byte) : Vmm :=
  let dest := v.physToVirt (vmmGetPhysAddr v pml4 virt)
  { v with mem := memcpy v.mem dest (src.take (roomInPage virt)) }

/-- The loop of `vmm_memcpy_to_userspace` returns: nothing is left, an address is not mapped, or a
page is copied and it returns from there. -/
inductive MemcpyReturns (pml4 : Word) : Vmm → Word → List Byte → Vmm → Prop
  | copied {v : Vmm} {virt : Word} : MemcpyReturns pml4 v virt [] v
  | unmapped {v : Vmm} {virt : Word} {src : List Byte} (hsrc : src ≠ [])
      (hphys : vmmGetPhysAddr v pml4 virt = 0) : MemcpyReturns pml4 v virt src v
  | page {v v' : Vmm} {virt : Word} {src : List Byte} (hsrc : src ≠ [])
      (hphys : vmmGetPhysAddr v pml4 virt ≠ 0)
      (hrest : MemcpyReturns pml4 (memcpyPage v pml4 virt src)
        (virt + BitVec.ofNat 64 (roomInPage virt)) (src.drop (roomInPage virt)) v') :
      MemcpyReturns pml4 v virt src v'

theorem roomInPage_pos (virt : Word) : 0 < roomInPage virt :=
  Nat.sub_pos_of_lt (Nat.mod_lt _ (by decide))

/-- The loop returns: every turn copies a byte at least. -/
theorem memcpyLoop_returns (r : Word) (turns : ℕ) : ∀ {v : Vmm} {virt : Word} {src : List Byte},
    src.length ≤ turns → MemcpyReturns r v virt src (memcpyLoop v r turns virt src) := by
  induction turns with
  | zero =>
    intro v virt src hturns
    rw [List.length_eq_zero_iff.mp (Nat.le_zero.mp hturns)]
    exact .copied
  | succ turns ih =>
    intro v virt src hturns
    rw [memcpyLoop]
    dsimp only
    split_ifs with hsrc hphys
    · rw [hsrc]
      exact .copied
    · exact .unmapped hsrc hphys
    · refine .page hsrc hphys (ih ?_)
      have hpos : 0 < src.length := List.length_pos_iff.mpr hsrc
      have hroom := roomInPage_pos virt
      show (src.drop (roomInPage virt)).length ≤ turns
      rw [List.length_drop]
      omega

section UserCopy

variable {v v' : Vmm} {roots : Set Word} {r virt a x y t : Word} {f : ℕ} {bytes src : List Byte}
  {π ρ : List ℕ}

/-! ### Frames of user pages -/

/-- Addresses with the same path are in the same page. -/
theorem pathOf_eq_iff (hx : x.toNat < 2 ^ 47) (hy : y.toNat < 2 ^ 47) :
    pathOf x = pathOf y ↔ x.toNat / pageSize = y.toNat / pageSize := by
  simp only [pathOf, pml4Index, pdptIndex, pdIndex, ptIndex, toNat_index, List.cons.injEq, and_true,
    pageSize]
  omega

/-- What an entry points to is the address of a page. -/
theorem and_physicalAddrMask (e : Word) :
    e &&& physicalAddrMask = pageAddr (e.toNat / 2 ^ 12 % 2 ^ 40) := by
  refine BitVec.eq_of_getLsbD_eq fun i hi => ?_
  rw [BitVec.getLsbD_and, mask_getLsbD i hi, pageAddr, BitVec.getLsbD_ofNat,
    show pageSize = 2 ^ 12 from rfl, Nat.testBit_mul_two_pow, Nat.testBit_mod_two_pow,
    Nat.testBit_div_two_pow]
  by_cases hle : 12 ≤ i
  · have hbit : e.toNat.testBit (i - 12 + 12) = e.getLsbD i := by
      rw [Nat.sub_add_cancel hle]
      rfl
    have hrange : i - 12 < 40 ↔ i < 52 := by omega
    rw [hbit]
    simp only [hle, hi, hrange, true_and, decide_true, Bool.true_and]
    exact Bool.and_comm _ _
  · simp [hle]

theorem Vmm.nextLevel_page {table : Word} {i : ℕ} (h : v.nextLevel table i = some t) :
    ∃ f, f < 2 ^ 40 ∧ t = v.pageVirt f := by
  rw [Vmm.nextLevel] at h
  split_ifs at h with hpresent
  refine ⟨(v.entry table i).toNat / 2 ^ 12 % 2 ^ 40, Nat.mod_lt _ (by decide), ?_⟩
  rw [← Option.some.inj h, and_physicalAddrMask]
  rfl

/-- The tables and the frames of an address space are pages. -/
theorem DistinctFrames.exists_page (h : DistinctFrames v r) (hwalk : v.walk r π = some t) :
    ∃ f, f < 2 ^ 40 ∧ t = v.pageVirt f := by
  rcases List.eq_nil_or_concat π with rfl | ⟨π, i, rfl⟩
  · obtain rfl := Option.some.inj hwalk
    exact h.root
  · rw [List.concat_eq_append, Vmm.walk, walk_concat] at hwalk
    obtain ⟨table, -, hnext⟩ := Option.bind_eq_some_iff.mp hwalk
    exact Vmm.nextLevel_page hnext

/-- What is written into the frame of a user page leaves the translation as it is. -/
theorem DistinctFrames.write_frame (h : DistinctFrames v r) (hπ : TablePath 4 π) (hlen : π.length = 4)
    (hwalk : v.walk r π = some (v.pageVirt f)) (hf : f < 2 ^ 40) {mem : Word → Word}
    (hmem : ChangesWithin v {f} mem) :
    DistinctFrames { v with mem } r ∧
      ∀ ρ, TablePath 4 ρ → ({ v with mem } : Vmm).walk r ρ = v.walk r ρ := by
  have hsame : ∀ ρ, TablePath 4 ρ → ({ v with mem } : Vmm).walk r ρ = v.walk r ρ := by
    intro ρ hρ
    refine walk_frame TablePath.closed (Set.mem_singleton r) ?_ hρ
    rintro r rfl ρ j t hρ ht
    obtain ⟨p, hp, rfl⟩ := h.exists_page ht
    have hpf : p ∉ ({f} : Set ℕ) := by
      rintro rfl
      -- the frame would be a table
      obtain rfl := h.distinct π ρ _ hπ hρ.of_concat hlen hwalk ht
      have hlong := hρ.1
      rw [List.length_append, List.length_singleton, hlen] at hlong
      omega
    have hentry := entry_changesWithin hmem (by rintro g rfl; exact hf) hp hpf hρ.index_lt
    rw [Vmm.nextLevel, hentry]
    rfl
  refine ⟨⟨h.hhdm, h.root, fun π ρ t hπ hρ hlen => ?_, fun π hπ hlen => ?_⟩, hsame⟩
  · rw [hsame π hπ, hsame ρ hρ]
    exact h.distinct π ρ t hπ hρ hlen
  · rw [hsame π hπ]
    exact h.nonzero π hπ hlen

/-- The frames of an address space of the kernel are its own. -/
theorem SpacesInv.distinctFrames (h : SpacesInv 4 v roots) (hr : r ∈ roots) :
    DistinctFrames v r where
  hhdm := h.hhdm
  root := by
    obtain ⟨p, hp, -, -, rfl⟩ := h.backed r (SpacesInv.mem_nodes hr TablePath.nil rfl)
    exact ⟨p, h.lt_of_lt_totalPages hp, rfl⟩
  distinct π ρ t hπ hρ _ ht ht' := (h.forest r hr r hr π ρ t hπ hρ ht ht').2
  nonzero π hπ _ ht := by
    obtain ⟨p, hp, hp0, -, heq⟩ := h.backed _ (SpacesInv.mem_nodes hr hπ ht)
    exact hp0 (Vmm.pageVirt_inj (by decide) (h.lt_of_lt_totalPages hp) heq).symm

/-! ### Bytes at user addresses -/

/-- The physical address of a mapped address, seen through the direct map. -/
theorem physToVirt_vmmGetPhysAddr (hwalk : v.walk r (pathOf x) = some (v.pageVirt f)) :
    v.physToVirt (vmmGetPhysAddr v r x) =
      v.pageVirt f + BitVec.ofNat 64 (x.toNat % pageSize) := by
  rw [vmmGetPhysAddr_some hwalk, and_0xFFF, Vmm.pageVirt, Vmm.physToVirt, Vmm.physToVirt,
    BitVec.add_assoc, BitVec.add_comm (BitVec.ofNat 64 _) v.hhdm, BitVec.add_assoc]

/-- The frame of a mapped user address, which is not at the physical address 0. -/
theorem DistinctFrames.exists_frame (h : DistinctFrames v r) (hx : x.toNat < 2 ^ 47)
    (hmapped : v.walk r (pathOf x) ≠ none) :
    ∃ f, f < 2 ^ 40 ∧ v.walk r (pathOf x) = some (v.pageVirt f) ∧ vmmGetPhysAddr v r x ≠ 0 := by
  obtain ⟨t, hwalk⟩ := Option.ne_none_iff_exists'.mp hmapped
  obtain ⟨f, hf, rfl⟩ := h.exists_page hwalk
  refine ⟨f, hf, hwalk, fun hzero => ?_⟩
  have hf0 : f ≠ 0 := by
    rintro rfl
    exact h.nonzero _ (tablePath_pathOf (userHalf_of_lt hx)) rfl hwalk
  have hframe := pageAddr_toNat (hf.trans (show 2 ^ 40 < 2 ^ 52 by decide))
  rw [vmmGetPhysAddr_some hwalk, and_0xFFF] at hzero
  have hval := congrArg BitVec.toNat hzero
  rw [BitVec.toNat_add, hframe, BitVec.toNat_ofNat, show (0 : Word).toNat = 0 from rfl] at hval
  unfold pageSize at *
  omega

/-- The byte at a mapped address. -/
theorem DistinctFrames.userByte_eq (h : DistinctFrames v r) (hx : x.toNat < 2 ^ 47)
    (hwalk : v.walk r (pathOf x) = some (v.pageVirt f)) :
    userByte v r x =
      some (loadByte v.mem (v.pageVirt f + BitVec.ofNat 64 (x.toNat % pageSize))) := by
  obtain ⟨-, -, -, hphys⟩ := h.exists_frame hx (by rw [hwalk]; exact Option.some_ne_none _)
  rw [userByte, if_neg hphys, physToVirt_vmmGetPhysAddr hwalk]

/-- An address that is not mapped has no byte. -/
theorem userByte_none (hwalk : v.walk r (pathOf x) = none) : userByte v r x = none :=
  if_pos (vmmGetPhysAddr_none hwalk)

/-- A write to the frame of one page, as a program sees it. -/
theorem DistinctFrames.userByte_memcpy (h : DistinctFrames v r)
    (hwalk : v.walk r (pathOf virt) = some (v.pageVirt f)) (hf : f < 2 ^ 40)
    (hvirt : virt.toNat < 2 ^ 47) (hlen : virt.toNat % pageSize + bytes.length ≤ pageSize)
    (hx : x.toNat < 2 ^ 47) {mem : Word → Word}
    (hmem : mem = memcpy v.mem (v.pageVirt f + BitVec.ofNat 64 (virt.toNat % pageSize)) bytes) :
    userByte { v with mem } r x = write (userByte v r) ⟨virt, bytes.map some⟩ x := by
  have hpathVirt := tablePath_pathOf (userHalf_of_lt hvirt)
  have hpath := tablePath_pathOf (userHalf_of_lt hx)
  have hwithin : ChangesWithin v {f} mem := hmem ▸ changesWithin_memcpy h.hhdm hf _ bytes hlen
  obtain ⟨h', hwalks⟩ := h.write_frame hpathVirt rfl hwalk hf hwithin
  have hsame := hwalks (pathOf x) hpath
  have hlt : x.toNat % pageSize < pageSize := Nat.mod_lt _ (by decide)
  -- the addresses of the block are in the page of `virt`
  have hcovers : (Block.Covers ⟨virt, bytes.map some⟩ x : Prop) ↔
      virt.toNat ≤ x.toNat ∧ x.toNat < virt.toNat + bytes.length := by
    show (x - virt).toNat < (bytes.map some).length ↔ _
    rw [List.length_map, BitVec.toNat_sub]
    unfold pageSize at *
    omega
  have hpage : (Block.Covers ⟨virt, bytes.map some⟩ x : Prop) → pathOf x = pathOf virt := by
    intro hin
    obtain ⟨hle, hlt⟩ := hcovers.mp hin
    rw [pathOf_eq_iff hx hvirt]
    unfold pageSize at *
    omega
  cases hold : v.walk r (pathOf x) with
  | none =>
    have hnot : ¬ (Block.Covers ⟨virt, bytes.map some⟩ x : Prop) := by
      intro hin
      rw [hpage hin, hwalk] at hold
      cases hold
    rw [write_of_not_covers hnot, userByte_none hold]
    exact userByte_none (hsame.trans hold)
  | some t =>
    obtain ⟨g, hg, rfl⟩ := h.exists_page hold
    rw [h'.userByte_eq hx (hsame.trans hold)]
    by_cases hpageEq : pathOf x = pathOf virt
    · -- the page that is written
      obtain rfl : f = g := by
        rw [hpageEq, hwalk] at hold
        exact Vmm.pageVirt_inj hf hg (Option.some.inj hold)
      have hdiv := (pathOf_eq_iff hx hvirt).mp hpageEq
      by_cases hin : (Block.Covers ⟨virt, bytes.map some⟩ x : Prop)
      · obtain ⟨hle, hend⟩ := hcovers.mp hin
        obtain ⟨k, hk, hxk⟩ : ∃ k, k < bytes.length ∧ x.toNat % pageSize =
            virt.toNat % pageSize + k := by
          refine ⟨x.toNat - virt.toNat, by omega, ?_⟩
          unfold pageSize at *
          omega
        have hoff : (x - virt).toNat = k := by
          rw [BitVec.toNat_sub]
          unfold pageSize at *
          omega
        have hread := loadByte_memcpy bytes v.mem
          (v.pageVirt f + BitVec.ofNat 64 (virt.toNat % pageSize)) hk
          (by unfold pageSize at hlen; omega)
        rw [ByteMap.write, List.getD_eq_getElem?_getD, hoff, List.getElem?_map,
          List.getElem?_eq_getElem hk, hxk, BitVec.ofNat_add, ← BitVec.add_assoc, hmem]
        exact congrArg some hread
      · rw [write_of_not_covers hin, h.userByte_eq hx hold, hmem]
        refine congrArg some (loadByte_memcpy_of_ne bytes _ _ fun k hk heq => hin ?_)
        have hoff : v.pageVirt f + BitVec.ofNat 64 (x.toNat % pageSize) =
            v.pageVirt f + BitVec.ofNat 64 (virt.toNat % pageSize + k) := by
          rw [BitVec.ofNat_add, ← BitVec.add_assoc]
          exact heq
        have hnat := congrArg BitVec.toNat ((BitVec.add_right_inj _).mp hoff)
        rw [BitVec.toNat_ofNat, BitVec.toNat_ofNat] at hnat
        rw [hcovers]
        unfold pageSize at *
        omega
    · have hne : g ≠ f := by
        rintro rfl
        -- two pages with the same frame
        exact hpageEq (h.distinct _ _ _ hpathVirt hpath rfl hwalk hold).symm
      have hnot : ¬ (Block.Covers ⟨virt, bytes.map some⟩ x : Prop) := fun hin => hpageEq (hpage hin)
      rw [write_of_not_covers hnot, h.userByte_eq hx hold]
      exact congrArg some (loadByte_page h.hhdm hg mem
        (fun a ha => hwithin.mem_of_ne hf hg hne ha) hlt)

/-! ### One turn of the loop -/

section Turn

/-- The first page of a copy to mapped addresses. -/
theorem UserMapped.first (hmapped : UserMapped v r virt src.length) (hsrc : src ≠ []) :
    virt.toNat < 2 ^ 47 ∧ v.walk r (pathOf virt) ≠ none := by
  have hfirst := hmapped 0 (List.length_pos_iff.mpr hsrc)
  rwa [BitVec.add_zero, Nat.add_zero] at hfirst

theorem length_take_room (virt : Word) (src : List Byte) :
    virt.toNat % pageSize + (src.take (roomInPage virt)).length ≤ pageSize := by
  have hmod : virt.toNat % pageSize < pageSize := Nat.mod_lt _ (by decide)
  rw [List.length_take, roomInPage]
  omega

variable (h : DistinctFrames v r) (hmapped : UserMapped v r virt src.length) (hsrc : src ≠ [])
include h hmapped hsrc

/-- A turn leaves the translation as it is. -/
theorem memcpyPage_walk : DistinctFrames (memcpyPage v r virt src) r ∧
    ∀ ρ, TablePath 4 ρ → (memcpyPage v r virt src).walk r ρ = v.walk r ρ := by
  obtain ⟨hvirt, hfirst⟩ := hmapped.first hsrc
  obtain ⟨f, hf, hwalk, -⟩ := h.exists_frame hvirt hfirst
  refine h.write_frame (tablePath_pathOf (userHalf_of_lt hvirt)) rfl hwalk hf ?_
  rw [physToVirt_vmmGetPhysAddr hwalk]
  exact changesWithin_memcpy h.hhdm hf _ _ (length_take_room virt src)

/-- A turn, as a program sees it. -/
theorem memcpyPage_userByte (hx : x.toNat < 2 ^ 47) :
    userByte (memcpyPage v r virt src) r x =
      write (userByte v r) ⟨virt, (src.take (roomInPage virt)).map some⟩ x := by
  obtain ⟨hvirt, hfirst⟩ := hmapped.first hsrc
  obtain ⟨f, hf, hwalk, -⟩ := h.exists_frame hvirt hfirst
  refine h.userByte_memcpy hwalk hf hvirt (length_take_room virt src) hx ?_
  rw [physToVirt_vmmGetPhysAddr hwalk]

omit h hsrc in
/-- The addresses that are left. -/
theorem UserMapped.rest {k : ℕ} (hk : k < (src.drop (roomInPage virt)).length) :
    (virt + BitVec.ofNat 64 (roomInPage virt)).toNat = virt.toNat + roomInPage virt ∧
      virt + BitVec.ofNat 64 (roomInPage virt) + BitVec.ofNat 64 k =
        virt + BitVec.ofNat 64 (roomInPage virt + k) ∧
      roomInPage virt + k < src.length ∧
      (virt + BitVec.ofNat 64 (roomInPage virt + k)).toNat < 2 ^ 47 := by
  rw [List.length_drop] at hk
  have hlt := (hmapped (roomInPage virt + k) (by omega)).1
  refine ⟨?_, ?_, by omega, ?_⟩
  · rw [BitVec.toNat_add, BitVec.toNat_ofNat]
    omega
  · rw [BitVec.add_assoc, ← BitVec.ofNat_add]
  · rw [BitVec.toNat_add, BitVec.toNat_ofNat]
    omega

/-- They are mapped as before. -/
theorem memcpyPage_mapped : UserMapped (memcpyPage v r virt src) r
    (virt + BitVec.ofNat 64 (roomInPage virt)) (src.drop (roomInPage virt)).length := by
  intro k hk
  obtain ⟨hnat, haddr, hlt, huser⟩ := hmapped.rest hk
  obtain ⟨hle, hwalk⟩ := hmapped _ hlt
  refine ⟨by omega, ?_⟩
  rwa [haddr, (memcpyPage_walk h hmapped hsrc).2 _ (tablePath_pathOf (userHalf_of_lt huser))]

/-- The addresses of the first page follow each other in memory. -/
theorem physToVirt_first {k : ℕ} (hk : k < (src.take (roomInPage virt)).length) :
    v.physToVirt (vmmGetPhysAddr v r (virt + BitVec.ofNat 64 k)) =
      v.physToVirt (vmmGetPhysAddr v r virt) + BitVec.ofNat 64 k := by
  obtain ⟨hvirt, hfirst⟩ := hmapped.first hsrc
  obtain ⟨f, hf, hwalk, -⟩ := h.exists_frame hvirt hfirst
  have hlen := length_take_room virt src
  have hlt : virt.toNat + k < 2 ^ 47 := by
    rw [List.length_take] at hk
    exact (hmapped k (by omega)).1
  have hnat : (virt + BitVec.ofNat 64 k).toNat = virt.toNat + k := by
    rw [BitVec.toNat_add, BitVec.toNat_ofNat]
    omega
  have hpage : pathOf (virt + BitVec.ofNat 64 k) = pathOf virt := by
    rw [pathOf_eq_iff (hnat ▸ hlt) hvirt, hnat]
    unfold pageSize at *
    omega
  have hmod : (virt.toNat + k) % pageSize = virt.toNat % pageSize + k := by
    unfold pageSize at *
    omega
  rw [physToVirt_vmmGetPhysAddr hwalk, physToVirt_vmmGetPhysAddr (hpage ▸ hwalk), hnat, hmod,
    BitVec.ofNat_add, BitVec.add_assoc]

end Turn

/-! ### The whole copy -/

/-- A user address is translated by the walk through the tables. -/
theorem DistinctFrames.vmmGetPhysAddr_congr (h : DistinctFrames v r) (hhdm : v'.hhdm = v.hhdm)
    (hsame : v'.walk r (pathOf x) = v.walk r (pathOf x)) :
    vmmGetPhysAddr v' r x = vmmGetPhysAddr v r x := by
  cases hwalk : v.walk r (pathOf x) with
  | none => rw [vmmGetPhysAddr_none hwalk, vmmGetPhysAddr_none (hsame.trans hwalk)]
  | some t =>
    obtain ⟨f, -, rfl⟩ := h.exists_page hwalk
    have hwalk' : v'.walk r (pathOf x) = some (v'.pageVirt f) := by
      rw [hsame, hwalk, Vmm.pageVirt_congr hhdm]
    rw [vmmGetPhysAddr_some hwalk, vmmGetPhysAddr_some hwalk']

/-- A copy to mapped addresses is a write to user memory. -/
theorem MemcpyReturns.userByte (hret : MemcpyReturns r v virt src v') (h : DistinctFrames v r)
    (hmapped : UserMapped v r virt src.length) (hx : x.toNat < 2 ^ 47) :
    userByte v' r x = write (Memory.userByte v r) ⟨virt, src.map some⟩ x := by
  induction hret with
  | copied => rfl
  | unmapped hsrc hphys =>
    obtain ⟨hvirt, hfirst⟩ := hmapped.first hsrc
    obtain ⟨-, -, -, hne⟩ := h.exists_frame hvirt hfirst
    exact absurd hphys hne
  | @page v v' virt src hsrc _ _ ih =>
    have hrest := memcpyPage_mapped h hmapped hsrc
    rw [ih (memcpyPage_walk h hmapped hsrc).1 hrest,
      write_congr (memcpyPage_userByte h hmapped hsrc hx)]
    -- the pages follow each other
    by_cases hmore : src.length ≤ roomInPage virt
    · rw [List.drop_eq_nil_of_le hmore, List.take_of_length_le hmore]
      rfl
    · have htake : ((src.take (roomInPage virt)).map (some : Byte → Option Byte)).length =
          roomInPage virt := by
        rw [List.length_map, List.length_take]
        omega
      have hlast := (hmapped (src.length - 1) (by omega)).1
      have hboth : write (write (Memory.userByte v r)
          ⟨virt, (src.take (roomInPage virt)).map some⟩)
          ⟨virt + BitVec.ofNat 64 ((src.take (roomInPage virt)).map some).length,
            (src.drop (roomInPage virt)).map some⟩ x = write (Memory.userByte v r)
          ⟨virt, (src.take (roomInPage virt)).map some ++ (src.drop (roomInPage virt)).map some⟩
            x := by
        refine write_write ?_
        rw [htake, List.length_map, List.length_drop]
        omega
      rwa [htake, ← List.map_append, List.take_append_drop] at hboth

/-- A copy to mapped addresses changes the bytes there, and no other byte of memory. -/
theorem MemcpyReturns.others (hret : MemcpyReturns r v virt src v') (h : DistinctFrames v r)
    (hmapped : UserMapped v r virt src.length) (hne : ∀ k < src.length,
      a ≠ v.physToVirt (vmmGetPhysAddr v r (virt + BitVec.ofNat 64 k))) :
    loadByte v'.mem a = loadByte v.mem a := by
  induction hret with
  | copied => rfl
  | unmapped => rfl
  | @page v v' virt src hsrc _ _ ih =>
    obtain ⟨h', hwalk⟩ := memcpyPage_walk h hmapped hsrc
    have hrest := ih h' (memcpyPage_mapped h hmapped hsrc) fun k hk => ?_
    · rw [hrest]
      refine loadByte_memcpy_of_ne _ _ _ fun k hk => ?_
      rw [← physToVirt_first h hmapped hsrc hk]
      exact hne k (hk.trans_le (List.length_take_le' _ _))
    · obtain ⟨-, haddr, hlt, huser⟩ := hmapped.rest hk
      have hsame := hwalk _ (tablePath_pathOf (userHalf_of_lt huser))
      have hphys : vmmGetPhysAddr (memcpyPage v r virt src) r _ = vmmGetPhysAddr v r _ :=
        h.vmmGetPhysAddr_congr rfl hsame
      rw [haddr, hphys]
      exact hne _ hlt

/-- A copy to mapped addresses is a write to user memory. -/
theorem vmmMemcpyToUserspace_userByte (h : DistinctFrames v r)
    (hmapped : UserMapped v r virt src.length) (hx : x.toNat < 2 ^ 47) :
    userByte (vmmMemcpyToUserspace v r virt src) r x =
      write (userByte v r) ⟨virt, src.map some⟩ x :=
  (memcpyLoop_returns r src.length le_rfl).userByte h hmapped hx

/-- The loop returns, the bytes are read at the user addresses, and every other byte of memory is as
before. -/
theorem copied_to_userspace (h : DistinctFrames v r) (hmapped : UserMapped v r virt src.length) :
    MemcpyReturns r v virt src (vmmMemcpyToUserspace v r virt src) ∧
    (∀ k (hk : k < src.length), userByte (vmmMemcpyToUserspace v r virt src) r
      (virt + BitVec.ofNat 64 k) = some (src.get ⟨k, hk⟩)) ∧
    ∀ a, (∀ k < src.length, a ≠ v.physToVirt (vmmGetPhysAddr v r (virt + BitVec.ofNat 64 k))) →
      loadByte (vmmMemcpyToUserspace v r virt src).mem a = loadByte v.mem a := by
  have hret : MemcpyReturns r v virt src (vmmMemcpyToUserspace v r virt src) :=
    memcpyLoop_returns r src.length le_rfl
  refine ⟨hret, fun k hk => ?_, fun a hne => hret.others h hmapped hne⟩
  have hlast := (hmapped (src.length - 1) (by omega)).1
  have hoff : (virt + BitVec.ofNat 64 k - virt).toNat = k := by
    rw [BitVec.add_comm, BitVec.add_sub_cancel, BitVec.toNat_ofNat]
    omega
  have huser : (virt + BitVec.ofNat 64 k).toNat < 2 ^ 47 := by
    have hlt := (hmapped k hk).1
    rw [BitVec.toNat_add, BitVec.toNat_ofNat]
    omega
  rw [hret.userByte h hmapped huser, ByteMap.write, List.getD_eq_getElem?_getD, hoff,
    List.getElem?_map, List.getElem?_eq_getElem hk]
  rfl

end UserCopy

/-! ### Two pages that are far apart in memory -/

section Small

/-- The cells of the tables: the first user page is frame 9, and the second is frame 6. -/
def scatteredCells : List (Word × Word) :=
  [(0xFFFF800000002000, 0x3007), (0xFFFF800000003000, 0x4007), (0xFFFF800000004000, 0x5007),
    (0xFFFF800000005000, 0x9007), (0xFFFF800000005008, 0x6007)]

def scattered : Vmm := { smallVmm with mem := fun a => (scatteredCells.lookup a).getD 0 }

/-- The paths of the tables and frames. -/
def scatteredPaths : List (List ℕ × Word) :=
  [([], 0xFFFF800000002000), ([0], 0xFFFF800000003000), ([0, 0], 0xFFFF800000004000),
    ([0, 0, 0], 0xFFFF800000005000), ([0, 0, 0, 0], 0xFFFF800000009000),
    ([0, 0, 0, 1], 0xFFFF800000006000)]

/-- The children of the tables. -/
theorem scattered_nextLevel {p i : ℕ} {t : Word} (hp : p < 64) (hi : i < 512)
    (h : scattered.nextLevel (scattered.pageVirt p) i = some t) :
    p = 2 ∧ i = 0 ∧ t = scattered.pageVirt 3 ∨ p = 3 ∧ i = 0 ∧ t = scattered.pageVirt 4 ∨
      p = 4 ∧ i = 0 ∧ t = scattered.pageVirt 5 ∨ p = 5 ∧ i = 0 ∧ t = scattered.pageVirt 9 ∨
      p = 5 ∧ i = 1 ∧ t = scattered.pageVirt 6 := by
  have haddr : (Vmm.entryAddr (scattered.pageVirt p) i).toNat =
      0xFFFF800000000000 + p * 4096 + 8 * i := by
    rw [Vmm.entryAddr, Vmm.pageVirt, Vmm.physToVirt, BitVec.toNat_add, BitVec.toNat_add,
      pageAddr_toNat (by omega), BitVec.toNat_ofNat,
      show scattered.hhdm.toNat = 0xFFFF800000000000 from rfl]
    unfold pageSize
    omega
  generalize hx : Vmm.entryAddr (scattered.pageVirt p) i = x at haddr
  rw [Vmm.nextLevel, Vmm.entry, hx] at h
  split_ifs at h with habsent
  obtain rfl := Option.some.inj h
  -- the cell is one of the list
  have hcell : ∃ e, (x, e) ∈ scatteredCells ∧ scattered.mem x = e := by
    show ∃ e, (x, e) ∈ scatteredCells ∧ (scatteredCells.lookup x).getD 0 = e
    cases hlookup : scatteredCells.lookup x with
    | none =>
      have hzero : scattered.mem x = 0 := by
        show (scatteredCells.lookup x).getD 0 = 0
        rw [hlookup]
        rfl
      rw [hzero] at habsent
      exact absurd (by decide) habsent
    | some e =>
      obtain ⟨l, l', hcells, -⟩ := List.lookup_eq_some_iff.mp hlookup
      exact ⟨e, hcells ▸ by simp, rfl⟩
  obtain ⟨e, hmem, he⟩ := hcell
  rw [he]
  simp only [scatteredCells, List.mem_cons, Prod.mk.injEq, List.not_mem_nil, or_false] at hmem
  rcases hmem with ⟨rfl, rfl⟩ | ⟨rfl, rfl⟩ | ⟨rfl, rfl⟩ | ⟨rfl, rfl⟩ | ⟨rfl, rfl⟩
  · exact .inl ⟨by simp at haddr; omega, by simp at haddr; omega, by decide⟩
  · exact .inr (.inl ⟨by simp at haddr; omega, by simp at haddr; omega, by decide⟩)
  · exact .inr (.inr (.inl ⟨by simp at haddr; omega, by simp at haddr; omega, by decide⟩))
  · exact .inr (.inr (.inr (.inl ⟨by simp at haddr; omega, by simp at haddr; omega, by decide⟩)))
  · exact .inr (.inr (.inr (.inr ⟨by simp at haddr; omega, by simp at haddr; omega, by decide⟩)))

theorem scattered_walk_cons {p i : ℕ} {π : List ℕ} {t : Word} (hp : p < 64)
    (hindex : ∀ j ∈ i :: π, j < 512)
    (h : scattered.walk (scattered.pageVirt p) (i :: π) = some t) :
    ∃ q, (p = 2 ∧ i = 0 ∧ q = 3 ∨ p = 3 ∧ i = 0 ∧ q = 4 ∨ p = 4 ∧ i = 0 ∧ q = 5 ∨
      p = 5 ∧ i = 0 ∧ q = 9 ∨ p = 5 ∧ i = 1 ∧ q = 6) ∧
      scattered.walk (scattered.pageVirt q) π = some t ∧ ∀ j ∈ π, j < 512 := by
  rw [Vmm.walk, walk_cons] at h
  obtain ⟨t', hnext, h⟩ := Option.bind_eq_some_iff.mp h
  have hrest := fun j hj => hindex j (List.mem_cons_of_mem i hj)
  rcases scattered_nextLevel hp (hindex i List.mem_cons_self) hnext with
    ⟨hpq, hi, rfl⟩ | ⟨hpq, hi, rfl⟩ | ⟨hpq, hi, rfl⟩ | ⟨hpq, hi, rfl⟩ | ⟨hpq, hi, rfl⟩
  · exact ⟨3, by omega, h, hrest⟩
  · exact ⟨4, by omega, h, hrest⟩
  · exact ⟨5, by omega, h, hrest⟩
  · exact ⟨9, by omega, h, hrest⟩
  · exact ⟨6, by omega, h, hrest⟩

/-- A walk through the tables. -/
theorem scattered_walk {π : List ℕ} {t : Word} (hπ : TablePath 4 π)
    (h : scattered.walk (scattered.pageVirt 2) π = some t) : (π, t) ∈ scatteredPaths := by
  obtain ⟨-, hindex, -⟩ := hπ
  rcases π with _ | ⟨a, π⟩
  · obtain rfl := Option.some.inj h
    decide
  obtain ⟨q₁, hq₁, h₁, hindex₁⟩ := scattered_walk_cons (by decide) hindex h
  obtain ⟨rfl, rfl⟩ : a = 0 ∧ q₁ = 3 := by omega
  rcases π with _ | ⟨b, π⟩
  · obtain rfl := Option.some.inj h₁
    decide
  obtain ⟨q₂, hq₂, h₂, hindex₂⟩ := scattered_walk_cons (by decide) hindex₁ h₁
  obtain ⟨rfl, rfl⟩ : b = 0 ∧ q₂ = 4 := by omega
  rcases π with _ | ⟨c, π⟩
  · obtain rfl := Option.some.inj h₂
    decide
  obtain ⟨q₃, hq₃, h₃, hindex₃⟩ := scattered_walk_cons (by decide) hindex₂ h₂
  obtain ⟨rfl, rfl⟩ : c = 0 ∧ q₃ = 5 := by omega
  rcases π with _ | ⟨d, π⟩
  · obtain rfl := Option.some.inj h₃
    decide
  obtain ⟨q₄, hq₄, h₄, hindex₄⟩ := scattered_walk_cons (by decide) hindex₃ h₃
  -- the frames are not tables
  rcases π with _ | ⟨e, π⟩
  · obtain ⟨rfl, rfl⟩ | ⟨rfl, rfl⟩ : d = 0 ∧ q₄ = 9 ∨ d = 1 ∧ q₄ = 6 := by omega
    · obtain rfl := Option.some.inj h₄
      decide
    · obtain rfl := Option.some.inj h₄
      decide
  · obtain ⟨q₅, hq₅, -, -⟩ := scattered_walk_cons (by omega) hindex₄ h₄
    omega

theorem scattered_distinct : DistinctFrames scattered (scattered.pageVirt 2) where
  hhdm := by decide
  root := ⟨2, by decide, rfl⟩
  distinct π ρ t hπ hρ _ ht ht' := by
    have hnodup : (scatteredPaths.map Prod.snd).Nodup := by decide
    exact congrArg Prod.fst
      (List.inj_on_of_nodup_map hnodup (scattered_walk hπ ht) (scattered_walk hρ ht') rfl)
  nonzero π hπ _ ht := by
    have hall : ∀ x ∈ scatteredPaths, x.2 ≠ scattered.pageVirt 0 := by decide
    exact hall _ (scattered_walk hπ ht) rfl

def scatteredCopy : Vmm :=
  vmmMemcpyToUserspace scattered (scattered.pageVirt 2) 0xFFF [1, 2, 3]

/-- Three bytes, the last two of them on the second page. -/
theorem copied_to_scattered :
    userByte scatteredCopy (scattered.pageVirt 2) (0xFFF + BitVec.ofNat 64 0) = some 1 ∧
      userByte scatteredCopy (scattered.pageVirt 2) (0xFFF + BitVec.ofNat 64 1) = some 2 ∧
      userByte scatteredCopy (scattered.pageVirt 2) (0xFFF + BitVec.ofNat 64 2) = some 3 := by
  have hmapped : UserMapped scattered (scattered.pageVirt 2) 0xFFF [(1 : Byte), 2, 3].length := by
    unfold UserMapped
    decide
  have hcopied := (copied_to_userspace scattered_distinct hmapped).2.1
  exact ⟨hcopied 0 (by decide), hcopied 1 (by decide), hcopied 2 (by decide)⟩

end Small

end KyroOS.Memory

import KyroOS.Elf.Load
import KyroOS.Memory.Filling

/-!
# The pages of a program

Loading a program whose segments lie in the user half takes frames and tables for one address
space and does nothing else to memory.

## Main definitions

* `SegmentsInUserHalf` — no page of a segment is mapped above the user half
* `HasSegmentPages` — some segment has a page

## Main results

* `elfLoad_fills` — the pages that a load takes
-/

namespace KyroOS.Elf

open KyroOS.Memory

/-- The pages of the segments are mapped at addresses of the user half. -/
def SegmentsInUserHalf (image : Image) : Prop :=
  ∀ i ∈ List.range image.ehdr.phnum.toNat, (image.phdr i).type = ptLoad →
    ∀ j ∈ pageOffsets (image.phdr i), UserHalf ((image.phdr i).vaddr + j)

/-- Some segment is loaded that takes a page. -/
def HasSegmentPages (image : Image) : Prop :=
  image.ehdr.Accepted ∧
    ∃ i ∈ List.range image.ehdr.phnum.toNat, (image.phdr i).type = ptLoad ∧ (image.phdr i).memsz ≠ 0

section Load

variable {v v' : Vmm} {roots : Set Word} {r virt flags : Word} {data : List Byte} {image : Image}
  {ph : Elf64Phdr} {result : LoadResult}

theorem pageFlags_present (ph : Elf64Phdr) : pageFlags ph &&& pagePresent = pagePresent := by
  unfold pageFlags
  dsimp only
  split_ifs <;> decide

theorem pageFlags_mask (ph : Elf64Phdr) : pageFlags ph &&& physicalAddrMask = 0 := by
  unfold pageFlags
  dsimp only
  split_ifs <;> decide

theorem length_pageData (image : Image) (ph : Elf64Phdr) (j : Word) :
    (pageData image ph j).length ≤ pageSize := by
  unfold pageData
  dsimp only
  split_ifs
  · rw [List.length_map, List.length_range]
    exact min_le_left _ _
  · exact Nat.zero_le _

theorem pageOffsets_ne_nil (ph : Elf64Phdr) : pageOffsets ph ≠ [] ↔ ph.memsz ≠ 0 := by
  have hzero : ph.memsz = 0 ↔ ph.memsz.toNat = 0 :=
    ⟨fun h => by rw [h]; rfl, fun h => BitVec.eq_of_toNat_eq h⟩
  rw [pageOffsets, ne_eq, List.map_eq_nil_iff, List.range_eq_nil, ne_eq, hzero]
  unfold pageSize
  omega

/-- One page: a frame is allocated, mapped and written. -/
theorem loadPage_fills (h : SpacesInv 4 v roots) (hr : r ∈ roots) (huser : UserHalf virt)
    (hpresent : flags &&& pagePresent = pagePresent) (hflags : flags &&& physicalAddrMask = 0)
    (hlen : data.length ≤ pageSize) (hok : loadPage v r virt flags data = .ok v') :
    ∃ f, Fills roots r v v' {f} := by
  unfold loadPage at hok
  obtain ⟨pmm, page, halloc⟩ : ∃ pmm page, pmmAllocPage v.pmm = (pmm, page) := ⟨_, _, rfl⟩
  rw [halloc] at hok
  dsimp only at hok
  split_ifs at hok with hzero
  · cases hok
  obtain ⟨v₁, hmap, hcopy⟩ := Outcome.bind_eq_ok.mp hok
  obtain rfl := Except.ok.inj hcopy
  have hclear : ∀ f, page = pageAddr f →
      ChangesWithin v {f} (memsetZero v.mem (v.physToVirt page) pageSize) := by
    rintro f rfl
    exact changesWithin_memsetZero v f
  obtain ⟨f, rfl, hfills, hwalk, -⟩ :=
    fills_mapFrame h hr huser hpresent hflags halloc hzero hclear hmap
  -- the frame is mapped by now, and the copy stays within it
  have hf : f < v₁.pmm.totalPages := hfills.totalPages ▸ (hfills.frames_fresh f rfl).1
  have hvirt : v₁.pageVirt f = v.pageVirt f := Vmm.pageVirt_congr hfills.hhdm f
  have hpath := tablePath_pathOf huser
  rw [← hvirt] at hwalk
  have hdst : v₁.physToVirt (pageAddr f) = v₁.pageVirt f + BitVec.ofNat 64 0 :=
    (BitVec.add_zero _).symm
  have hwithin := changesWithin_memcpy hfills.inv.hhdm (hfills.inv.lt_of_lt_totalPages hf) 0 data
    (by rwa [Nat.zero_add])
  rw [← hdst] at hwithin
  have hkeeps := hfills.inv.writes hwithin (by
    rintro g rfl
    exact ⟨hf, hfills.inv.frame_notMem_tables hr hpath rfl hwalk⟩) (by
    rintro g rfl
    exact .inl (SpacesInv.mem_nodes hr hpath hwalk))
  refine ⟨f, ?_⟩
  rw [← Set.union_empty {f}]
  exact hfills.trans (hkeeps.fills hfills.inv hr)

/-- With free pages enough a page is loaded. -/
theorem loadPage_room {v : Vmm} {n : ℕ} (hres : v.pmm.Reserves) (h : v.pmm.Room (n + 4))
    (r virt flags : Word) (data : List Byte) :
    ∃ v', loadPage v r virt flags data = .ok v' ∧ v'.pmm.Reserves ∧ v'.pmm.Room n := by
  obtain ⟨pmm, page, halloc, hpage, hres', hroom⟩ := pmmAllocPage_room (n := n + 3) hres h
  obtain ⟨v₁, hmap, hres₁, hroom₁⟩ := vmmMapPage_ok
    (v := { v with pmm, mem := memsetZero v.mem (v.physToVirt page) pageSize }) hres' hroom r virt
    page flags
  refine ⟨{ v₁ with mem := memcpy v₁.mem (v₁.physToVirt page) data }, ?_, hres₁, hroom₁⟩
  unfold loadPage
  rw [halloc]
  dsimp only
  rw [if_neg hpage]
  exact Outcome.bind_eq_ok.mpr ⟨v₁, hmap, rfl⟩

/-- A segment in the user half. -/
theorem loadSegment_fills (h : SpacesInv 4 v roots) (hr : r ∈ roots)
    (huser : ∀ j ∈ pageOffsets ph, UserHalf (ph.vaddr + j))
    (hok : loadSegment image ph r v = .ok v') :
    ∃ F, Fills roots r v v' F ∧ (F.Nonempty ↔ ph.memsz ≠ 0) := by
  have hstep : ∀ w j w', j ∈ pageOffsets ph → SpacesInv 4 w roots →
      loadPage w r (ph.vaddr + j) (pageFlags ph) (pageData image ph j) = .ok w' →
        ∃ F, Fills roots r w w' F ∧ (F.Nonempty ↔ True) := by
    intro w j w' hj hw hpage
    obtain ⟨f, hfills⟩ := loadPage_fills hw hr (huser j hj) (pageFlags_present ph)
      (pageFlags_mask ph) (length_pageData image ph j) hpage
    exact ⟨{f}, hfills, by simp⟩
  obtain ⟨F, hfills, hF⟩ := fills_foldlM hr hstep h hok
  refine ⟨F, hfills, ?_⟩
  rw [hF, ← pageOffsets_ne_nil]
  constructor
  · rintro ⟨j, hj, -⟩
    exact List.ne_nil_of_mem hj
  · intro hne
    obtain ⟨j, hj⟩ := List.exists_mem_of_ne_nil _ hne
    exact ⟨j, hj, trivial⟩

/-- The loop over the program headers. -/
theorem loadHeaders_fills (hr : r ∈ roots) (is : List ℕ)
    (huser : ∀ i ∈ is, (image.phdr i).type = ptLoad →
      ∀ j ∈ pageOffsets (image.phdr i), UserHalf ((image.phdr i).vaddr + j))
    {s s' : Vmm × Word} (h : SpacesInv 4 s.1 roots)
    (hok : is.foldlM (loadHeader image r) s = .ok s') :
    ∃ F, Fills roots r s.1 s'.1 F ∧
      (F.Nonempty ↔ ∃ i ∈ is, (image.phdr i).type = ptLoad ∧ (image.phdr i).memsz ≠ 0) := by
  induction is generalizing s with
  | nil =>
    obtain rfl := Except.ok.inj hok
    exact ⟨∅, Fills.refl h hr, by simp⟩
  | cons i is ih =>
    rw [List.foldlM_cons] at hok
    obtain ⟨s₁, hi, hrest⟩ := Outcome.bind_eq_ok.mp hok
    have hturn : ∃ F, Fills roots r s.1 s₁.1 F ∧
        (F.Nonempty ↔ (image.phdr i).type = ptLoad ∧ (image.phdr i).memsz ≠ 0) := by
      by_cases htype : (image.phdr i).type = ptLoad
      · rw [loadHeader, if_pos htype] at hi
        obtain ⟨v₁, hload, hs₁⟩ := Outcome.bind_eq_ok.mp hi
        obtain rfl := Except.ok.inj hs₁
        obtain ⟨F, hfills, hF⟩ := loadSegment_fills h hr (huser i List.mem_cons_self htype) hload
        exact ⟨F, hfills, by rw [hF, and_iff_right htype]⟩
      · rw [loadHeader, if_neg htype] at hi
        obtain rfl := Except.ok.inj hi
        exact ⟨∅, Fills.refl h hr, by simp [htype]⟩
    obtain ⟨F, hfills, hF⟩ := hturn
    obtain ⟨F', hfills', hF'⟩ := ih (fun i' hi' => huser i' (List.mem_cons_of_mem i hi'))
      hfills.inv hrest
    refine ⟨F ∪ F', hfills.trans hfills', ?_⟩
    rw [Set.union_nonempty, hF, hF', List.exists_mem_cons_iff]

/-- A load takes frames for the segments, with the tables that map them. -/
theorem elfLoad_fills (h : SpacesInv 4 v roots) (hr : r ∈ roots)
    (huser : image.ehdr.Accepted → SegmentsInUserHalf image)
    (hok : elfLoad v r image = .ok (v', result)) :
    ∃ F, Fills roots r v v' F ∧ (F.Nonempty ↔ HasSegmentPages image) := by
  unfold elfLoad at hok
  dsimp only at hok
  split_ifs at hok with hacc
  · obtain ⟨s, hloop, hs⟩ := Outcome.bind_eq_ok.mp hok
    obtain ⟨rfl, rfl⟩ := Prod.mk.inj (Except.ok.inj hs)
    obtain ⟨F, hfills, hF⟩ := loadHeaders_fills hr _ (huser hacc) (s := (v, 0)) h hloop
    exact ⟨F, hfills, by rw [hF, HasSegmentPages, and_iff_right hacc]⟩
  · obtain ⟨rfl, rfl⟩ := Prod.mk.inj (Except.ok.inj hok)
    exact ⟨∅, Fills.refl h hr, by simp [HasSegmentPages, hacc]⟩

end Load

/-! ### Programs -/

/-- The lowest `n` bytes of a number, the lowest first. -/
def leBytes (n : ℕ) (x : ℕ) : List Byte := (List.range n).map fun i => BitVec.ofNat 8 (x / 256 ^ i)

/-- A program header in a file. -/
def Elf64Phdr.bytes (ph : Elf64Phdr) : List Byte :=
  leBytes 4 ph.type.toNat ++ leBytes 4 ph.flags.toNat ++ leBytes 8 ph.offset.toNat ++
    leBytes 8 ph.vaddr.toNat ++ leBytes 8 0 ++ leBytes 8 ph.filesz.toNat ++
    leBytes 8 ph.memsz.toNat ++ leBytes 8 0

/-- A program of an ELF header, program headers and `data`. -/
def program (entry : Word) (phs : List Elf64Phdr) (data : List Byte) : Image := fun off =>
  ([0x7f, 0x45, 0x4c, 0x46, 2, 1, 1, 0] ++ leBytes 8 0 ++ leBytes 2 2 ++ leBytes 2 0x3E ++
    leBytes 4 1 ++ leBytes 8 entry.toNat ++ leBytes 8 64 ++ leBytes 8 0 ++ leBytes 4 0 ++
    leBytes 2 64 ++ leBytes 2 56 ++ leBytes 2 phs.length ++ leBytes 6 0 ++
    phs.flatMap Elf64Phdr.bytes ++ data).getD off.toNat 0

end KyroOS.Elf

import KyroOS.Elf.Mapping
import KyroOS.Memory.FrameBytes

/-!
# The bytes of a loaded program

`elf_load` maps a fresh page for every 4096 bytes of a segment, counted from the start of the
segment, and copies to the start of the page. Where segments start inside of a page, or share
one, the page that is mapped last takes the place of the others.

## Main definitions

* `SegmentsLoaded` — the address space has the bytes of all segments
* `loadedPages`, `loadedByte` — the pages in the order of the loads, and the byte of the last one
* `PagesAgree` — the last pages have the bytes of the segments

## Main results

* `userByte_elfLoad` — the bytes of a new address space after a load
* `segmentsLoaded_iff` — the bytes are loaded just where the last pages agree
* `pagesAgree_of_aligned` — aligned segments without a common page do
* `not_segmentsLoaded` — a segment that starts inside of a page is not loaded
-/

namespace KyroOS.Elf

open KyroOS.Memory

/-! ### Segments and pages -/

/-- The byte at `k` of a segment: from the file, and 0 behind it. -/
def segmentByte (image : Image) (ph : Elf64Phdr) (k : ℕ) : Byte :=
  if k < ph.filesz.toNat then image (ph.offset + BitVec.ofNat 64 k) else 0

/-- The segments lie in the user half. -/
def SegmentsBelow (image : Image) : Prop :=
  ∀ i < image.ehdr.phnum.toNat, (image.phdr i).type = ptLoad →
    (image.phdr i).vaddr.toNat + (image.phdr i).memsz.toNat ≤ 2 ^ 47

/-- The segments do not overlap. -/
def Elf64Phdr.Apart (ph ph' : Elf64Phdr) : Prop :=
  ph.vaddr.toNat + ph.memsz.toNat ≤ ph'.vaddr.toNat ∨
    ph'.vaddr.toNat + ph'.memsz.toNat ≤ ph.vaddr.toNat

/-- No two segments overlap, and none has more bytes in the file than in memory. -/
def SegmentsApart (image : Image) : Prop :=
  ∀ i < image.ehdr.phnum.toNat, (image.phdr i).type = ptLoad →
    (image.phdr i).filesz ≤ (image.phdr i).memsz ∧
      ∀ j < image.ehdr.phnum.toNat, (image.phdr j).type = ptLoad → i ≠ j →
        (image.phdr i).Apart (image.phdr j)

/-- All bytes of the segments are at their addresses. -/
def SegmentsLoaded (v : Vmm) (r : Word) (image : Image) : Prop :=
  ∀ i < image.ehdr.phnum.toNat, (image.phdr i).type = ptLoad →
    ∀ k < (image.phdr i).memsz.toNat,
      userByte v r ((image.phdr i).vaddr + BitVec.ofNat 64 k) =
        some (segmentByte image (image.phdr i) k)

/-- The pages that are loaded, one after the other: the segment and the offset in it. -/
def loadedPages (image : Image) (is : List ℕ) : List (Elf64Phdr × Word) :=
  is.flatMap fun i =>
    if (image.phdr i).type = ptLoad then
      (pageOffsets (image.phdr i)).map fun j => (image.phdr i, j)
    else []

/-- The page that is loaded last at the page number `n`. -/
def lastLoaded (pages : List (Elf64Phdr × Word)) (n : ℕ) : Option (Elf64Phdr × Word) :=
  pages.reverse.find? fun x => pageIndex (x.1.vaddr + x.2) = n

/-- One page of the list is loaded. -/
def loadNext (image : Image) (r : Word) (v : Vmm) (x : Elf64Phdr × Word) : Outcome Vmm :=
  loadPage v r (x.1.vaddr + x.2) (pageFlags x.1) (pageData image x.1 x.2)

/-- The byte that the page loaded last has at an address. -/
def loadedByte (image : Image) (a : Word) : Option Byte :=
  (lastLoaded (loadedPages image (List.range image.ehdr.phnum.toNat)) (pageIndex a)).map fun x =>
    (pageData image x.1 x.2).getD (a.toNat % pageSize) 0

/-- At every address of a segment the page loaded last has the byte of the segment. -/
def PagesAgree (image : Image) : Prop :=
  ∀ i < image.ehdr.phnum.toNat, (image.phdr i).type = ptLoad →
    ∀ k < (image.phdr i).memsz.toNat,
      loadedByte image ((image.phdr i).vaddr + BitVec.ofNat 64 k) =
        some (segmentByte image (image.phdr i) k)

instance (image : Image) : Decidable (SegmentsBelow image) :=
  inferInstanceAs (Decidable (∀ i < _, _ → _))

instance (ph ph' : Elf64Phdr) : Decidable (ph.Apart ph') := inferInstanceAs (Decidable (_ ∨ _))

instance (image : Image) : Decidable (SegmentsApart image) :=
  inferInstanceAs (Decidable (∀ i < _, _ → _ ∧ ∀ j < _, _ → _ → _))

instance (image : Image) : Decidable (PagesAgree image) :=
  inferInstanceAs (Decidable (∀ i < _, _ → ∀ k < _, _ = _))

/-! ### Pages in memory -/

/-- A page of a program: its frame, and the bytes that were copied to it. -/
structure LoadedPage where
  frame : ℕ
  flags : Word
  data : List Byte

/-- What the address space `r` maps, and what the frames hold. -/
structure Holds (v : Vmm) (roots : Set Word) (r : Word) (m : ℕ → Option LoadedPage) : Prop where
  inv : SpacesInv 3 v roots
  refines : Refines v r fun n => (m n).map fun x => (pageAddr x.frame, x.flags)
  frame : ∀ n x, m n = some x → x.frame < v.pmm.totalPages ∧ x.frame ≠ 0 ∧
    v.Outside 3 roots x.frame
  bytes : ∀ n x, m n = some x → ∀ o < pageSize,
    loadByte v.mem (v.pageVirt x.frame + BitVec.ofNat 64 o) = x.data.getD o 0

section Holds

variable {v v₀ v' : Vmm} {roots : Set Word} {r a virt flags : Word} {m : ℕ → Option LoadedPage}
  {data : List Byte} {image : Image} {result : LoadResult}

/-- The bytes that a program reads. -/
theorem Holds.userByte (h : Holds v roots r m) (ha : a.toNat < 2 ^ 47) :
    userByte v r a = (m (pageIndex a)).map fun x => x.data.getD (a.toNat % pageSize) 0 := by
  have htranslate := h.refines.getPhysAddr ha
  rw [Memory.userByte, htranslate]
  cases hm : m (pageIndex a) with
  | none => exact if_pos rfl
  | some x =>
    obtain ⟨hlt, hne, hout⟩ := h.frame _ x hm
    have hmod : a.toNat % pageSize < pageSize := Nat.mod_lt _ (by decide)
    have hnonzero : pageAddr x.frame + BitVec.ofNat 64 (a.toNat % pageSize) ≠ 0 := by
      have hframe := pageAddr_toNat (hout.lt.trans (show 2 ^ 40 < 2 ^ 52 by decide))
      have hpos := Nat.pos_of_ne_zero hne
      have hlt' := hout.lt
      intro hzero
      have hval := congrArg BitVec.toNat hzero
      rw [BitVec.toNat_add, hframe, BitVec.toNat_ofNat] at hval
      have hval' : (x.frame * pageSize + a.toNat % pageSize % 2 ^ 64) % 2 ^ 64 = 0 := hval
      unfold pageSize at *
      omega
    have hphys : v.physToVirt (pageAddr x.frame + BitVec.ofNat 64 (a.toNat % pageSize)) =
        v.pageVirt x.frame + BitVec.ofNat 64 (a.toNat % pageSize) := by
      rw [Vmm.pageVirt, Vmm.physToVirt, Vmm.physToVirt, BitVec.add_assoc,
        BitVec.add_comm (BitVec.ofNat 64 _) v.hhdm, BitVec.add_assoc]
    show (if pageAddr x.frame + BitVec.ofNat 64 (a.toNat % pageSize) = 0 then none else _) = _
    rw [if_neg hnonzero]
    show some (loadByte v.mem (v.physToVirt
      (pageAddr x.frame + BitVec.ofNat 64 (a.toNat % pageSize)))) = _
    rw [hphys, h.bytes _ x hm _ hmod]
    rfl

/-- A frame is taken and cleared. -/
theorem Holds.alloc (h : Holds v roots r m) (hr : r ∈ roots) {pmm : Pmm} {page : Word}
    (halloc : pmmAllocPage v.pmm = (pmm, page)) (hpage : page ≠ 0) :
    ∃ f, page = pageAddr f ∧
      Holds { v with pmm, mem := memsetZero v.mem (v.pageVirt f) pageSize } roots r m ∧
      f < pmm.totalPages ∧ f ≠ 0 ∧
      ({ v with pmm, mem := memsetZero v.mem (v.pageVirt f) pageSize } : Vmm).Outside 3 roots f ∧
      (∀ n x, m n = some x → x.frame ≠ f) := by
  have hspec := pmmAllocPage_spec h.inv.reserves
  rw [halloc] at hspec
  cases hspec with
  | null _ => exact absurd rfl hpage
  | page f hlt hne hfree pmm hallocated htotal hreserves =>
    have hf := h.inv.lt_of_lt_totalPages hlt
    have hnot := h.inv.free_notMem_nodes hlt hfree
    have hother : ∀ n x, m n = some x → x.frame ≠ f := by
      rintro n x hx rfl
      exact hfree ((h.frame n x hx).2.2.allocated hlt)
    have hwithin := changesWithin_memsetZero v f
    obtain ⟨hinv, hwalk, hleaf⟩ := h.inv.write_outside hf hnot hwithin
    -- the allocator changes no walk
    have hinv' : SpacesInv 3 { v with pmm, mem := memsetZero v.mem (v.pageVirt f) pageSize } roots :=
      hinv.anti subset_rfl rfl rfl htotal hreserves (fun _ _ _ _ _ ht => ht)
        fun p _ hall _ => (hallocated p).mpr (.inr hall)
    have houtside : ∀ g, v.Outside 3 roots g →
        ({ v with pmm, mem := memsetZero v.mem (v.pageVirt f) pageSize } : Vmm).Outside 3 roots g :=
      fun g hg => hg.of_walk rfl htotal (fun p hall => (hallocated p).mpr (.inr hall)) hwalk
    refine ⟨f, rfl, ⟨hinv', ⟨fun a ha => ?_, h.refines.valid⟩, fun n x hx => ?_, ?_⟩, htotal ▸ hlt, hne,
      ⟨hf, fun _ => (hallocated f).mpr (.inl rfl), ?_⟩, hother⟩
    · rw [← h.refines.leaf a ha]
      exact hleaf r hr _ _ (tablePath_tablePathOf (userHalf_of_lt ha)) (ptIndex_lt a)
    · obtain ⟨hltx, hnex, houtx⟩ := h.frame n x hx
      exact ⟨htotal ▸ hltx, hnex, houtside _ houtx⟩
    · intro n x hx o ho
      have hx' := (h.frame n x hx).2.2.lt
      rw [← h.bytes n x hx o ho]
      exact loadByte_page h.inv.hhdm hx' (memsetZero v.mem (v.pageVirt f) pageSize)
        (fun a ha => hwithin.mem_of_ne hf hx' (hother n x hx) ha) ho
    · rintro ⟨r', hr', ρ, hρ, ht⟩
      exact hnot ⟨r', hr', ρ, hρ, (hwalk r' hr' ρ hρ).symm.trans ht⟩

/-- A frame is mapped and written: it takes the place of what was at the address. -/
theorem Holds.mapPage (h : Holds v roots r m) (hr : r ∈ roots) (hvirt : virt.toNat < 2 ^ 47)
    (hpresent : flags &&& pagePresent = pagePresent) (hflags : flags &&& physicalAddrMask = 0)
    (hlen : data.length ≤ pageSize) {f : ℕ} (hf : f < v.pmm.totalPages) (hne : f ≠ 0)
    (hout : v.Outside 3 roots f) (hother : ∀ n x, m n = some x → x.frame ≠ f)
    (hclear : ∀ o < pageSize, loadByte v.mem (v.pageVirt f + BitVec.ofNat 64 o) = 0)
    (hmap : vmmMapPage v r virt (pageAddr f) flags = .ok v') :
    Holds { v' with mem := memcpy v'.mem (v'.physToVirt (pageAddr f)) data } roots r
      (Function.update m (pageIndex virt) (some ⟨f, flags, data⟩)) := by
  have hlt := hout.lt
  have haddr := pageAddr_toNat (hlt.trans (show 2 ^ 40 < 2 ^ 52 by decide))
  have hvalid : (PageOp.map virt (pageAddr f) flags).Valid := by
    refine ⟨hvirt, ?_, ?_, hpresent, hflags⟩
    · rw [haddr]
      exact Nat.mul_mod_left f pageSize
    · rw [haddr]
      unfold pageSize
      omega
  obtain ⟨hinv, hrefines, -⟩ := PageOp.run_refines h.inv hr h.refines hvalid hmap
  obtain ⟨hspares, htotal⟩ := vmmMapPage_spares h.inv hr (userHalf_of_lt hvirt) hmap
  have houtside : ∀ g, v.Outside 3 roots g → v'.Outside 3 roots g :=
    fun g hg => hspares.outside g (Set.notMem_empty g) hg
  have hvirts : ∀ g, v'.pageVirt g = v.pageVirt g := Vmm.pageVirt_congr hspares.hhdm
  -- the pages outside of the tables are as before the mapping
  have hkept : ∀ g, v.Outside 3 roots g → ∀ o < pageSize,
      loadByte v'.mem (v'.pageVirt g + BitVec.ofNat 64 o) =
        loadByte v.mem (v.pageVirt g + BitVec.ofNat 64 o) := by
    intro g hg o ho
    rw [hvirts]
    exact loadByte_page h.inv.hhdm hg.lt _ (hspares.mem g (Set.notMem_empty g) hg) ho
  have hdst : v'.physToVirt (pageAddr f) = v'.pageVirt f + BitVec.ofNat 64 0 :=
    (BitVec.add_zero _).symm
  have hwithin := changesWithin_memcpy hinv.hhdm hlt 0 data (by rwa [Nat.zero_add])
  rw [← hdst] at hwithin
  obtain ⟨hinv', hwalk, hleaf⟩ := hinv.write_outside hlt (houtside f hout).notMem hwithin
  refine ⟨hinv', ⟨fun a ha => ?_, ?_⟩, ?_, ?_⟩
  · have hold := hrefines.leaf a ha
    have hleaf' := hleaf r hr _ _ (tablePath_tablePathOf (userHalf_of_lt ha)) (ptIndex_lt a)
    refine (hleaf'.trans hold).trans (congrArg leafOf ?_)
    rw [PageOp.apply, Function.update_apply, Function.update_apply]
    split_ifs <;> rfl
  · intro n phys flags' hn
    refine hrefines.valid n phys flags' ?_
    rw [PageOp.apply, Function.update_apply]
    rw [Function.update_apply] at hn
    split_ifs at hn ⊢ with hpage
    · exact hn
    · exact hn
  · intro n x hx
    have hfacts : x.frame < v.pmm.totalPages ∧ x.frame ≠ 0 ∧ v.Outside 3 roots x.frame := by
      rw [Function.update_apply] at hx
      split_ifs at hx
      · obtain rfl := Option.some.inj hx
        exact ⟨hf, hne, hout⟩
      · exact h.frame n x hx
    obtain ⟨hltx, hnex, houtx⟩ := hfacts
    exact ⟨htotal ▸ hltx, hnex, (houtside _ houtx).of_walk rfl rfl (fun _ hall => hall) hwalk⟩
  · intro n x hx o ho
    rw [Function.update_apply] at hx
    split_ifs at hx
    · -- the new page: what was copied, and zeros behind it
      obtain rfl := Option.some.inj hx
      show loadByte (memcpy v'.mem (v'.pageVirt f) data) (v'.pageVirt f + BitVec.ofNat 64 o) = _
      by_cases hin : o < data.length
      · rw [loadByte_memcpy data _ _ hin (by unfold pageSize at *; omega),
          List.getD_eq_getElem?_getD, List.getElem?_eq_getElem hin]
        rfl
      · rw [loadByte_memcpy_of_ne, hkept f hout o ho, hclear o ho,
          List.getD_eq_getElem?_getD, List.getElem?_eq_none (not_lt.mp hin)]
        · rfl
        · intro k hk heq
          have hval := congrArg BitVec.toNat ((BitVec.add_right_inj _).mp heq)
          rw [BitVec.toNat_ofNat, BitVec.toNat_ofNat] at hval
          unfold pageSize at *
          omega
    · have houtx := (h.frame n x hx).2.2
      rw [← h.bytes n x hx o ho, ← hkept x.frame houtx o ho]
      exact loadByte_page hinv.hhdm houtx.lt (memcpy v'.mem (v'.physToVirt (pageAddr f)) data)
        (fun a ha => hwithin.mem_of_ne hlt houtx.lt (hother n x hx) ha) ho

/-- A page is loaded. -/
theorem Holds.loadPage (h : Holds v roots r m) (hr : r ∈ roots) (hvirt : virt.toNat < 2 ^ 47)
    (hpresent : flags &&& pagePresent = pagePresent) (hflags : flags &&& physicalAddrMask = 0)
    (hlen : data.length ≤ pageSize) (hok : loadPage v r virt flags data = .ok v') :
    ∃ f, Holds v' roots r (Function.update m (pageIndex virt) (some ⟨f, flags, data⟩)) := by
  unfold Elf.loadPage at hok
  obtain ⟨pmm, page, halloc⟩ : ∃ pmm page, pmmAllocPage v.pmm = (pmm, page) := ⟨_, _, rfl⟩
  rw [halloc] at hok
  dsimp only at hok
  split_ifs at hok with hzero
  · cases hok
  obtain ⟨f, rfl, h₁, hlt, hne, hout₁, hother⟩ := h.alloc hr halloc hzero
  obtain ⟨v₂, hmap, hcopy⟩ := Outcome.bind_eq_ok.mp hok
  obtain rfl := Except.ok.inj hcopy
  exact ⟨f, h₁.mapPage hr hvirt hpresent hflags hlen hlt hne hout₁ hother
    (fun o ho => h.inv.loadByte_memsetZero hout₁.lt ho) hmap⟩

/-- Pages are loaded one after the other, and the last one at a page number stays. -/
theorem Holds.loadPages (h : Holds v roots r fun _ => none) (hr : r ∈ roots)
    (pages : List (Elf64Phdr × Word))
    (hbelow : ∀ x ∈ pages, (x.1.vaddr + x.2).toNat < 2 ^ 47)
    (hok : pages.foldlM (loadNext image r) v = .ok v') :
    ∃ m, Holds v' roots r m ∧ ∀ n,
      (m n).map LoadedPage.data = (lastLoaded pages n).map fun x => pageData image x.1 x.2 := by
  induction pages using List.reverseRecOn generalizing v' with
  | nil =>
    obtain rfl := Except.ok.inj hok
    exact ⟨_, h, fun _ => rfl⟩
  | append_singleton pages x ih =>
    rw [List.foldlM_append] at hok
    obtain ⟨v₁, hpages, hlast⟩ := Outcome.bind_eq_ok.mp hok
    rw [List.foldlM_cons] at hlast
    obtain ⟨v₂, hnext, hnil⟩ := Outcome.bind_eq_ok.mp hlast
    obtain rfl := Except.ok.inj hnil
    obtain ⟨m, hm, hdata⟩ := ih (fun y hy => hbelow y (List.mem_append_left _ hy)) hpages
    have hx := hbelow x (List.mem_append_right _ List.mem_cons_self)
    obtain ⟨f, hf⟩ := hm.loadPage hr hx (pageFlags_present x.1) (pageFlags_mask x.1)
      (length_pageData image x.1 x.2) hnext
    refine ⟨_, hf, fun n => ?_⟩
    rw [lastLoaded, List.reverse_append, List.reverse_singleton, List.singleton_append,
      List.find?_cons]
    by_cases hn : pageIndex (x.1.vaddr + x.2) = n
    · rw [hn, Function.update_self]
      simp
    · rw [Function.update_of_ne (Ne.symm hn), decide_eq_false hn]
      exact hdata n

/-- The loop over the program headers loads the pages one after the other. -/
theorem loadHeaders_eq (is : List ℕ) {s s' : Vmm × Word}
    (hok : is.foldlM (loadHeader image r) s = .ok s') :
    (loadedPages image is).foldlM (loadNext image r) s.1 = .ok s'.1 := by
  induction is generalizing s with
  | nil =>
    obtain rfl := Except.ok.inj hok
    rfl
  | cons i is ih =>
    rw [List.foldlM_cons] at hok
    obtain ⟨s₁, hi, hrest⟩ := Outcome.bind_eq_ok.mp hok
    rw [loadedPages, List.flatMap_cons, List.foldlM_append]
    refine Outcome.bind_eq_ok.mpr ⟨s₁.1, ?_, ih hrest⟩
    by_cases htype : (image.phdr i).type = ptLoad
    · rw [loadHeader, if_pos htype] at hi
      obtain ⟨v₁, hload, hs₁⟩ := Outcome.bind_eq_ok.mp hi
      obtain rfl := Except.ok.inj hs₁
      rw [if_pos htype, List.foldlM_map]
      exact hload
    · rw [loadHeader, if_neg htype] at hi
      obtain rfl := Except.ok.inj hi
      rw [if_neg htype]
      rfl

/-- The pages of segments in the user half are mapped there. -/
theorem loadedPages_below (hbelow : SegmentsBelow image) {x : Elf64Phdr × Word}
    (hx : x ∈ loadedPages image (List.range image.ehdr.phnum.toNat)) :
    (x.1.vaddr + x.2).toNat < 2 ^ 47 := by
  obtain ⟨i, hi, hx⟩ := List.mem_flatMap.mp hx
  split_ifs at hx with htype
  · obtain ⟨j, hj, rfl⟩ := List.mem_map.mp hx
    obtain ⟨n, hn, rfl⟩ := List.mem_map.mp hj
    have hend := hbelow i (List.mem_range.mp hi) htype
    have hn' := List.mem_range.mp hn
    show ((image.phdr i).vaddr + BitVec.ofNat 64 (n * pageSize)).toNat < 2 ^ 47
    rw [BitVec.toNat_add, BitVec.toNat_ofNat]
    unfold pageSize at *
    omega
  · cases hx

/-- What a new address space holds after a load. -/
theorem userByte_elfLoad (h : SpacesInv 3 v₀ roots) (hpage : v₀.pmm.findFree ≠ none)
    (hcreate : vmmCreateAddressSpace v₀ = (v, r)) (haccepted : image.ehdr.Accepted)
    (hbelow : SegmentsBelow image) (hok : elfLoad v r image = .ok (v', result))
    (ha : a.toNat < 2 ^ 47) : userByte v' r a = loadedByte image a := by
  obtain ⟨r', w, hcreate', -, hcreates⟩ := vmmCreateAddressSpace_spec h (by decide) hpage
  obtain ⟨rfl, rfl⟩ := Prod.mk.inj (hcreate.symm.trans hcreate')
  have hholds : Holds v (insert r roots) r fun _ => none :=
    ⟨hcreates.inv, hcreates.refines_empty, nofun, nofun⟩
  unfold elfLoad at hok
  dsimp only at hok
  rw [if_pos haccepted] at hok
  obtain ⟨s, hloop, hs⟩ := Outcome.bind_eq_ok.mp hok
  obtain ⟨rfl, rfl⟩ := Prod.mk.inj (Except.ok.inj hs)
  obtain ⟨m, hm, hdata⟩ := hholds.loadPages (Set.mem_insert r roots) _
    (fun x hx => loadedPages_below hbelow hx) (loadHeaders_eq _ hloop)
  have hbyte := congrArg (Option.map fun data => data.getD (a.toNat % pageSize) 0)
    (hdata (pageIndex a))
  rw [Option.map_map, Option.map_map] at hbyte
  rw [hm.userByte ha]
  exact hbyte

/-- The addresses of a segment. -/
theorem segment_lt (hbelow : SegmentsBelow image) {i k : ℕ} (hi : i < image.ehdr.phnum.toNat)
    (htype : (image.phdr i).type = ptLoad) (hk : k < (image.phdr i).memsz.toNat) :
    ((image.phdr i).vaddr + BitVec.ofNat 64 k).toNat = (image.phdr i).vaddr.toNat + k ∧
      (image.phdr i).vaddr.toNat + k < 2 ^ 47 := by
  have hend := hbelow i hi htype
  rw [BitVec.toNat_add, BitVec.toNat_ofNat]
  omega

/-- After a load into a new address space the segments are in memory just where the pages that
were loaded last have their bytes. -/
theorem segmentsLoaded_iff (h : SpacesInv 3 v₀ roots) (hpage : v₀.pmm.findFree ≠ none)
    (hcreate : vmmCreateAddressSpace v₀ = (v, r)) (haccepted : image.ehdr.Accepted)
    (hbelow : SegmentsBelow image) (hok : elfLoad v r image = .ok (v', result)) :
    SegmentsLoaded v' r image ↔ PagesAgree image := by
  refine forall₂_congr fun i hi => forall₃_congr fun htype k hk => ?_
  obtain ⟨haddr, hlt⟩ := segment_lt hbelow hi htype hk
  rw [userByte_elfLoad h hpage hcreate haccepted hbelow hok (haddr ▸ hlt)]

end Holds

/-! ### Aligned segments -/

section Aligned

variable {image : Image} {ph : Elf64Phdr}

/-- The byte `o` of the page at `n` pages into a segment whose numbers do not wrap around. -/
theorem pageData_getD (hsize : ph.filesz.toNat ≤ ph.memsz.toNat)
    (hwrap : ph.offset.toNat + ph.memsz.toNat < 2 ^ 64) {n o : ℕ}
    (hn : n * pageSize < ph.memsz.toNat) (ho : o < pageSize) :
    (pageData image ph (BitVec.ofNat 64 (n * pageSize))).getD o 0 =
      segmentByte image ph (n * pageSize + o) := by
  have hj : (BitVec.ofNat 64 (n * pageSize)).toNat = n * pageSize := by
    rw [BitVec.toNat_ofNat, Nat.mod_eq_of_lt (by omega)]
  have hpos : (ph.offset + BitVec.ofNat 64 (n * pageSize)).toNat =
      ph.offset.toNat + n * pageSize := by
    rw [BitVec.toNat_add, hj, Nat.mod_eq_of_lt (by omega)]
  have hend : (ph.offset + ph.filesz).toNat = ph.offset.toNat + ph.filesz.toNat := by
    rw [BitVec.toNat_add, Nat.mod_eq_of_lt (by omega)]
  have hcond : ph.offset + BitVec.ofNat 64 (n * pageSize) < ph.offset + ph.filesz ↔
      n * pageSize < ph.filesz.toNat := by
    rw [BitVec.lt_def, hpos, hend]
    omega
  rw [pageData, segmentByte]
  dsimp only
  by_cases hin : n * pageSize < ph.filesz.toNat
  · have hcount : min pageSize
        (ph.offset + ph.filesz - (ph.offset + BitVec.ofNat 64 (n * pageSize))).toNat =
        min pageSize (ph.filesz.toNat - n * pageSize) := by
      rw [BitVec.toNat_sub_of_le (BitVec.le_of_lt (hcond.mpr hin)), hpos, hend]
      omega
    rw [if_pos (hcond.mpr hin), hcount]
    by_cases hbyte : n * pageSize + o < ph.filesz.toNat
    · have hlt : o < min pageSize (ph.filesz.toNat - n * pageSize) := by omega
      rw [if_pos hbyte, BitVec.ofNat_add, ← BitVec.add_assoc]
      simp [List.getD_eq_getElem?_getD, hlt]
    · have hge : ¬ o < min pageSize (ph.filesz.toNat - n * pageSize) := by omega
      rw [if_neg hbyte]
      simp [List.getD_eq_getElem?_getD, hge]
  · rw [if_neg fun hlt => hin (hcond.mp hlt), if_neg (by omega)]
    rfl

theorem mem_pageOffsets (ph : Elf64Phdr) (j : Word) :
    j ∈ pageOffsets ph ↔ ∃ n, n * pageSize < ph.memsz.toNat ∧ BitVec.ofNat 64 (n * pageSize) = j := by
  rw [pageOffsets, List.mem_map]
  refine exists_congr fun n => and_congr_left fun _ => ?_
  rw [List.mem_range]
  unfold pageSize
  omega

theorem mem_loadedPages {is : List ℕ} {x : Elf64Phdr × Word} : x ∈ loadedPages image is ↔
    ∃ i ∈ is, (image.phdr i).type = ptLoad ∧ x.1 = image.phdr i ∧ x.2 ∈ pageOffsets x.1 := by
  rw [loadedPages, List.mem_flatMap]
  refine exists_congr fun i => and_congr_right fun _ => ?_
  by_cases htype : (image.phdr i).type = ptLoad
  · rw [if_pos htype, List.mem_map]
    constructor
    · rintro ⟨j, hj, rfl⟩
      exact ⟨htype, rfl, hj⟩
    · rintro ⟨-, heq, hx⟩
      exact ⟨x.2, heq ▸ hx, Prod.ext heq.symm rfl⟩
  · rw [if_neg htype]
    exact ⟨fun hx => (by cases hx), fun hx => absurd hx.1 htype⟩

/-- Segments that start at pages, have no common page and whose numbers do not wrap around. -/
structure SegmentsAligned (image : Image) : Prop where
  aligned : ∀ i < image.ehdr.phnum.toNat, (image.phdr i).type = ptLoad →
    (image.phdr i).vaddr.toNat % pageSize = 0
  wrap : ∀ i < image.ehdr.phnum.toNat, (image.phdr i).type = ptLoad →
    (image.phdr i).offset.toNat + (image.phdr i).memsz.toNat < 2 ^ 64
  apart : ∀ i < image.ehdr.phnum.toNat, (image.phdr i).type = ptLoad →
    ∀ j < image.ehdr.phnum.toNat, (image.phdr j).type = ptLoad → i ≠ j →
      ∀ x ∈ pageOffsets (image.phdr i), ∀ y ∈ pageOffsets (image.phdr j),
        pageIndex ((image.phdr i).vaddr + x) ≠ pageIndex ((image.phdr j).vaddr + y)

/-- With aligned segments that have no common page the last page is the only one. -/
theorem pagesAgree_of_aligned (hbelow : SegmentsBelow image) (happart : SegmentsApart image)
    (haligned : SegmentsAligned image) : PagesAgree image := by
  intro i hi htype k hk
  have hend := hbelow i hi htype
  have halign := haligned.aligned i hi htype
  have hn : k / pageSize * pageSize < (image.phdr i).memsz.toNat := by
    unfold pageSize
    omega
  -- the page of the byte is loaded
  have hindex : ∀ n, n * pageSize < (image.phdr i).memsz.toNat →
      pageIndex ((image.phdr i).vaddr + BitVec.ofNat 64 (n * pageSize)) =
        (image.phdr i).vaddr.toNat / pageSize + n := by
    intro n hn
    rw [pageIndex, BitVec.toNat_add, BitVec.toNat_ofNat]
    unfold pageSize at *
    omega
  have haddr := (segment_lt hbelow hi htype hk).1
  have hpage : pageIndex ((image.phdr i).vaddr + BitVec.ofNat 64 k) =
      (image.phdr i).vaddr.toNat / pageSize + k / pageSize := by
    rw [pageIndex, haddr]
    unfold pageSize at *
    omega
  have hmem : (image.phdr i, BitVec.ofNat 64 (k / pageSize * pageSize)) ∈
      loadedPages image (List.range image.ehdr.phnum.toNat) :=
    mem_loadedPages.mpr ⟨i, List.mem_range.mpr hi, htype, rfl,
      (mem_pageOffsets _ _).mpr ⟨_, hn, rfl⟩⟩
  rw [loadedByte, hpage]
  cases hlast : lastLoaded (loadedPages image (List.range image.ehdr.phnum.toNat))
      ((image.phdr i).vaddr.toNat / pageSize + k / pageSize) with
  | none =>
    have hnone := List.find?_eq_none.mp hlast _ (List.mem_reverse.mpr hmem)
    rw [decide_eq_true_eq] at hnone
    exact absurd (hindex _ hn) hnone
  | some x =>
    -- a page at the same number is that page
    have hx := List.mem_reverse.mp (List.mem_of_find?_eq_some hlast)
    have hfound := List.find?_some hlast
    have hxpage := of_decide_eq_true hfound
    obtain ⟨i', hi', htype', hph, hj⟩ := mem_loadedPages.mp hx
    rw [hph] at hj hxpage
    obtain rfl : i' = i := by
      by_contra hne
      refine haligned.apart i' (List.mem_range.mp hi') htype' i hi htype hne x.2 hj _
        ((mem_pageOffsets _ _).mpr ⟨_, hn, rfl⟩) ?_
      rw [hxpage, hindex _ hn]
    obtain ⟨n, hn', hxn⟩ := (mem_pageOffsets _ _).mp hj
    rw [← hxn, hindex n hn'] at hxpage
    obtain rfl : n = k / pageSize := by omega
    have hmod : ((image.phdr i').vaddr + BitVec.ofNat 64 k).toNat % pageSize = k % pageSize := by
      rw [haddr]
      unfold pageSize at *
      omega
    have hsize := (happart i' hi htype).1
    rw [Option.map_some, hph, ← hxn, hmod, pageData_getD hsize (haligned.wrap i' hi htype) hn'
      (Nat.mod_lt _ (by decide)), Nat.div_add_mod']

end Aligned

/-! ### Two programs -/

/-- A program with an aligned segment. -/
def alignedProgram : Image := program 0x400000 [⟨ptLoad, pfX, 0, 0x400000, 4, 8⟩] []

/-- A program with a segment that starts in the middle of a page. -/
def unalignedProgram : Image := program 0x400800 [⟨ptLoad, pfX, 0, 0x400800, 4, 8⟩] []

/-- The small machine has the pages for a program. -/
theorem elfLoad_smallVmm (image : Image) (h : (elfLoad (vmmCreateAddressSpace smallVmm).1
    (vmmCreateAddressSpace smallVmm).2 image).toOption.isSome = true) :
    ∃ v v' r result, vmmCreateAddressSpace smallVmm = (v, r) ∧
      elfLoad v r image = .ok (v', result) := by
  cases hok : elfLoad (vmmCreateAddressSpace smallVmm).1 (vmmCreateAddressSpace smallVmm).2
      image with
  | error e => simp [hok, Except.toOption] at h
  | ok s => exact ⟨_, s.1, _, s.2, rfl, hok⟩

/-- An aligned segment is loaded into a new address space. -/
theorem segmentsLoaded_aligned : ∃ v v' r result, vmmCreateAddressSpace smallVmm = (v, r) ∧
    elfLoad v r alignedProgram = .ok (v', result) ∧ SegmentsLoaded v' r alignedProgram := by
  obtain ⟨v, v', r, result, hcreate, hok⟩ := elfLoad_smallVmm alignedProgram
    (by decide)
  refine ⟨v, v', r, result, hcreate, hok, ?_⟩
  exact (segmentsLoaded_iff (smallVmm_inv (by decide)) (Pmm.Room.findFree_ne_none smallVmm_room)
    hcreate (by decide) (by decide) hok).mpr (by decide)

/-- The bytes of a segment that starts in the middle of a page are not at their addresses. -/
theorem not_segmentsLoaded : ¬ ∀ (v₀ v v' : Vmm) (roots : Set Word) (r : Word) (image : Image)
    (result : LoadResult), SpacesInv 3 v₀ roots → v₀.pmm.findFree ≠ none →
      vmmCreateAddressSpace v₀ = (v, r) → image.ehdr.Accepted → SegmentsBelow image →
        SegmentsApart image → elfLoad v r image = .ok (v', result) →
          SegmentsLoaded v' r image := by
  intro hall
  obtain ⟨v, v', r, result, hcreate, hok⟩ := elfLoad_smallVmm unalignedProgram
    (by decide)
  have hinv : SpacesInv 3 smallVmm ∅ := smallVmm_inv (by decide)
  have hpage := Pmm.Room.findFree_ne_none smallVmm_room
  have hloaded := hall smallVmm v v' ∅ r unalignedProgram result hinv hpage hcreate
    (by decide) (by decide) (by decide) hok
  have hbyte := hloaded 0 (by decide) (by decide) 0 (by decide)
  have hbelow : SegmentsBelow unalignedProgram := by decide
  rw [userByte_elfLoad hinv hpage hcreate (by decide) hbelow hok (by decide)] at hbyte
  exact absurd hbyte (by decide)

end KyroOS.Elf

import KyroOS.Memory.Pmm

/-!
# Setting up the page allocator

`pmm_init` reads the memory map of the boot loader three times: for the highest address, for
a place for the bitmap, and for the pages that are free.

## Main definitions

* `MemmapEntry`, `pmmInit`
* `LimineMap` — what the boot loader guarantees of a memory map
* `InitOk` — the bitmap has a bit for every page, and the bits are right

## Main results

* `initOk_iff_bitmapFits` — this is so unless the number of pages is a multiple of 32768 and
  one to seven more
-/

namespace KyroOS.Memory

/-! ### The memory map -/

/-- An entry of the memory map, `struct limine_memmap_entry`. -/
structure MemmapEntry where
  base : Word
  length : Word
  type : Word
  deriving DecidableEq

/-- `LIMINE_MEMMAP_USABLE`. -/
def limineMemmapUsable : Word := 0

namespace MemmapEntry

def Usable (e : MemmapEntry) : Prop := e.type = limineMemmapUsable

instance (e : MemmapEntry) : Decidable e.Usable := inferInstanceAs (Decidable (_ = _))

/-- The page `i` lies in the entry. -/
def Covers (e : MemmapEntry) (i : ℕ) : Prop :=
  e.base.toNat ≤ i * pageSize ∧ (i + 1) * pageSize ≤ e.base.toNat + e.length.toNat

/-- The pages whose bits are cleared for the entry. -/
def pages (e : MemmapEntry) : List ℕ :=
  List.range' (e.base.toNat / pageSize) (e.length.toNat / pageSize)

end MemmapEntry

/-- `ALIGN_UP`. -/
def alignUp (addr align : Word) : Word := (addr + align - 1) &&& ~~~ (align - 1)

/-- One turn of the first loop of `pmm_init`. -/
def raise (highest : Word) (e : MemmapEntry) : Word :=
  if highest < e.base + e.length then e.base + e.length else highest

/-- The highest address of the map. -/
def highestAddr (mmap : List MemmapEntry) : Word := mmap.foldl raise 0

/-! ### `pmm_init` -/

/-- What `pmm_init` leaves in the globals of `pmm.c`, and the size of the bitmap. -/
structure PmmInit where
  pmm : Pmm
  pmmBitmap : Word
  bitmapSize : Word
  usablePages : Word
  hhdmOffset : Word

/-- `pmm_total_pages`. -/
def totalPages (mmap : List MemmapEntry) : ℕ := (highestAddr mmap).toNat / pageSize

def bitmapSize (mmap : List MemmapEntry) : Word :=
  alignUp (BitVec.ofNat 64 (totalPages mmap / 8)) (BitVec.ofNat 64 pageSize)

/-- The bits that are cleared: those of the usable pages. -/
def clearedBits (mmap : List MemmapEntry) : List ℕ :=
  (mmap.filter fun e => e.Usable).flatMap MemmapEntry.pages

/-- The pages of the bitmap, whose bits are set again. -/
def PmmInit.bitmapPages (s : PmmInit) : List ℕ :=
  List.range' (s.pmmBitmap.toNat / pageSize) (s.bitmapSize.toNat / pageSize)

/-- `pmm_init`. What lies behind the bitmap in memory is read as its further bytes. -/
def pmmInit (mmap : List MemmapEntry) (offset : Word) (ram : Word → Byte) : Outcome PmmInit :=
  let size := bitmapSize mmap
  match mmap.find? fun e => e.Usable ∧ size ≤ e.length with
  | none => .error (.panic "PMM: Could not find a suitable location for the memory bitmap!")
  | some e =>
    if e.base = 0 then
      .error (.panic "PMM: Could not find a suitable location for the memory bitmap!")
    else
      let filled := fun k => if k < size.toNat then 0xff else ram (e.base + offset + BitVec.ofNat 64 k)
      let cleared := (clearedBits mmap).foldl pmmBitmapUnset filled
      let own := List.range' (e.base.toNat / pageSize) (size.toNat / pageSize)
      .ok {
        pmm := {
          bitmap := own.foldl pmmBitmapSet cleared
          totalPages := totalPages mmap
          allocatedPages := 0
          lastFreePage := 0 }
        pmmBitmap := e.base
        bitmapSize := size
        usablePages := (mmap.filter fun e => e.Usable).foldl
          (fun n e => n + BitVec.ofNat 64 (e.length.toNat / pageSize)) 0
        hhdmOffset := offset }

/-! ### What it should leave -/

/-- What the boot loader guarantees: the usable entries are ranges of whole pages, they do
not overlap, and page 0 is not in one. -/
structure LimineMap (mmap : List MemmapEntry) : Prop where
  aligned : ∀ e ∈ mmap, e.Usable → e.base.toNat % pageSize = 0 ∧ e.length.toNat % pageSize = 0
  range : ∀ e ∈ mmap, e.Usable → e.base.toNat + e.length.toNat < 2 ^ 64
  disjoint : (mmap.filter fun e => e.Usable).Pairwise fun e e' =>
    e.base.toNat + e.length.toNat ≤ e'.base.toNat ∨ e'.base.toNat + e'.length.toNat ≤ e.base.toNat
  zero : ∀ e ∈ mmap, e.Usable → ¬ e.Covers 0

/-- The bitmap has a bit for every page and lies in one usable entry, every bit that was
cleared or set is one of its bits, and the free pages are the usable ones it does not take. -/
structure InitOk (mmap : List MemmapEntry) (s : PmmInit) : Prop where
  covers : s.pmm.totalPages ≤ 8 * s.bitmapSize.toNat
  placed : ∃ e ∈ mmap, e.Usable ∧ e.base.toNat ≤ s.pmmBitmap.toNat ∧
    s.pmmBitmap.toNat + s.bitmapSize.toNat ≤ e.base.toNat + e.length.toNat
  indices : ∀ i ∈ clearedBits mmap ++ s.bitmapPages, i < 8 * s.bitmapSize.toNat
  free : ∀ i < s.pmm.totalPages,
    ¬ s.pmm.Allocated i ↔ (∃ e ∈ mmap, e.Usable ∧ e.Covers i) ∧ i ∉ s.bitmapPages

/-- The number of pages is not one to seven more than a multiple of 32768, the number of
bits in a page of the bitmap. -/
def BitmapFits (mmap : List MemmapEntry) : Prop :=
  totalPages mmap % (8 * pageSize) = 0 ∨ 8 ≤ totalPages mmap % (8 * pageSize)

instance (mmap : List MemmapEntry) : Decidable (BitmapFits mmap) :=
  inferInstanceAs (Decidable (_ ∨ _))

theorem toNat_alignUp {q : ℕ} (hq : q + pageSize < 2 ^ 64) :
    (alignUp (BitVec.ofNat 64 q) (BitVec.ofNat 64 pageSize)).toNat =
      (q + (pageSize - 1)) / pageSize * pageSize := by
  have hsum : (BitVec.ofNat 64 q + BitVec.ofNat 64 pageSize - 1 : Word).toNat =
      q + (pageSize - 1) := by
    rw [BitVec.toNat_sub, BitVec.toNat_add, BitVec.toNat_ofNat, BitVec.toNat_ofNat]
    simp [pageSize] at *
    omega
  rw [← hsum]
  exact toNat_and_not_low _ 12

section Init

variable {mmap : List MemmapEntry} {offset : Word} {ram : Word → Byte} {s : PmmInit}

/-- The highest address is not below the end of an entry. -/
theorem le_highestAddr {e : MemmapEntry} (he : e ∈ mmap) :
    (e.base + e.length).toNat ≤ (highestAddr mmap).toNat := by
  have hgrow : ∀ (l : List MemmapEntry) (h : Word), h.toNat ≤ (l.foldl raise h).toNat ∧
      ∀ e ∈ l, (e.base + e.length).toNat ≤ (l.foldl raise h).toNat := by
    intro l
    induction l with
    | nil => exact fun h => ⟨le_refl _, by simp⟩
    | cons a l ih =>
      intro h
      obtain ⟨hstart, hrest⟩ := ih (raise h a)
      have hmax : h.toNat ≤ (raise h a).toNat ∧ (a.base + a.length).toNat ≤ (raise h a).toNat := by
        unfold raise
        split_ifs with hlt
        · exact ⟨le_of_lt hlt, le_refl _⟩
        · exact ⟨le_refl _, Nat.le_of_not_lt hlt⟩
      rw [List.foldl_cons]
      refine ⟨hmax.1.trans hstart, fun e he => ?_⟩
      rcases List.mem_cons.mp he with rfl | he
      · exact hmax.2.trans hstart
      · exact hrest e he
  exact (hgrow mmap 0).2 e he

theorem totalPages_lt (mmap : List MemmapEntry) : totalPages mmap < 2 ^ 52 := by
  have := (highestAddr mmap).isLt
  unfold totalPages pageSize
  omega

theorem toNat_bitmapSize (mmap : List MemmapEntry) :
    (bitmapSize mmap).toNat = (totalPages mmap / 8 + (pageSize - 1)) / pageSize * pageSize := by
  refine toNat_alignUp ?_
  have := totalPages_lt mmap
  unfold pageSize
  omega

/-- The bitmap has a bit for every page in exactly those cases. -/
theorem bitmapFits_iff (mmap : List MemmapEntry) :
    BitmapFits mmap ↔ totalPages mmap ≤ 8 * (bitmapSize mmap).toNat := by
  rw [toNat_bitmapSize, BitmapFits]
  unfold pageSize
  omega

/-- The pages of a usable entry. -/
theorem MemmapEntry.mem_pages {e : MemmapEntry} (hbase : e.base.toNat % pageSize = 0)
    (hlength : e.length.toNat % pageSize = 0) {i : ℕ} : i ∈ e.pages ↔ e.Covers i := by
  rw [pages, List.mem_range'_1, Covers]
  unfold pageSize at *
  omega

theorem mem_clearedBits (h : LimineMap mmap) {i : ℕ} :
    i ∈ clearedBits mmap ↔ ∃ e ∈ mmap, e.Usable ∧ e.Covers i := by
  simp only [clearedBits, List.mem_flatMap, List.mem_filter, decide_eq_true_eq, and_assoc]
  refine exists_congr fun e => and_congr_right fun he => and_congr_right fun husable => ?_
  obtain ⟨hbase, hlength⟩ := h.aligned e he husable
  exact MemmapEntry.mem_pages hbase hlength

/-- A usable page has an index below the number of pages. -/
theorem LimineMap.lt_totalPages (h : LimineMap mmap) {e : MemmapEntry} (he : e ∈ mmap)
    (husable : e.Usable) {i : ℕ} (hi : e.Covers i) : i < totalPages mmap := by
  have hrange := h.range e he husable
  have hhigh := le_highestAddr he
  rw [BitVec.toNat_add, Nat.mod_eq_of_lt hrange] at hhigh
  obtain ⟨-, hend⟩ := hi
  unfold totalPages pageSize at *
  omega

/-- Where `pmm_init` does not panic. -/
theorem pmmInit_ok (hok : pmmInit mmap offset ram = .ok s) :
    s.pmm.totalPages = totalPages mmap ∧ s.bitmapSize = bitmapSize mmap ∧
      s.pmm.allocatedPages = 0 ∧ s.pmm.lastFreePage = 0 ∧
      (∃ e ∈ mmap, e.Usable ∧ (bitmapSize mmap).toNat ≤ e.length.toNat ∧ s.pmmBitmap = e.base) ∧
      ∀ i < 8 * s.bitmapSize.toNat,
        s.pmm.Allocated i ↔ i ∈ s.bitmapPages ∨ i ∉ clearedBits mmap := by
  unfold pmmInit at hok
  dsimp only at hok
  split at hok
  · cases hok
  · rename_i e hfind
    split_ifs at hok with hnull
    obtain rfl := Except.ok.inj hok
    have hprop := List.find?_some hfind
    rw [decide_eq_true_eq] at hprop
    refine ⟨rfl, rfl, rfl, rfl,
      ⟨e, List.mem_of_find?_eq_some hfind, hprop.1, BitVec.le_def.mp hprop.2, rfl⟩, fun i hi => ?_⟩
    -- all bits of the bitmap start out set
    have hfilled : ∀ b < 8, (0xff#8).getLsbD b = true := by decide
    have hbyte : i / 8 < (bitmapSize mmap).toNat := by
      dsimp only at hi
      omega
    rw [Pmm.Allocated, pmmBitmapTest_foldl_set, pmmBitmapTest_foldl_unset, pmmBitmapTest_eq, or_comm,
      if_pos hbyte]
    exact or_congr_right (and_iff_right (hfilled _ (Nat.mod_lt _ (by decide))))

/-- With a bit for every page, the rest holds too. -/
theorem InitOk.of_bitmapFits (h : LimineMap mmap) (hok : pmmInit mmap offset ram = .ok s)
    (hfits : BitmapFits mmap) : InitOk mmap s := by
  obtain ⟨htotal, hsize, -, -, ⟨e, he, husable, hlength, hbase⟩, hbits⟩ := pmmInit_ok hok
  have hcovers : s.pmm.totalPages ≤ 8 * s.bitmapSize.toNat := by
    rw [htotal, hsize]
    exact (bitmapFits_iff mmap).mp hfits
  obtain ⟨hbase0, -⟩ := h.aligned e he husable
  have hrange := h.range e he husable
  have hwhole : s.bitmapSize.toNat % pageSize = 0 := by
    rw [hsize, toNat_bitmapSize]
    exact Nat.mul_mod_left _ _
  refine ⟨hcovers, ⟨e, he, husable, ?_, ?_⟩, fun i hi => ?_, fun i hi => ?_⟩
  · rw [hbase]
  · rw [hbase, hsize]
    omega
  · rcases List.mem_append.mp hi with hi | hi
    · obtain ⟨e', he', husable', hcov⟩ := (mem_clearedBits h).mp hi
      exact (htotal ▸ h.lt_totalPages he' husable' hcov).trans_le hcovers
    · -- a page of the bitmap is a page of its entry
      have hcov : e.Covers i := by
        rw [PmmInit.bitmapPages, List.mem_range'_1, hbase] at hi
        rw [← hsize] at hlength
        unfold MemmapEntry.Covers pageSize at *
        omega
      exact (htotal ▸ h.lt_totalPages he husable hcov).trans_le hcovers
  · rw [hbits i (hi.trans_le hcovers), ← mem_clearedBits h]
    tauto

/-- The property of `pmm_init` holds for exactly those maps. -/
theorem initOk_iff_bitmapFits (h : LimineMap mmap) (hok : pmmInit mmap offset ram = .ok s) :
    InitOk mmap s ↔ BitmapFits mmap := by
  refine ⟨fun hinit => ?_, InitOk.of_bitmapFits h hok⟩
  obtain ⟨htotal, hsize, -⟩ := pmmInit_ok hok
  rw [bitmapFits_iff, ← htotal, ← hsize]
  exact hinit.covers

end Init

/-- One usable entry of `pages` pages, after page 0. -/
def oneEntry (pages : ℕ) : List MemmapEntry := [⟨0x1000, BitVec.ofNat 64 (pages * pageSize), 0⟩]

theorem limineMap_oneEntry {pages : ℕ} (h : pages < 2 ^ 51) : LimineMap (oneEntry pages) := by
  have hlength : (BitVec.ofNat 64 (pages * pageSize)).toNat = pages * pageSize := by
    rw [BitVec.toNat_ofNat, Nat.mod_eq_of_lt (by unfold pageSize; omega)]
  refine ⟨?_, ?_, List.Pairwise.filter _ (List.pairwise_singleton _ _), ?_⟩
  · rintro e he -
    obtain rfl := List.mem_singleton.mp he
    exact ⟨show (0x1000 : Word).toNat % pageSize = 0 by decide, by rw [hlength, Nat.mul_mod_left]⟩
  · rintro e he -
    obtain rfl := List.mem_singleton.mp he
    rw [hlength, show (0x1000 : Word).toNat = pageSize from rfl]
    unfold pageSize
    omega
  · rintro e he - ⟨hbase, -⟩
    obtain rfl := List.mem_singleton.mp he
    exact absurd hbase (show ¬ (0x1000 : Word).toNat ≤ 0 * pageSize by decide)

/-- Room for the bitmap is found in the one entry. -/
theorem pmmInit_oneEntry (pages : ℕ) (hroom : bitmapSize (oneEntry pages) ≤
    BitVec.ofNat 64 (pages * pageSize)) (ram : Word → Byte) :
    ∃ s, pmmInit (oneEntry pages) 0 ram = .ok s := by
  have hfind : (oneEntry pages).find? (fun e => e.Usable ∧ bitmapSize (oneEntry pages) ≤ e.length) =
      some ⟨0x1000, BitVec.ofNat 64 (pages * pageSize), 0⟩ := by
    rw [oneEntry, List.find?_cons_of_pos]
    exact decide_eq_true ⟨rfl, hroom⟩
  unfold pmmInit
  simp only [hfind]
  exact ⟨_, if_neg (by decide)⟩

/-- 511 pages after page 0: the bitmap takes one of them. -/
theorem initOk_oneEntry : ∃ s, pmmInit (oneEntry 511) 0 (fun _ => 0) = .ok s ∧
    InitOk (oneEntry 511) s := by
  obtain ⟨s, hs⟩ := pmmInit_oneEntry 511 (by decide) fun _ => 0
  exact ⟨s, hs, (initOk_iff_bitmapFits (limineMap_oneEntry (by decide)) hs).mpr (by decide)⟩

/-- With 32769 pages the bitmap has no bit for the last one, which is usable. -/
theorem not_initOk_oneEntry : ∃ s, LimineMap (oneEntry 32768) ∧
    pmmInit (oneEntry 32768) 0 (fun _ => 0) = .ok s ∧ ¬ InitOk (oneEntry 32768) s := by
  obtain ⟨s, hs⟩ := pmmInit_oneEntry 32768 (by decide) fun _ => 0
  refine ⟨s, limineMap_oneEntry (by decide), hs, fun hinit => ?_⟩
  obtain ⟨htotal, hsize, -⟩ := pmmInit_ok hs
  have hcovers := hinit.covers
  rw [htotal, hsize, ← bitmapFits_iff] at hcovers
  exact absurd hcovers (by decide)

end KyroOS.Memory

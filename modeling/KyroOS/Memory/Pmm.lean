import KyroOS.Basic
import Mathlib.Tactic

/-!
# The physical page allocator

`pmm.c` keeps one bit per physical page. A page is allocated when its bit is set;
`pmm_alloc_page` takes the first clear bit from a roving index on, and wraps around.

## Main definitions

* `Pmm`, `pmmAllocPage`, `pmmAllocPages`, `pmmFreePage`
* `Pmm.Allocated` — the page's bit is set
* `Pmm.Reserves` — the pages the allocator works with are addressable, and page 0 is
  not given out

## Main results

* `pmmAllocPage_spec` — an allocated page was free, and is the only one whose bit changes
* `pmmFreePage_allocated` — freeing clears the page's bit only
-/

namespace KyroOS.Memory

/-- The size of a page, `PAGE_SIZE`. -/
def pageSize : ℕ := 4096

/-- The physical address of a page. -/
def pageAddr (i : ℕ) : Word := BitVec.ofNat 64 (i * pageSize)

/-- The page a physical address lies in. -/
def pageIndex (p : Word) : ℕ := p.toNat / pageSize

/-- The state of the allocator. `pmm_allocated_pages` is an unsigned counter. -/
structure Pmm where
  bitmap : ℕ → Byte
  totalPages : ℕ
  allocatedPages : Word
  lastFreePage : ℕ

def pmmBitmapSet (bitmap : ℕ → Byte) (i : ℕ) : ℕ → Byte :=
  Function.update bitmap (i / 8) (bitmap (i / 8) ||| 1#8 <<< (i % 8))

def pmmBitmapUnset (bitmap : ℕ → Byte) (i : ℕ) : ℕ → Byte :=
  Function.update bitmap (i / 8) (bitmap (i / 8) &&& ~~~ (1#8 <<< (i % 8)))

def pmmBitmapTest (bitmap : ℕ → Byte) (i : ℕ) : Bool :=
  bitmap (i / 8) &&& 1#8 <<< (i % 8) != 0

/-- The page that `pmm_alloc_page` finds: from the roving index to the end, then from the
start to the roving index. -/
def Pmm.findFree (p : Pmm) : Option ℕ :=
  let free := fun i => !pmmBitmapTest p.bitmap i
  ((List.range' p.lastFreePage (p.totalPages - p.lastFreePage)).find? free).or
    ((List.range p.lastFreePage).find? free)

/-- `pmm_alloc_page`: the address of the page, 0 for `NULL`. -/
def pmmAllocPage (p : Pmm) : Pmm × Word :=
  match p.findFree with
  | some i =>
    ({ p with
        bitmap := pmmBitmapSet p.bitmap i
        allocatedPages := p.allocatedPages + 1
        lastFreePage := i + 1 }, pageAddr i)
  | none => (p, 0)

/-- `pmm_free_page`. -/
def pmmFreePage (p : Pmm) (addr : Word) : Pmm :=
  let i := pageIndex addr
  if i < p.totalPages then
    if pmmBitmapTest p.bitmap i then
      { p with
        bitmap := pmmBitmapUnset p.bitmap i
        allocatedPages := p.allocatedPages - 1
        lastFreePage := if i < p.lastFreePage then i else p.lastFreePage }
    else p
  else p

/-- The part of `pmm_alloc_pages` that takes the run of pages it found. -/
def pmmTakeRun (p : Pmm) (i count : ℕ) : Pmm :=
  { p with
    bitmap := (List.range' i count).foldl pmmBitmapSet p.bitmap
    allocatedPages := p.allocatedPages + BitVec.ofNat 64 count }

/-- The loop of `pmm_alloc_pages` from the page `i` on, as far as the page `last`: a page that
is taken is where the search goes on behind. -/
def findRun (bitmap : ℕ → Byte) (count last i : ℕ) : Option ℕ :=
  if i ≤ last then
    match (List.range count).find? fun j => pmmBitmapTest bitmap (i + j) with
    | some j => findRun bitmap count last (i + j + 1)
    | none => some i
  else none
termination_by last + 1 - i

/-- `pmm_alloc_pages`: the address of the run, 0 for `NULL`. The last index is an unsigned
difference. -/
def pmmAllocPages (p : Pmm) (count : Word) : Pmm × Word :=
  if count = 0 then (p, 0)
  else if count = 1 then pmmAllocPage p
  else
    match findRun p.bitmap count.toNat (BitVec.ofNat 64 p.totalPages - count).toNat 0 with
    | some i => (pmmTakeRun p i count.toNat, pageAddr i)
    | none => (p, 0)

/-! ### The bitmap as a set of pages -/

/-- Clearing the low bits rounds down. -/
theorem toNat_and_not_low (x : Word) (k : ℕ) :
    (x &&& ~~~ BitVec.ofNat 64 (2 ^ k - 1)).toNat = x.toNat / 2 ^ k * 2 ^ k := by
  have hshift : x &&& ~~~ BitVec.ofNat 64 (2 ^ k - 1) = x >>> k <<< k := by
    refine BitVec.eq_of_getLsbD_eq fun i hi => ?_
    simp only [BitVec.getLsbD_and, BitVec.getLsbD_not, BitVec.getLsbD_ofNat,
      Nat.testBit_two_pow_sub_one, BitVec.getLsbD_shiftLeft, BitVec.getLsbD_ushiftRight]
    by_cases hlt : i < k
    · simp [hlt]
    · simp [hlt, hi, show k + (i - k) = i by omega]
  have hle : x.toNat / 2 ^ k * 2 ^ k ≤ x.toNat := Nat.div_mul_le_self _ _
  rw [hshift, BitVec.toNat_shiftLeft, BitVec.toNat_ushiftRight, Nat.shiftRight_eq_div_pow,
    Nat.shiftLeft_eq, Nat.mod_eq_of_lt (hle.trans_lt x.isLt)]

theorem pmmBitmapTest_eq (bitmap : ℕ → Byte) (i : ℕ) :
    pmmBitmapTest bitmap i = (bitmap (i / 8)).getLsbD (i % 8) := by
  have hlt : i % 8 < 8 := Nat.mod_lt _ (by decide)
  rw [pmmBitmapTest, ← BitVec.twoPow_eq, BitVec.and_twoPow]
  split_ifs with hbit
  · rw [hbit, bne_iff_ne]
    intro hzero
    simpa [hlt] using congrArg (fun x => BitVec.getLsbD x (i % 8)) hzero
  · simpa using hbit

theorem pmmBitmapTest_set (bitmap : ℕ → Byte) (i j : ℕ) :
    pmmBitmapTest (pmmBitmapSet bitmap i) j = (decide (j = i) || pmmBitmapTest bitmap j) := by
  simp only [pmmBitmapTest_eq, pmmBitmapSet, Function.update_apply]
  have hi : i % 8 < 8 := Nat.mod_lt _ (by decide)
  have hj : j % 8 < 8 := Nat.mod_lt _ (by decide)
  by_cases hdiv : j / 8 = i / 8
  · have hji : j % 8 = i % 8 ↔ j = i := by omega
    rw [if_pos hdiv, BitVec.getLsbD_or, ← BitVec.twoPow_eq, BitVec.getLsbD_twoPow, hdiv,
      Bool.or_comm]
    congr 1
    simp [hi, ← hji, eq_comm]
  · have hne : j ≠ i := fun h => hdiv (by rw [h])
    simp [hdiv, hne]

theorem pmmBitmapTest_unset (bitmap : ℕ → Byte) (i j : ℕ) :
    pmmBitmapTest (pmmBitmapUnset bitmap i) j = (!decide (j = i) && pmmBitmapTest bitmap j) := by
  simp only [pmmBitmapTest_eq, pmmBitmapUnset, Function.update_apply]
  have hi : i % 8 < 8 := Nat.mod_lt _ (by decide)
  have hj : j % 8 < 8 := Nat.mod_lt _ (by decide)
  by_cases hdiv : j / 8 = i / 8
  · have hji : j % 8 = i % 8 ↔ j = i := by omega
    rw [if_pos hdiv, BitVec.getLsbD_and, BitVec.getLsbD_not, ← BitVec.twoPow_eq,
      BitVec.getLsbD_twoPow, hdiv, Bool.and_comm]
    congr 1
    simp [hi, hj, ← hji, eq_comm]
  · have hne : j ≠ i := fun h => hdiv (by rw [h])
    simp [hdiv, hne]

theorem pmmBitmapTest_foldl_set (l : List ℕ) (bitmap : ℕ → Byte) (j : ℕ) :
    pmmBitmapTest (l.foldl pmmBitmapSet bitmap) j = true ↔
      pmmBitmapTest bitmap j = true ∨ j ∈ l := by
  induction l generalizing bitmap with
  | nil => simp
  | cons i l ih =>
    rw [List.foldl_cons, ih, pmmBitmapTest_set, Bool.or_eq_true, decide_eq_true_eq, List.mem_cons]
    tauto

theorem pmmBitmapTest_foldl_unset (l : List ℕ) (bitmap : ℕ → Byte) (j : ℕ) :
    pmmBitmapTest (l.foldl pmmBitmapUnset bitmap) j = true ↔
      pmmBitmapTest bitmap j = true ∧ j ∉ l := by
  induction l generalizing bitmap with
  | nil => simp
  | cons i l ih =>
    rw [List.foldl_cons, ih, pmmBitmapTest_unset, Bool.and_eq_true, Bool.not_eq_true',
      decide_eq_false_iff_not, List.mem_cons]
    tauto

/-- The page's bit is set. -/
def Pmm.Allocated (p : Pmm) (i : ℕ) : Prop := pmmBitmapTest p.bitmap i = true

instance (p : Pmm) (i : ℕ) : Decidable (p.Allocated i) := inferInstanceAs (Decidable (_ = _))

/-- A run of free pages, as `pmm_alloc_pages` looks for. -/
def Pmm.RunFree (p : Pmm) (i count : ℕ) : Prop :=
  i + count ≤ p.totalPages ∧ ∀ j ∈ List.range' i count, ¬ p.Allocated j

instance (p : Pmm) (i count : ℕ) : Decidable (p.RunFree i count) :=
  inferInstanceAs (Decidable (_ ∧ _))

/-- Every page has a 52-bit physical address, and page 0 is taken. -/
structure Pmm.Reserves (p : Pmm) : Prop where
  totalPages_le : p.totalPages ≤ 2 ^ 40
  lastFreePage_le : p.lastFreePage ≤ p.totalPages
  zero : p.Allocated 0

theorem pageAddr_toNat {i : ℕ} (h : i < 2 ^ 52) : (pageAddr i).toNat = i * pageSize := by
  rw [pageAddr, BitVec.toNat_ofNat, Nat.mod_eq_of_lt]
  unfold pageSize
  omega

@[simp] theorem pageIndex_pageAddr {i : ℕ} (h : i < 2 ^ 52) : pageIndex (pageAddr i) = i := by
  rw [pageIndex, pageAddr_toNat h, Nat.mul_div_cancel _ (by decide)]

theorem pageAddr_ne_zero {i : ℕ} (h : i < 2 ^ 52) (hi : i ≠ 0) : pageAddr i ≠ 0 := by
  intro hzero
  have hnat : 0 = i * pageSize := by rw [← pageAddr_toNat h, hzero]; rfl
  unfold pageSize at hnat
  omega

theorem pageAddr_inj {i j : ℕ} (hi : i < 2 ^ 52) (hj : j < 2 ^ 52)
    (h : pageAddr i = pageAddr j) : i = j := by
  rw [← pageIndex_pageAddr hi, h, pageIndex_pageAddr hj]

/-! ### Allocation -/

theorem Pmm.findFree_some {p : Pmm} {i : ℕ} (h : p.findFree = some i)
    (hlast : p.lastFreePage ≤ p.totalPages) : i < p.totalPages ∧ ¬ p.Allocated i := by
  rw [findFree, Option.or_eq_some_iff] at h
  rcases h with h | ⟨-, h⟩
  · have hmem := List.mem_of_find?_eq_some h
    rw [List.mem_range'_1] at hmem
    exact ⟨by omega, by simpa [Allocated] using List.find?_some h⟩
  · have hmem := List.mem_of_find?_eq_some h
    rw [List.mem_range] at hmem
    exact ⟨by omega, by simpa [Allocated] using List.find?_some h⟩

/-- A page whose bit is clear is found, if there is one. -/
theorem Pmm.findFree_ne_none {p : Pmm} {i : ℕ} (hi : i < p.totalPages)
    (hfree : ¬ p.Allocated i) : p.findFree ≠ none := by
  intro hnone
  rw [findFree, Option.or_eq_none_iff] at hnone
  simp only [List.find?_eq_none, List.mem_range'_1, List.mem_range, Bool.not_eq_true',
    Bool.not_eq_false] at hnone
  by_cases hlast : p.lastFreePage ≤ i
  · exact hfree (hnone.1 i (by omega))
  · exact hfree (hnone.2 i (by omega))

/-- What `pmm_alloc_page` returns and does: nothing and `NULL`, or a page that was free. -/
inductive AllocResult (p : Pmm) : Pmm × Word → Prop
  | null (hfull : p.findFree = none) : AllocResult p (p, 0)
  | page (i : ℕ) (hlt : i < p.totalPages) (hpos : i ≠ 0) (hfree : ¬ p.Allocated i) (p' : Pmm)
      (hallocated : ∀ j, p'.Allocated j ↔ j = i ∨ p.Allocated j)
      (htotal : p'.totalPages = p.totalPages) (hreserves : p'.Reserves) :
      AllocResult p (p', pageAddr i)

theorem pmmAllocPage_spec {p : Pmm} (h : p.Reserves) : AllocResult p (pmmAllocPage p) := by
  unfold pmmAllocPage
  split
  · rename_i i hi
    obtain ⟨hlt, hfree⟩ := Pmm.findFree_some hi h.lastFreePage_le
    have hallocated : ∀ j, pmmBitmapTest (pmmBitmapSet p.bitmap i) j = true ↔
        j = i ∨ p.Allocated j := by
      intro j
      rw [pmmBitmapTest_set, Bool.or_eq_true, decide_eq_true_eq]
      rfl
    refine .page i hlt (fun h0 => hfree (h0 ▸ h.zero)) hfree _ hallocated rfl ?_
    exact ⟨h.totalPages_le, hlt, (hallocated 0).mpr (.inr h.zero)⟩
  · exact .null ‹_›

/-- A run that is taken is allocated, and nothing else changes. -/
theorem pmmTakeRun_allocated (p : Pmm) (i count j : ℕ) :
    (pmmTakeRun p i count).Allocated j ↔ p.Allocated j ∨ i ≤ j ∧ j < i + count := by
  rw [Pmm.Allocated, pmmTakeRun, pmmBitmapTest_foldl_set, List.mem_range'_1]
  rfl

theorem Pmm.Reserves.takeRun {p : Pmm} (h : p.Reserves) (i count : ℕ) :
    (pmmTakeRun p i count).Reserves :=
  ⟨h.totalPages_le, h.lastFreePage_le, (pmmTakeRun_allocated p i count 0).mpr (.inl h.zero)⟩

/-! ### Freeing -/

/-- Freeing a page clears its bit, if it is a page of the machine, and no other. -/
theorem pmmFreePage_allocated (p : Pmm) (addr : Word) (j : ℕ) :
    (pmmFreePage p addr).Allocated j ↔
      p.Allocated j ∧ ¬ (j = pageIndex addr ∧ j < p.totalPages) := by
  by_cases hlt : pageIndex addr < p.totalPages
  · by_cases hset : pmmBitmapTest p.bitmap (pageIndex addr) = true
    · simp only [pmmFreePage, if_pos hlt, if_pos hset, Pmm.Allocated]
      rw [pmmBitmapTest_unset, Bool.and_eq_true, Bool.not_eq_true', decide_eq_false_iff_not,
        and_comm]
      exact and_congr_right fun _ => not_congr ⟨fun hj => ⟨hj, hj ▸ hlt⟩, fun hj => hj.1⟩
    · simp only [pmmFreePage, if_pos hlt, if_neg hset]
      refine (and_iff_left_of_imp fun hj hji => hset ?_).symm
      rw [← hji.1]
      exact hj
  · simp only [pmmFreePage, if_neg hlt]
    refine (and_iff_left ?_).symm
    rintro ⟨rfl, hj⟩
    exact hlt hj

@[simp] theorem pmmFreePage_totalPages (p : Pmm) (addr : Word) :
    (pmmFreePage p addr).totalPages = p.totalPages := by
  unfold pmmFreePage
  dsimp only
  split_ifs <;> rfl

theorem Pmm.Reserves.free {p : Pmm} (h : p.Reserves) {addr : Word}
    (hpos : pageIndex addr ≠ 0) : (pmmFreePage p addr).Reserves := by
  refine ⟨by simpa using h.totalPages_le, ?_, ?_⟩
  · have hlast := h.lastFreePage_le
    unfold pmmFreePage
    dsimp only
    split_ifs <;> first | exact hlast | (dsimp only; omega)
  · rw [pmmFreePage_allocated]
    exact ⟨h.zero, fun hj => hpos hj.1.symm⟩

/-- From `p` to `p'` the pages of `S` were freed, as far as they exist, and no others. -/
structure Frees (p : Pmm) (S : Set ℕ) (p' : Pmm) : Prop where
  totalPages : p'.totalPages = p.totalPages
  allocated : ∀ j, p'.Allocated j ↔ p.Allocated j ∧ ¬ (j ∈ S ∧ j < p.totalPages)
  reserves : p.Reserves → 0 ∉ S → p'.Reserves

theorem Frees.refl (p : Pmm) : Frees p ∅ p := ⟨rfl, by simp, fun h _ => h⟩

theorem Frees.congr {p p' : Pmm} {S S' : Set ℕ} (hSS' : S' = S) (h : Frees p S' p') :
    Frees p S p' :=
  hSS' ▸ h

theorem Frees.trans {p p' p'' : Pmm} {S S' : Set ℕ} (h : Frees p S p') (h' : Frees p' S' p'') :
    Frees p (S ∪ S') p'' := by
  refine ⟨h'.totalPages.trans h.totalPages, fun j => ?_, fun hres h0 => ?_⟩
  · rw [h'.allocated, h.allocated, h.totalPages, Set.mem_union, and_assoc]
    refine and_congr_right fun _ => ?_
    tauto
  · rw [Set.mem_union, not_or] at h0
    exact h'.reserves (h.reserves hres h0.1) h0.2

theorem Frees.freePage (p : Pmm) (addr : Word) :
    Frees p {pageIndex addr} (pmmFreePage p addr) where
  totalPages := pmmFreePage_totalPages p addr
  allocated := pmmFreePage_allocated p addr
  reserves h h0 := h.free fun hzero => h0 (by simp [hzero])

/-- A loop frees what its turns free. -/
theorem Frees.foldl {α : Type*} {f : Pmm → α → Pmm} {S : α → Set ℕ}
    (hf : ∀ p x, Frees p (S x) (f p x)) (l : List α) (p : Pmm) :
    Frees p {j | ∃ x ∈ l, j ∈ S x} (l.foldl f p) := by
  induction l generalizing p with
  | nil => simpa using Frees.refl p
  | cons x l ih =>
    have hset : {j | ∃ y ∈ x :: l, j ∈ S y} = S x ∪ {j | ∃ y ∈ l, j ∈ S y} := by
      ext j
      simp
    rw [hset, List.foldl_cons]
    exact (hf p x).trans (ih (f p x))

end KyroOS.Memory

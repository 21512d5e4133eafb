import KyroOS.Memory.PmmInit
import KyroOS.Lib.Transition

/-!
# Runs of the page allocator

The calls of `pmm_alloc_page`, `pmm_alloc_pages` and `pmm_free_page` after `pmm_init`, beside
a ledger of the pages that were handed out and not freed.

## Main definitions

* `Ledger`, `PmmCall`, `pmmSystem` — the allocator with the pages that are live
* `Takes` — a run of free pages was taken
* `PmmSafe` — what a caller relies on

## Main results

* `pmmAllocPages_outcome`, `findRun_eq_none` — a run is returned if there is one
* `pmmSafe_of_reachable` — no page is handed out twice, only usable pages are, the counter is
  right, and a free page is found if there is one
-/

namespace KyroOS.Memory

open Transition

/-! ### Taking a run of pages -/

/-- From `p` to `p'` the pages from `i` on were taken, all of them free. -/
structure Takes (p : Pmm) (i count : ℕ) (p' : Pmm) : Prop where
  run : p.RunFree i count
  totalPages : p'.totalPages = p.totalPages
  allocated : ∀ j, p'.Allocated j ↔ p.Allocated j ∨ i ≤ j ∧ j < i + count
  allocatedPages : p'.allocatedPages = p.allocatedPages + BitVec.ofNat 64 count
  lastFreePage : p'.lastFreePage ≤ p.totalPages

/-- The result of an allocation: `NULL`, or the address of a run. -/
inductive AllocOutcome (p : Pmm) (count : ℕ) : Pmm × Word → Prop
  | null : AllocOutcome p count (p, 0)
  | run (i : ℕ) (p' : Pmm) (hpos : 0 < count) (htakes : Takes p i count p') :
      AllocOutcome p count (p', pageAddr i)

section Allocation

variable {p : Pmm} {bitmap : ℕ → Byte} {i k count last : ℕ}

theorem pmmAllocPage_outcome (h : p.lastFreePage ≤ p.totalPages) :
    AllocOutcome p 1 (pmmAllocPage p) := by
  unfold pmmAllocPage
  split
  · rename_i i hi
    obtain ⟨hlt, hfree⟩ := Pmm.findFree_some hi h
    refine .run i _ one_pos ⟨⟨hlt, ?_⟩, rfl, fun j => ?_, rfl, hlt⟩
    · intro j hj
      obtain rfl : j = i := by simpa using hj
      exact hfree
    · rw [Pmm.Allocated, pmmBitmapTest_set, Bool.or_eq_true, decide_eq_true_eq, or_comm]
      exact or_congr_right ⟨fun hj => by omega, fun hj => by omega⟩
  · exact .null

/-- What the loop finds is a run of free pages. -/
theorem findRun_eq_some (h : findRun bitmap count last i = some k) :
    k ≤ last ∧ ∀ j < count, pmmBitmapTest bitmap (k + j) = false := by
  induction i using findRun.induct bitmap count last with
  | case1 i hle j hj ih =>
    rw [findRun, if_pos hle, hj] at h
    exact ih h
  | case2 i hle hnone =>
    rw [findRun, if_pos hle, hnone] at h
    obtain rfl := Option.some.inj h
    refine ⟨hle, fun j hj => ?_⟩
    have hclear := List.find?_eq_none.mp hnone j (List.mem_range.mpr hj)
    exact Bool.eq_false_iff.mpr hclear
  | case3 i hgt =>
    rw [findRun, if_neg hgt] at h
    cases h

/-- Where the loop finds nothing there is no run: each one that it skipped has a page that
is taken. -/
theorem findRun_eq_none (h : findRun bitmap count last i = none) (hik : i ≤ k) (hk : k ≤ last) :
    ∃ j < count, pmmBitmapTest bitmap (k + j) = true := by
  induction i using findRun.induct bitmap count last with
  | case1 i hle j hj ih =>
    rw [findRun, if_pos hle, hj] at h
    have hset := List.find?_some hj
    have hlt := List.mem_range.mp (List.mem_of_find?_eq_some hj)
    by_cases hbehind : i + j + 1 ≤ k
    · exact ih h hbehind
    · refine ⟨i + j - k, by omega, ?_⟩
      rwa [show k + (i + j - k) = i + j by omega]
  | case2 i hle hnone =>
    rw [findRun, if_pos hle, hnone] at h
    cases h
  | case3 i hgt => omega

theorem pmmAllocPages_outcome (h : p.lastFreePage ≤ p.totalPages) (htotal : p.totalPages < 2 ^ 64)
    {count : Word} (hcount : count.toNat ≤ p.totalPages) :
    AllocOutcome p count.toNat (pmmAllocPages p count) := by
  unfold pmmAllocPages
  split_ifs with h0 h1
  · exact .null
  · rw [h1]
    exact pmmAllocPage_outcome h
  split
  · rename_i i hi
    obtain ⟨hlast, hclear⟩ := findRun_eq_some hi
    have hpos : 0 < count.toNat := Nat.pos_of_ne_zero fun hzero => h0 (BitVec.eq_of_toNat_eq hzero)
    rw [BitVec.toNat_sub, BitVec.toNat_ofNat, Nat.mod_eq_of_lt htotal] at hlast
    refine .run i _ hpos ⟨⟨by omega, fun j hj => ?_⟩, rfl, pmmTakeRun_allocated p i _, rfl, h⟩
    rw [List.mem_range'_1] at hj
    have hj' := hclear (j - i) (by omega)
    rw [show i + (j - i) = j by omega] at hj'
    simp [Pmm.Allocated, hj']
  · exact .null

end Allocation

/-! ### The ledger -/

/-- The allocator and the pages that were handed out and not freed. -/
structure Ledger where
  pmm : Pmm
  live : Finset ℕ

inductive PmmCall
  | allocPage
  | allocPages (count : Word)
  | freePage (addr : Word)

/-- The pages of the run at the address `addr`, none for `NULL`. -/
def runPages (addr : Word) (count : ℕ) : Finset ℕ :=
  if addr = 0 then ∅ else Finset.Ico (pageIndex addr) (pageIndex addr + count)

/-- The pages that a call hands out. -/
def Ledger.handedOut (l : Ledger) : PmmCall → Finset ℕ
  | .allocPage => runPages (pmmAllocPage l.pmm).2 1
  | .allocPages count => runPages (pmmAllocPages l.pmm count).2 count.toNat
  | .freePage _ => ∅

/-- The calls a client may make: no more pages than there are, and only live ones freed. -/
def Ledger.Admits (l : Ledger) : PmmCall → Prop
  | .allocPage => True
  | .allocPages count => count.toNat ≤ l.pmm.totalPages
  | .freePage addr => pageIndex addr ∈ l.live

def Ledger.after (l : Ledger) : PmmCall → Ledger
  | .allocPage => ⟨(pmmAllocPage l.pmm).1, l.live ∪ l.handedOut .allocPage⟩
  | .allocPages count => ⟨(pmmAllocPages l.pmm count).1, l.live ∪ l.handedOut (.allocPages count)⟩
  | .freePage addr => ⟨pmmFreePage l.pmm addr, l.live.erase (pageIndex addr)⟩

/-- The calls that follow `pmm_init`. -/
def pmmSystem (s : PmmInit) : System Ledger PmmCall where
  init l := l = ⟨s.pmm, ∅⟩
  step l call l' := l.Admits call ∧ l' = l.after call

/-- What holds of the allocator before every call: what the call hands out is not live, and is
usable and not of the bitmap; the counter is the number of live pages; and `NULL` is returned
for want of a free page only. -/
structure PmmSafe (mmap : List MemmapEntry) (s : PmmInit) (l : Ledger) : Prop where
  fresh : ∀ call, l.Admits call → Disjoint (l.handedOut call) l.live
  usable : ∀ call, l.Admits call → ∀ i ∈ l.handedOut call,
    (∃ e ∈ mmap, e.Usable ∧ e.Covers i) ∧ i ∉ s.bitmapPages
  counter : l.pmm.allocatedPages.toNat = l.live.card
  complete : (pmmAllocPage l.pmm).2 = 0 → ∀ i < l.pmm.totalPages, l.pmm.Allocated i

/-! ### The invariant -/

/-- The pages that are taken are the ones taken at boot and the live ones. -/
structure LedgerInv (s : PmmInit) (l : Ledger) : Prop where
  totalPages : l.pmm.totalPages = s.pmm.totalPages
  lastFreePage : l.pmm.lastFreePage ≤ l.pmm.totalPages
  allocated : ∀ i < s.pmm.totalPages, l.pmm.Allocated i ↔ s.pmm.Allocated i ∨ i ∈ l.live
  live : ∀ i ∈ l.live, i < s.pmm.totalPages ∧ ¬ s.pmm.Allocated i
  counter : l.pmm.allocatedPages = BitVec.ofNat 64 l.live.card

section Runs

variable {mmap : List MemmapEntry} {offset : Word} {ram : Word → Byte} {s : PmmInit}
  {l l' : Ledger} {call : PmmCall} {count i : ℕ} {p' : Pmm}

/-- The pages of an allocation that succeeded. -/
theorem runPages_pageAddr (hi : i < 2 ^ 52) (hi0 : i ≠ 0) :
    runPages (pageAddr i) count = Finset.Ico i (i + count) := by
  rw [runPages, if_neg (pageAddr_ne_zero hi hi0), pageIndex_pageAddr hi]

/-- What an allocation hands out was free, and the ledger stays right. -/
theorem LedgerInv.alloc (h : LedgerInv s l) (hzero : 0 < s.pmm.totalPages → s.pmm.Allocated 0)
    (htotal : s.pmm.totalPages < 2 ^ 52) {result : Pmm × Word}
    (hout : AllocOutcome l.pmm count result) :
    LedgerInv s ⟨result.1, l.live ∪ runPages result.2 count⟩ ∧
      ∀ i ∈ runPages result.2 count, i < s.pmm.totalPages ∧ ¬ s.pmm.Allocated i ∧ i ∉ l.live := by
  cases hout with
  | null =>
    have hnone : runPages 0 count = ∅ := if_pos rfl
    rw [hnone, Finset.union_empty]
    exact ⟨h, by simp⟩
  | run i p' hpos htakes =>
    obtain ⟨⟨hend, hfree⟩, htakes₁, htakes₂, htakes₃, htakes₄⟩ := htakes
    rw [h.totalPages] at hend
    have hnew : ∀ j ∈ Finset.Ico i (i + count),
        j < s.pmm.totalPages ∧ ¬ s.pmm.Allocated j ∧ j ∉ l.live := by
      intro j hj
      rw [Finset.mem_Ico] at hj
      have hnot := hfree j (List.mem_range'_1.mpr hj)
      rw [h.allocated j (by omega), not_or] at hnot
      exact ⟨by omega, hnot⟩
    -- the run does not start at page 0, which was taken at boot
    have hi0 : i ≠ 0 := by
      rintro rfl
      exact (hnew 0 (by simpa using hpos)).2.1 (hzero (by omega))
    rw [runPages_pageAddr (by omega) hi0]
    refine ⟨⟨htakes₁.trans h.totalPages, htakes₁ ▸ htakes₄, fun j hj => ?_, fun j hj => ?_, ?_⟩, hnew⟩
    · rw [htakes₂, h.allocated j hj, Finset.mem_union, Finset.mem_Ico, or_assoc]
    · rcases Finset.mem_union.mp hj with hj | hj
      · exact h.live j hj
      · exact ⟨(hnew j hj).1, (hnew j hj).2.1⟩
    · have hdisj : Disjoint l.live (Finset.Ico i (i + count)) :=
        Finset.disjoint_right.mpr fun j hj => (hnew j hj).2.2
      rw [htakes₃, h.counter, Finset.card_union_of_disjoint hdisj, Nat.card_Ico,
        Nat.add_sub_cancel_left, BitVec.ofNat_add]

/-- Freeing a live page. -/
theorem LedgerInv.free (h : LedgerInv s l) {addr : Word} (hlive : pageIndex addr ∈ l.live) :
    LedgerInv s ⟨pmmFreePage l.pmm addr, l.live.erase (pageIndex addr)⟩ := by
  obtain ⟨hlt, hnot⟩ := h.live _ hlive
  have hset : pmmBitmapTest l.pmm.bitmap (pageIndex addr) = true :=
    (h.allocated _ hlt).mpr (.inr hlive)
  have hlt' : pageIndex addr < l.pmm.totalPages := h.totalPages ▸ hlt
  have hlast := h.lastFreePage
  refine ⟨(pmmFreePage_totalPages _ _).trans h.totalPages, ?_, fun j hj => ?_, fun j hj => ?_, ?_⟩
  · rw [pmmFreePage_totalPages]
    simp only [pmmFreePage, if_pos hlt', if_pos hset]
    split_ifs <;> omega
  · rw [pmmFreePage_allocated, h.allocated j hj, h.totalPages, Finset.mem_erase]
    by_cases heq : j = pageIndex addr
    · subst heq
      simp [hnot, hj]
    · simp [heq]
  · exact h.live j (Finset.mem_of_mem_erase hj)
  · have hcard := Finset.card_erase_add_one hlive
    have hcounter := h.counter
    rw [← hcard, BitVec.ofNat_add] at hcounter
    simp only [pmmFreePage, if_pos hlt', if_pos hset, hcounter]
    exact BitVec.add_sub_cancel _ _

/-- The invariant, and what the next call hands out. -/
theorem LedgerInv.handedOut (h : LedgerInv s l) (hzero : 0 < s.pmm.totalPages → s.pmm.Allocated 0)
    (htotal : s.pmm.totalPages < 2 ^ 52) (hadm : l.Admits call) :
    LedgerInv s (l.after call) ∧
      ∀ i ∈ l.handedOut call, i < s.pmm.totalPages ∧ ¬ s.pmm.Allocated i ∧ i ∉ l.live := by
  cases call with
  | allocPage => exact h.alloc hzero htotal (pmmAllocPage_outcome h.lastFreePage)
  | allocPages count =>
    refine h.alloc hzero htotal (pmmAllocPages_outcome h.lastFreePage ?_ hadm)
    rw [h.totalPages]
    omega
  | freePage addr => exact ⟨h.free hadm, by simp [Ledger.handedOut]⟩

/-- Page 0 is taken at boot. -/
theorem InitOk.allocated_zero (hinit : InitOk mmap s) (hmap : LimineMap mmap)
    (hpos : 0 < s.pmm.totalPages) : s.pmm.Allocated 0 := by
  by_contra hfree
  obtain ⟨⟨e, he, husable, hcov⟩, -⟩ := (hinit.free 0 hpos).mp hfree
  exact hmap.zero e he husable hcov

/-- The allocator is safe in every state that is reached after `pmm_init`. -/
theorem pmmSafe_of_reachable (hmap : LimineMap mmap) (hok : pmmInit mmap offset ram = .ok s)
    (hcovers : s.pmm.totalPages ≤ 8 * s.bitmapSize.toNat) (h : (pmmSystem s).Reachable l) :
    PmmSafe mmap s l := by
  obtain ⟨htotal, hsize, hcount, hlast, -⟩ := pmmInit_ok hok
  have hinit : InitOk mmap s := by
    refine InitOk.of_bitmapFits hmap hok ((bitmapFits_iff mmap).mpr ?_)
    rwa [← htotal, ← hsize]
  have hlt : s.pmm.totalPages < 2 ^ 52 := htotal ▸ totalPages_lt mmap
  have hzero := hinit.allocated_zero hmap
  have hinv : LedgerInv s l := by
    refine h.invariant ?_ ?_
    · rintro _ rfl
      refine ⟨rfl, ?_, by simp, by simp, by simp [hcount]⟩
      rw [hlast]
      exact Nat.zero_le _
    · rintro l call _ hinv - ⟨hadm, rfl⟩
      exact (hinv.handedOut hzero hlt hadm).1
  refine ⟨fun call hadm => ?_, fun call hadm i hi => ?_, ?_, fun hnull i hi => ?_⟩
  · exact Finset.disjoint_left.mpr fun i hi => ((hinv.handedOut hzero hlt hadm).2 i hi).2.2
  · obtain ⟨hi, hfree, -⟩ := (hinv.handedOut hzero hlt hadm).2 i hi
    exact (hinit.free i hi).mp hfree
  · have hcard : l.live.card ≤ s.pmm.totalPages := by
      have hsub : l.live ⊆ Finset.range s.pmm.totalPages :=
        fun i hi => Finset.mem_range.mpr (hinv.live i hi).1
      simpa using Finset.card_le_card hsub
    rw [hinv.counter, BitVec.toNat_ofNat, Nat.mod_eq_of_lt (by omega)]
  · -- a page that is found has a nonzero address
    by_contra hfree
    have hfind := Pmm.findFree_ne_none hi hfree
    cases hpage : l.pmm.findFree with
    | none => exact hfind hpage
    | some k =>
      obtain ⟨hk, hk'⟩ := Pmm.findFree_some hpage hinv.lastFreePage
      rw [hinv.totalPages] at hk
      have haddr : (pmmAllocPage l.pmm).2 = pageAddr k := by simp only [pmmAllocPage, hpage]
      refine pageAddr_ne_zero (hk.trans hlt) (fun hk0 => hk' ?_) (haddr.symm.trans hnull)
      rw [hk0, hinv.allocated 0 (by omega)]
      exact .inl (hzero (by omega))

end Runs

/-- With 511 usable pages, after two pages were allocated. -/
theorem pmmSafe_oneEntry : ∃ s l, pmmInit (oneEntry 511) 0 (fun _ => 0) = .ok s ∧
    (pmmSystem s).Reachable l ∧ PmmSafe (oneEntry 511) s l := by
  obtain ⟨s, hs⟩ := pmmInit_oneEntry 511 (by decide) fun _ => 0
  have hcall : ∀ l, (pmmSystem s).Reachable l → (pmmSystem s).Reachable (l.after .allocPage) :=
    fun l hl => hl.step (a := .allocPage) trivial ⟨trivial, rfl⟩
  have hstart : (pmmSystem s).Reachable ⟨s.pmm, ∅⟩ := .init rfl
  have hreach := hcall _ (hcall _ hstart)
  refine ⟨s, _, hs, hreach, pmmSafe_of_reachable (limineMap_oneEntry (by decide)) hs ?_ hreach⟩
  obtain ⟨htotal, hsize, -⟩ := pmmInit_ok hs
  rw [htotal, hsize, ← bitmapFits_iff]
  decide

end KyroOS.Memory

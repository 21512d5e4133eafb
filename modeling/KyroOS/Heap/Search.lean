import KyroOS.Heap.Runs
import KyroOS.Memory.PmmRuns

/-!
# What `kmalloc` finds

The search of `kmalloc` comes to an end, and returns `NULL` only when there is neither a block
nor a page for the request. The request is rounded to units in 64 bits, and close to the largest
number it wraps around to a block that is a header and nothing else.

## Main definitions

* `FreeList` — the invariant of the free list by itself
* `KmallocComplete` — the search ends, and does not miss a block
* `LargeEnough`, `Exact` — a block has room for the request, and no rounding wraps around

## Main results

* `kmalloc_complete` — every call from a free list in order is complete
* `grant_pmmAllocPages` — what is asked of `pmm_alloc_pages` there, and what it does
* `largeEnough_iff`, `exact_iff` — when a block is large enough
-/

namespace KyroOS.Heap

open KyroOS.Memory CircularList Transition

/-! ### Completeness -/

/-- The free list runs through `l`, in the order of addresses and with gaps, and its blocks lie in
the pages of the heap. -/
structure FreeList (L : Layout) (h : Heap) (l : List Word) : Prop where
  ring : Ring h.next l
  order : l.Pairwise fun a b => h.stop a < b.toNat
  base : L.base ∈ l
  base_size : h.size L.base = 0
  freelist : h.freelist ∈ l
  freeBlock : ∀ a ∈ l, a ≠ L.base → IsBlock L h a
  pages : ∀ j ∈ h.pages, j < L.totalPages

/-- A call of `kmalloc` comes back; it returns `NULL` only if nothing is asked for, or if no block
of the list is large enough and there are no pages; and after `morecore` has got pages, one walk
along the list finds a block. -/
structure KmallocComplete (L : Layout) (pmm : Word → Word) (h : Heap) (l : List Word)
    (nbytes : Word) : Prop where
  ends : ∃ turns h' r, Heap.kmalloc L pmm turns h nbytes = .ok (h', r)
  null : ∀ turns h', Heap.kmalloc L pmm turns h nbytes = .ok (h', 0) →
    nbytes = 0 ∨ (∀ a ∈ l, (h.size a).toNat < (unitsFor nbytes).toNat) ∧
      pmm (pagesFor (unitsFor nbytes)) = 0
  nextPass : ∀ turns h' p, Heap.morecore L pmm turns h (unitsFor nbytes) = .ok (h', p) → p ≠ 0 →
    ∃ l', FreeList L h' l' ∧ ∃ prev ∈ l',
      (unitsFor nbytes).toNat ≤ (h'.size (h'.next prev)).toNat ∧
      Heap.kmallocLoop L pmm (unitsFor nbytes) l'.length h' p =
        .ok (h'.carve (unitsFor nbytes) prev (h'.next prev))

section Complete

variable {L : Layout} {h h' : Heap} {l : List Word} {live : Finset Word} {δ : ℤ}
  {nbytes r : Word} {pmm : Word → Word} {turns : ℕ}

theorem ListInv.freeList (hinv : ListInv L h l live δ) : FreeList L h l :=
  ⟨hinv.ring, hinv.order, hinv.base, hinv.base_size, hinv.freelist, hinv.freeBlock, hinv.pages⟩

/-- A free list with its units, whatever they add up to. -/
theorem FreeList.inv (hlist : FreeList L h l) : ∃ δ, ListInv L h l ∅ δ := by
  refine ⟨((l.map fun a => (h.size a).toNat).sum : ℕ) - 256 * h.pages.card, ?_⟩
  exact {
    ring := hlist.ring
    order := hlist.order
    base := hlist.base
    base_size := hlist.base_size
    freelist := hlist.freelist
    freeBlock := hlist.freeBlock
    liveBlock := fun a ha => absurd ha (Finset.notMem_empty a)
    notFree := fun a ha => absurd ha (Finset.notMem_empty a)
    apart := fun a ha => absurd ha (Finset.notMem_empty a)
    units := by
      rw [Finset.sum_empty]
      omega
    pages := hlist.pages }

/-- How a call of `kmalloc` ends, with any number of turns. -/
theorem ListInv.kmalloc_ends (hinv : ListInv L h l live δ)
    (hgrant : Grant L h pmm (pagesFor (unitsFor nbytes)))
    (hok : Heap.kmalloc L pmm turns h nbytes = .ok (h', r)) :
    nbytes = 0 ∧ h' = h ∧ r = 0 ∨
      nbytes ≠ 0 ∧ LoopEnds L pmm (unitsFor nbytes) h l live δ h' r := by
  by_cases hzero : nbytes = 0
  · rw [Heap.kmalloc, if_pos hzero] at hok
    obtain ⟨rfl, rfl⟩ := Prod.mk.inj (Except.ok.inj hok)
    exact .inl ⟨hzero, rfl, rfl⟩
  -- turns enough give the same result
  have hmax := kmalloc_mono (le_max_left turns (2 * l.length + 1)) hok
  rw [Heap.kmalloc, if_neg hzero] at hmax
  obtain ⟨h₁, r₁, hok₁, hends⟩ := hinv.kmallocLoop hgrant (unitsFor_pos nbytes).1
    (unitsFor_pos nbytes).2 (le_max_right turns (2 * l.length + 1))
  obtain ⟨rfl, rfl⟩ := Prod.mk.inj (Except.ok.inj (hok₁.symm.trans hmax))
  exact .inr ⟨hzero, hends⟩

/-- With turns enough `kmalloc` returns. -/
theorem ListInv.exists_kmalloc (hinv : ListInv L h l live δ)
    (hgrant : Grant L h pmm (pagesFor (unitsFor nbytes))) :
    ∃ turns h' r, Heap.kmalloc L pmm turns h nbytes = .ok (h', r) := by
  by_cases hzero : nbytes = 0
  · exact ⟨0, h, 0, if_pos hzero⟩
  · obtain ⟨h', r, hok, -⟩ := hinv.kmallocLoop hgrant (unitsFor_pos nbytes).1
      (unitsFor_pos nbytes).2 le_rfl
    exact ⟨_, h', r, (if_neg hzero).trans hok⟩

/-- From a free list in order every call is complete. -/
theorem kmalloc_complete (hlist : FreeList L h l)
    (hgrant : Grant L h pmm (pagesFor (unitsFor nbytes))) : KmallocComplete L pmm h l nbytes := by
  obtain ⟨δ, hinv⟩ := hlist.inv
  refine ⟨hinv.exists_kmalloc hgrant, fun turns h' hok => ?_, fun turns h' p hmore hp => ?_⟩
  · rcases hinv.kmalloc_ends hgrant hok with ⟨hzero, -, -⟩ | ⟨-, hends⟩
    · exact .inl hzero
    · right
      generalize hr : (0 : Word) = r at hends
      cases hends with
      | null hsmall hpmm => exact ⟨hsmall, hpmm⟩
      | block hinv' =>
        -- a block is not at `NULL`
        exact absurd hr.symm (hinv'.add_16_ne (Finset.mem_insert_self _ _))
  · have hmax := morecore_mono (le_max_left turns l.length) hmore
    rcases hinv.morecore hgrant (unitsFor_pos nbytes).2 (le_max_right turns l.length) with
      ⟨-, hnull⟩ | ⟨h₁, l', -, hok, -, hinv', -, b, hb, hbig⟩
    · obtain ⟨-, rfl⟩ := Prod.mk.inj (Except.ok.inj (hnull.symm.trans hmax))
      exact absurd rfl hp
    · obtain ⟨rfl, rfl⟩ := Prod.mk.inj (Except.ok.inj (hok.symm.trans hmax))
      refine ⟨l', hinv'.freeList, ?_⟩
      rcases hinv'.loop pmm (unitsFor nbytes) le_rfl with ⟨prev, hprev, hfits, hloop⟩ | ⟨hsmall, -⟩
      · exact ⟨prev, hprev, hfits, hloop⟩
      · exact absurd hbig (not_le.mpr (hsmall b hb))

end Complete

/-- `pmm_alloc_pages` keeps its promise for requests that memory has room for, as long as the pages
of the heap are not free. -/
theorem grant_pmmAllocPages {L : Layout} {h : Heap} {p : Pmm} {count : Word} (hres : p.Reserves)
    (htotal : p.totalPages = L.totalPages) (hpages : ∀ j ∈ h.pages, p.Allocated j)
    (hcount : count.toNat ≤ p.totalPages) :
    Grant L h (fun count => (pmmAllocPages p count).2) count := by
  intro hne
  have hmax : p.totalPages < 2 ^ 64 := hres.totalPages_le.trans_lt (by decide)
  have houtcome := pmmAllocPages_outcome hres.lastFreePage_le hmax hcount
  dsimp only at hne ⊢
  generalize pmmAllocPages p count = result at houtcome hne ⊢
  cases houtcome with
  | null => exact absurd rfl hne
  | run i p' hpos htakes =>
    obtain ⟨hend, hfree⟩ := htakes.run
    refine ⟨fun hzero => ?_, i, rfl, htotal ▸ hend, fun j hij hj hmem => ?_⟩
    · rw [hzero] at hpos
      exact absurd hpos (by decide)
    · exact hfree j (List.mem_range'_1.mpr ⟨hij, hj⟩) (hpages j hmem)

/-- A heap without blocks gets pages for its first request. -/
theorem kmalloc_complete_smallHeap :
    KmallocComplete smallLayout fourPages smallHeap.heap [smallLayout.base] 16 :=
  kmalloc_complete (heapInv_iff.mp (heapInit_inv smallLayout fun _ => 0)).freeList
    ((grants_fourPages rfl).grant _)

/-! ### Large enough -/

/-- The block that `kmalloc` returns has room for the request, in exact arithmetic. -/
def LargeEnough (L : Layout) (pmm : Word → Word) (s : HeapState) (nbytes : Word) : Prop :=
  ∀ turns h r, Heap.kmalloc L pmm turns s.heap nbytes = .ok (h, r) → r ≠ 0 →
    nbytes.toNat ≤ ((h.size (r - 16)).toNat - 1) * headerSize

/-- The units of the request and the pages for them are those of exact arithmetic. -/
structure Exact (nbytes : Word) : Prop where
  units : (unitsFor nbytes).toNat = (nbytes.toNat + headerSize - 1) / headerSize + 1
  pages : (pagesFor (unitsFor nbytes)).toNat =
    (max (unitsFor nbytes).toNat 1024 * headerSize + pageSize - 1) / pageSize

section LargeEnough

variable {L : Layout} {s : HeapState} {l : List Word} {nbytes : Word} {pmm : Word → Word}

theorem unitsFor_toNat (nbytes : Word) : (unitsFor nbytes).toNat =
    if nbytes.toNat ≤ 2 ^ 64 - 16 then (nbytes.toNat + 15) / 16 + 1 else 1 := by
  have hone : (1 : Word).toNat = 1 := rfl
  rw [unitsFor, BitVec.toNat_add, BitVec.toNat_udiv, BitVec.toNat_sub, BitVec.toNat_add, hone,
    show (16 : Word).toNat = 16 from rfl]
  split_ifs <;> omega

theorem pagesFor_toNat (nunits : Word) : (pagesFor nunits).toNat =
    (max nunits.toNat 1024 * 16 % 2 ^ 64 + 4095) % 2 ^ 64 / 4096 := by
  have hfour : (4096 - 1 : Word).toNat = 4095 := by decide
  have hmax : (if nunits < 1024 then 1024 else nunits : Word).toNat = max nunits.toNat 1024 := by
    have hiff : nunits < 1024 ↔ nunits.toNat < 1024 := Iff.rfl
    split_ifs with hsmall
    · exact (max_eq_right (hiff.mp hsmall).le).symm
    · exact (max_eq_left (not_lt.mp (mt hiff.mpr hsmall))).symm
  rw [pagesFor, BitVec.toNat_udiv, BitVec.toNat_add, BitVec.toNat_mul, hfour, hmax]
  rfl

/-- The rounding is exact up to a page and a header below the largest number. -/
theorem exact_iff (nbytes : Word) : Exact nbytes ↔ nbytes.toNat ≤ 2 ^ 64 - 4112 := by
  have hlt := nbytes.isLt
  have hunits := unitsFor_toNat nbytes
  have hpages := pagesFor_toNat (unitsFor nbytes)
  constructor
  · rintro ⟨hexact, hexact'⟩
    unfold headerSize pageSize at *
    split_ifs at hunits <;> omega
  · intro hle
    rw [if_pos (by omega)] at hunits
    refine ⟨hunits, ?_⟩
    unfold headerSize pageSize
    rw [hpages]
    omega

/-- A free list without blocks. -/
theorem ListInv.next_base {h : Heap} {live : Finset Word} {δ : ℤ} (hinv : ListInv L h l live δ) :
    h.next L.base = L.base ↔ ∀ a ∈ l, (h.size a).toNat < 1 := by
  constructor
  · intro hself a ha
    have hreach := (hinv.ring.reaches_iff hinv.base).mpr ha
    have honly : a = L.base := by
      induction hreach with
      | refl => rfl
      | tail hbefore hlast ih =>
        rw [← hlast, ih ((hinv.ring.reaches_iff hinv.base).mp hbefore), hself]
    rw [honly, hinv.base_size]
    exact Nat.one_pos
  · intro hsmall
    by_contra hne
    have hmem := hinv.ring.next_mem hinv.base
    exact absurd (hinv.freeBlock _ hmem hne).pos (Nat.not_lt.mpr (Nat.lt_one_iff.mp
      (hsmall _ hmem)).le)

/-- A request that wraps around is one for a single unit. -/
theorem unitsFor_wrap (hwrap : ¬ nbytes.toNat ≤ 2 ^ 64 - headerSize) : unitsFor nbytes = 1 := by
  have hunits := unitsFor_toNat nbytes
  unfold headerSize at hwrap
  rw [if_neg hwrap] at hunits
  exact BitVec.eq_of_toNat_eq hunits

/-- Such a request gets no block only if there is none at all. -/
theorem ListInv.wrap_null {h h' : Heap} {live : Finset Word} {δ : ℤ} {r : Word}
    (hinv : ListInv L h l live δ) (hwrap : ¬ nbytes.toNat ≤ 2 ^ 64 - headerSize)
    (hends : LoopEnds L pmm (unitsFor nbytes) h l live δ h' r) :
    r = 0 ↔ h.next L.base = L.base ∧ pmm 4 = 0 := by
  rw [unitsFor_wrap hwrap] at hends
  cases hends with
  | null hsmall hpmm => exact iff_of_true rfl ⟨hinv.next_base.mpr hsmall, hpmm⟩
  | block hinv' _ _ _ hsource =>
    refine iff_of_false (hinv'.add_16_ne (Finset.mem_insert_self _ _)) ?_
    rintro ⟨hempty, hpmm⟩
    rcases hsource with ⟨x, hx, hbig⟩ | hpages
    · exact absurd hbig (Nat.not_le.mpr (hinv.next_base.mp hempty x hx))
    · exact hpages hpmm

/-- A block is large enough exactly when its request does not wrap around, or when there is no block
to be had for one unit. -/
theorem ListInv.largeEnough {δ : ℤ} (hinv : ListInv L s.heap l s.live δ)
    (hgrant : Grant L s.heap pmm (pagesFor (unitsFor nbytes))) (hpos : nbytes ≠ 0) :
    LargeEnough L pmm s nbytes ↔ nbytes.toNat ≤ 2 ^ 64 - headerSize ∨
      s.heap.next L.base = L.base ∧ pmm 4 = 0 := by
  by_cases hle : nbytes.toNat ≤ 2 ^ 64 - headerSize
  · refine iff_of_true (fun turns h' r hok hr => ?_) (.inl hle)
    rcases hinv.kmalloc_ends hgrant hok with ⟨hzero, -, -⟩ | ⟨-, hends⟩
    · exact absurd hzero hpos
    · cases hends with
      | null => exact absurd rfl hr
      | block hinv' _ _ hsize =>
        rw [BitVec.add_sub_cancel, hsize]
        have hroom := le_unitsFor hle
        unfold headerSize at hroom ⊢
        omega
  rw [or_iff_right hle]
  constructor
  · intro hlarge
    obtain ⟨turns, h', r, hok⟩ := hinv.exists_kmalloc hgrant
    rcases hinv.kmalloc_ends hgrant hok with ⟨hzero, -, -⟩ | ⟨-, hends⟩
    · exact absurd hzero hpos
    refine (hinv.wrap_null hle hends).mp (by_contra fun hr => ?_)
    cases hends with
    | null => exact hr rfl
    | block hinv' _ _ hsize =>
      -- the block is a header and nothing else
      have hroom := hlarge turns h' _ hok hr
      rw [BitVec.add_sub_cancel, hsize, unitsFor_wrap hle] at hroom
      exact absurd (hroom.trans (by decide)) hle
  · intro hnone turns h' r hok hr
    rcases hinv.kmalloc_ends hgrant hok with ⟨hzero, -, -⟩ | ⟨-, hends⟩
    · exact absurd hzero hpos
    · exact absurd ((hinv.wrap_null hle hends).mpr hnone) hr

/-- In a run without a request of `krealloc` that wraps around, a block is large enough and the
rounding exact when the request is a page and a header below the largest number. For a block that is
large enough a header less is enough. -/
theorem largeEnough_iff (h : (heapSystem L).ReachableUnder KeepsSizes s)
    (hgrant : Grant L s.heap pmm (pagesFor (unitsFor nbytes))) (hpos : nbytes ≠ 0) :
    (LargeEnough L pmm s nbytes ∧ Exact nbytes ↔ nbytes.toNat ≤ 2 ^ 64 - 4112) ∧
      (LargeEnough L pmm s nbytes ↔ nbytes.toNat ≤ 2 ^ 64 - headerSize ∨
        s.heap.next L.base = L.base ∧ pmm 4 = 0) := by
  obtain ⟨l, hheap⟩ := inv_of_reachable h
  have hlarge := (heapInv_iff.mp hheap).largeEnough hgrant hpos
  refine ⟨?_, hlarge⟩
  rw [hlarge, exact_iff, and_iff_right_iff_imp]
  intro hle
  refine .inl (hle.trans ?_)
  decide

end LargeEnough

/-- The first request of a small heap. -/
theorem largeEnough_smallHeap :
    LargeEnough smallLayout fourPages smallHeap 16 ∧ Exact 16 := by
  have hgrant := (grants_fourPages (h := smallHeap.heap) rfl).grant (pagesFor (unitsFor 16))
  exact (largeEnough_iff (.init smallHeap_init) hgrant (by decide)).1.mpr (by decide)

/-- A first request for all of memory gets a header. -/
theorem not_largeEnough : ¬ ∀ L pmm s nbytes, (heapSystem L).Reachable s → Grants L s.heap pmm →
    nbytes ≠ 0 → LargeEnough L pmm s nbytes ∧ Exact nbytes := by
  intro hall
  have hgrants : Grants smallLayout smallHeap.heap fourPages := grants_fourPages rfl
  have hinv := heapInv_iff.mp (heapInit_inv smallLayout fun _ => 0)
  obtain ⟨hlarge, -⟩ := hall smallLayout fourPages smallHeap 0xFFFFFFFFFFFFFFFF
    (.init smallHeap_init) hgrants (by decide)
  rcases (hinv.largeEnough (s := smallHeap) (hgrants.grant _) (by decide)).mp hlarge with
    hle | ⟨-, hnull⟩
  · exact absurd hle (by decide)
  · exact absurd hnull (by decide)

end KyroOS.Heap

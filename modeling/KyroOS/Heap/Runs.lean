import KyroOS.Heap.Calls
import KyroOS.Lib.Transition

/-!
# Runs of the heap

The heap is initialized, and then called in any order, while the owners of its blocks write to
them.

## Main definitions

* `HeapState`, `HeapEvent`, `heapSystem` — the runs from `heap_init` on
* `WellFormed` — the free list is circular and in order, blocks are apart and lie in the pages of
  the heap, and no unit is lost
* `Returns` — every call comes back

## Main results

* `wellFormed_of_reachable` — this holds in every state of a run without a request that wraps
  around
* `not_wellFormed` — a request that does destroys a block
-/

namespace KyroOS.Heap

open KyroOS.Memory CircularList Transition

/-- The heap and its live blocks. -/
structure HeapState where
  heap : Heap
  live : Finset Word

/-- The calls of the heap, with what `pmm_alloc_pages` returns in them, and a write to memory. -/
inductive HeapEvent
  | kmalloc (nbytes : Word) (pmmAllocPages : Word → Word)
  | kfree (ap : Word)
  | krealloc (ptr newSize : Word) (pmmAllocPages : Word → Word)
  | store (x : Word) (b : Byte)

/-- One step. Live blocks are freed, and nobody writes to headers or free blocks. -/
inductive HeapStep (L : Layout) : HeapState → HeapEvent → HeapState → Prop
  | kmalloc {h h' : Heap} {live : Finset Word} {nbytes r : Word} {pmm : Word → Word} {turns : ℕ}
    (hgrants : Grants L h pmm) (hok : Heap.kmalloc L pmm turns h nbytes = .ok (h', r)) :
    HeapStep L ⟨h, live⟩ (.kmalloc nbytes pmm) ⟨h', liveAfterMalloc live r⟩
  | kfree {h h' : Heap} {live : Finset Word} {ap : Word} {turns : ℕ} (hap : IsLive live ap)
    (hok : Heap.kfree turns h ap = .ok h') :
    HeapStep L ⟨h, live⟩ (.kfree ap) ⟨h', liveAfterFree live ap⟩
  | krealloc {h h' : Heap} {live : Finset Word} {ptr newSize r : Word} {pmm : Word → Word}
    {turns : ℕ} (hgrants : Grants L h pmm) (hptr : IsLive live ptr)
    (hok : Heap.krealloc L pmm turns h ptr newSize = .ok (h', r)) :
    HeapStep L ⟨h, live⟩ (.krealloc ptr newSize pmm) ⟨h', liveAfterRealloc live ptr newSize r⟩
  | store {h : Heap} {live : Finset Word} {x : Word} {b : Byte} (hx : Writable L h live x) :
    HeapStep L ⟨h, live⟩ (.store x b) ⟨{ h with mem := storeByte h.mem x b }, live⟩

/-- The runs from `heap_init` on. -/
def heapSystem (L : Layout) : System HeapState HeapEvent where
  init := fun s => ∃ mem, s = ⟨heapInit L mem, ∅⟩
  step := HeapStep L

/-- No request of `krealloc` wraps around when there are bytes to copy. -/
def KeepsSizes (s : HeapState) : HeapEvent → Prop
  | .krealloc ptr newSize _ => Fits s.heap ptr newSize
  | .kmalloc .. | .kfree _ | .store .. => True

/-- The free list from the roving pointer on is `l`: it is circular, has every free block once
and in the order of addresses but for one wrap, and no two of them touch. The free blocks and
the live ones are apart, lie in the pages of the heap, and have all of their units. -/
structure WellFormed (L : Layout) (s : HeapState) (l : List Word) : Prop where
  head : l.head? = some s.heap.freelist
  circular : Ring s.heap.next l
  order : ∃ m : List Word, m.IsRotated l ∧ m.Pairwise fun a b => s.heap.stop a < b.toNat
  base : L.base ∈ l
  notFree : ∀ a ∈ s.live, a ∉ l
  apart : ∀ a b, (a ∈ s.live ∨ a ∈ l) → (b ∈ s.live ∨ b ∈ l) → a ≠ b →
    ∀ x, s.heap.Within a x → ¬ s.heap.Within b x
  inside : ∀ a, (a ∈ s.live ∨ a ∈ l) → ∀ x, s.heap.Within a x → Acquired L s.heap x
  units : (l.map fun a => (s.heap.size a).toNat).sum + ∑ a ∈ s.live, (s.heap.size a).toNat =
    256 * s.heap.pages.card

/-- Every call comes back, but for requests that wrap around. -/
structure Returns (L : Layout) (s : HeapState) : Prop where
  kmalloc : ∀ nbytes pmm, Grants L s.heap pmm →
    ∃ turns h r, Heap.kmalloc L pmm turns s.heap nbytes = .ok (h, r)
  kfree : ∀ ap, IsLive s.live ap → ∃ turns h, Heap.kfree turns s.heap ap = .ok h
  krealloc : ∀ ptr newSize pmm, Grants L s.heap pmm → IsLive s.live ptr →
    Fits s.heap ptr newSize →
      ∃ turns h r, Heap.krealloc L pmm turns s.heap ptr newSize = .ok (h, r)

section Runs

variable {L : Layout} {s s' : HeapState} {e : HeapEvent} {l : List Word}

theorem heapInit_inv (L : Layout) (mem : Word → Word) :
    HeapInv L (heapInit L mem) [L.base] ∅ := by
  have hheader : IsHeader L L.base := .inl rfl
  have hsize : (heapInit L mem).size L.base = 0 := by
    show (Heap.setSize _ L.base 0).size L.base = 0
    rw [size_setSize, Function.update_self]
  have hnext : (heapInit L mem).next L.base = L.base := by
    show (Heap.setSize _ L.base 0).next L.base = L.base
    rw [next_setSize hheader hheader, next_setNext, Function.update_self]
  exact {
    ring := ring_singleton.mpr hnext
    order := List.pairwise_singleton _ _
    base := List.mem_singleton_self _
    base_size := hsize
    freelist := List.mem_singleton_self _
    freeBlock := fun a ha hne => absurd (List.mem_singleton.mp ha) hne
    liveBlock := fun a ha => absurd ha (Finset.notMem_empty a)
    notFree := fun a ha => absurd ha (Finset.notMem_empty a)
    apart := fun a ha => absurd ha (Finset.notMem_empty a)
    units := by
      rw [List.map_singleton, List.sum_singleton, hsize]
      rfl
    pages := fun j hj => absurd hj (Finset.notMem_empty j) }

/-- The step lemma. -/
theorem HeapInv.step (hinv : HeapInv L s.heap l s.live) (hkeeps : KeepsSizes s e)
    (hstep : HeapStep L s e s') : ∃ l', HeapInv L s'.heap l' s'.live := by
  -- turns enough give the same result
  have hle : ∀ turns : ℕ, turns ≤ max turns (2 * l.length + 1) := fun turns => le_max_left _ _
  have hturns : ∀ turns : ℕ, 2 * l.length + 1 ≤ max turns (2 * l.length + 1) :=
    fun turns => le_max_right _ _
  have hlist := heapInv_iff.mp hinv
  cases hstep with
  | @kmalloc h h' live nbytes r pmm turns hgrants hok =>
    obtain ⟨h₁, r₁, hok₁, halloc⟩ := hinv.kmalloc nbytes hgrants (hturns turns)
    obtain ⟨rfl, rfl⟩ := Prod.mk.inj
      (Except.ok.inj (hok₁.symm.trans (kmalloc_mono (hle turns) hok)))
    obtain ⟨l', hinv', -⟩ := halloc.inv
    exact ⟨l', hinv'⟩
  | @kfree h h' live ap turns hap hok =>
    have hmax := hturns turns
    obtain ⟨h₁, l', hok₁, hinv'⟩ := hlist.kfree_live hap
      (show l.length ≤ max turns (2 * l.length + 1) by omega)
    obtain rfl := Except.ok.inj (hok₁.symm.trans (kfree_mono (hle turns) hok))
    exact ⟨l', heapInv_iff.mpr hinv'⟩
  | @krealloc h h' live ptr newSize r pmm turns hgrants hptr hok =>
    obtain ⟨h₁, l', r₁, hok₁, hinv'⟩ := hinv.krealloc hgrants hptr hkeeps (hturns turns)
    obtain ⟨rfl, rfl⟩ := Prod.mk.inj
      (Except.ok.inj (hok₁.symm.trans (krealloc_mono (hle turns) hok)))
    exact ⟨l', hinv'⟩
  | store hx => exact ⟨l, heapInv_iff.mpr (hlist.store hx _)⟩

/-- The run lemma. -/
theorem inv_of_reachable (h : (heapSystem L).ReachableUnder KeepsSizes s) :
    ∃ l, HeapInv L s.heap l s.live := by
  refine h.invariant (I := fun s => ∃ l, HeapInv L s.heap l s.live) ?_ ?_
  · rintro s ⟨mem, rfl⟩
    exact ⟨_, heapInit_inv L mem⟩
  · rintro s e s' ⟨l, hinv⟩ hkeeps hstep
    exact hinv.step hkeeps hstep

/-- The invariant, seen from the roving pointer. -/
theorem HeapInv.wellFormed (hinv : HeapInv L s.heap l s.live) : ∃ l, WellFormed L s l := by
  have hlist := heapInv_iff.mp hinv
  obtain ⟨l₁, l₂, hsplit⟩ := List.append_of_mem hinv.freelist
  have hrotated : l.IsRotated (s.heap.freelist :: (l₂ ++ l₁)) := by
    rw [hsplit, ← List.cons_append]
    exact List.isRotated_append
  have hmem : ∀ {a : Word}, a ∈ s.heap.freelist :: (l₂ ++ l₁) ↔ a ∈ l :=
    fun {a} => hrotated.mem_iff.symm
  have hblocks : ∀ {a : Word}, a ∈ s.live ∨ a ∈ s.heap.freelist :: (l₂ ++ l₁) →
      a ∈ s.live ∨ a ∈ l := fun ha => ha.imp_right hmem.mp
  refine ⟨s.heap.freelist :: (l₂ ++ l₁), rfl, ?_, ⟨l, hrotated, hinv.order⟩, hmem.mpr hinv.base,
    fun a ha hal => hinv.notFree a ha (hmem.mp hal), fun a b ha hb hne x hax hbx => ?_,
    fun a ha x hx => ?_, ?_⟩
  · have hring := hinv.ring
    rw [hsplit] at hring
    exact hring.rotate
  · exact hne (hlist.within_unique (hblocks ha) (hblocks hb) hax hbx)
  · by_cases hbase : a = L.base
    · rw [hbase, Within, hlist.stop_base] at hx
      omega
    · exact (hlist.block (hblocks ha) hbase).inside x hx
  · rw [← (hrotated.perm.map _).sum_eq]
    exact hinv.units

theorem HeapInv.returns (hinv : HeapInv L s.heap l s.live) : Returns L s where
  kmalloc := fun nbytes pmm hgrants => by
    obtain ⟨h, r, hok, -⟩ := hinv.kmalloc nbytes hgrants le_rfl
    exact ⟨_, h, r, hok⟩
  kfree := fun ap hap => by
    obtain ⟨h, l', hok, -⟩ := (heapInv_iff.mp hinv).kfree_live hap le_rfl
    exact ⟨_, h, hok⟩
  krealloc := fun ptr newSize pmm hgrants hptr hfits => by
    obtain ⟨h, l', r, hok, -⟩ := hinv.krealloc hgrants hptr hfits le_rfl
    exact ⟨_, h, r, hok⟩

/-- In every state of a run without a request that wraps around, the heap is well formed, and
every call comes back. -/
theorem wellFormed_of_reachable (h : (heapSystem L).ReachableUnder KeepsSizes s) :
    (∃ l, WellFormed L s l) ∧ Returns L s := by
  obtain ⟨l, hinv⟩ := inv_of_reachable h
  exact ⟨hinv.wellFormed, hinv.returns⟩

end Runs

/-! ### A small heap -/

section Small

/-- The kernel's image above a direct map of 16 pages. -/
def smallLayout : Layout where
  base := 0xFFFFFFFF80100000
  hhdm := 0xFFFF800000000000
  totalPages := 16
  base_aligned := by decide
  hhdm_aligned := by decide
  hhdm_pos := by decide
  below := by decide
  top := by decide

/-- `pmm_alloc_pages` has one run of four pages. -/
def fourPages (count : Word) : Word := if count = 4 then pageAddr 1 else 0

theorem grants_fourPages {h : Heap} (hpages : h.pages = ∅) : Grants smallLayout h fourPages := by
  intro count hne
  unfold fourPages at hne ⊢
  by_cases hcount : count = 4
  · rw [hcount]
    exact ⟨by decide, 1, rfl, by decide, fun j _ _ => by simp [hpages]⟩
  · exact absurd (if_neg hcount) hne

theorem grants_none (L : Layout) (h : Heap) : Grants L h fun _ => 0 :=
  fun _ hne => absurd rfl hne

/-- The events of the small runs. -/
inductive HeapChoice
  | first (nbytes : Word)
  | kmalloc (nbytes : Word)
  | kfree (ap : Word)
  | krealloc (ptr newSize : Word)
  | store (b x : Word) (v : Byte)

/-- The state after a choice. -/
def heapNext (s : HeapState) : HeapChoice → Option HeapState
  | .first nbytes =>
    if s.heap.pages = ∅ then
      (kmalloc smallLayout fourPages 10 s.heap nbytes).toOption.map
        fun p => ⟨p.1, liveAfterMalloc s.live p.2⟩
    else none
  | .kmalloc nbytes =>
    (kmalloc smallLayout (fun _ => 0) 10 s.heap nbytes).toOption.map
      fun p => ⟨p.1, liveAfterMalloc s.live p.2⟩
  | .kfree ap =>
    if ap - 16 ∈ s.live then
      (kfree 10 s.heap ap).toOption.map fun h => ⟨h, liveAfterFree s.live ap⟩
    else none
  | .krealloc ptr newSize =>
    if ptr - 16 ∈ s.live then
      (krealloc smallLayout (fun _ => 0) 10 s.heap ptr newSize).toOption.map
        fun p => ⟨p.1, liveAfterRealloc s.live ptr newSize p.2⟩
    else none
  | .store b x v =>
    if b ∈ s.live ∧ b.toNat + headerSize ≤ x.toNat ∧ x.toNat < s.heap.stop b then
      some ⟨{ s.heap with mem := storeByte s.heap.mem x v }, s.live⟩
    else none

/-- The event of a choice. -/
def heapEvent : HeapChoice → HeapEvent
  | .first nbytes => .kmalloc nbytes fourPages
  | .kmalloc nbytes => .kmalloc nbytes fun _ => 0
  | .kfree ap => .kfree ap
  | .krealloc ptr newSize => .krealloc ptr newSize fun _ => 0
  | .store _ x v => .store x v

instance (s : HeapState) : ∀ c, Decidable (KeepsSizes s (heapEvent c))
  | .krealloc _ _ => inferInstanceAs (Decidable (_ ∨ _))
  | .first _ | .kmalloc _ | .kfree _ | .store .. => inferInstanceAs (Decidable True)

theorem heapStep_of_heapNext {s s' : HeapState} {c : HeapChoice} (h : heapNext s c = some s') :
    HeapStep smallLayout s (heapEvent c) s' := by
  cases c with
  | first nbytes =>
    rw [heapNext] at h
    split_ifs at h with hpages
    obtain ⟨p, hok, rfl⟩ := Option.map_eq_some_iff.mp h
    exact .kmalloc (grants_fourPages hpages) (Outcome.toOption_eq_some.mp hok)
  | kmalloc nbytes =>
    obtain ⟨p, hok, rfl⟩ := Option.map_eq_some_iff.mp h
    exact .kmalloc (grants_none _ _) (Outcome.toOption_eq_some.mp hok)
  | kfree ap =>
    rw [heapNext] at h
    split_ifs at h with hlive
    obtain ⟨k, hok, rfl⟩ := Option.map_eq_some_iff.mp h
    exact .kfree (.inr hlive) (Outcome.toOption_eq_some.mp hok)
  | krealloc ptr newSize =>
    rw [heapNext] at h
    split_ifs at h with hlive
    obtain ⟨p, hok, rfl⟩ := Option.map_eq_some_iff.mp h
    exact .krealloc (grants_none _ _) (.inr hlive) (Outcome.toOption_eq_some.mp hok)
  | store b x v =>
    rw [heapNext] at h
    split_ifs at h with hx
    obtain rfl := Option.some.inj h
    exact .store (.inl ⟨b, hx.1, hx.2⟩)

/-- The state after a choice whose request does not wrap around. -/
def keepsSizesNext (s : HeapState) (c : HeapChoice) : Option HeapState :=
  if KeepsSizes s (heapEvent c) then heapNext s c else none

theorem allowed_of_keepsSizesNext {s s' : HeapState} {c : HeapChoice}
    (h : keepsSizesNext s c = some s') :
    (heapSystem smallLayout).Allowed KeepsSizes s s' := by
  rw [keepsSizesNext] at h
  split_ifs at h with hkeeps
  exact ⟨_, hkeeps, heapStep_of_heapNext h⟩

def smallHeap : HeapState := ⟨heapInit smallLayout fun _ => 0, ∅⟩

theorem smallHeap_init : (heapSystem smallLayout).init smallHeap := ⟨_, rfl⟩

/-- The block at the end of the four pages, the one before it, and the one before that. -/
def lastBlock : Word := 0xFFFF800000001000 + 16 * 1022
def middleBlock : Word := 0xFFFF800000001000 + 16 * 1020

/-- Two blocks are allocated, one is written to and grows, and the other is freed. -/
theorem wellFormed_of_growth : ∃ s : HeapState, s.live.card = 1 ∧
    (∃ l, WellFormed smallLayout s l) ∧ Returns smallLayout s := by
  obtain ⟨s, hs, hcard⟩ := System.exists_reachableUnder (S := heapSystem smallLayout)
    (C := KeepsSizes) (P := fun s : HeapState => s.live.card = 1) keepsSizesNext
    [.first 16, .kmalloc 16, .store lastBlock (lastBlock + 16) 7, .krealloc (lastBlock + 16) 40,
      .kfree (middleBlock + 16)]
    (fun _ _ _ => allowed_of_keepsSizesNext) smallHeap_init (by decide +kernel)
  exact ⟨s, hcard, wellFormed_of_reachable hs⟩

/-- A request for all of memory gets a block without room, and the copy of the old block
overwrites the header behind it. -/
theorem not_wellFormed : ¬ ∀ L s, (heapSystem L).Reachable s → ∃ l, WellFormed L s l := by
  intro hall
  obtain ⟨s, hs, hlive, hsize, hpages⟩ := System.exists_reachableUnder
    (S := heapSystem smallLayout) (C := fun _ _ => True)
    (P := fun s : HeapState => middleBlock ∈ s.live ∧ 2 ^ 40 ≤ (s.heap.size middleBlock).toNat ∧
      s.heap.pages = Finset.Ico 1 5)
    heapNext
    [.first 16, .kmalloc 16, .store lastBlock (lastBlock + 31) 1,
      .krealloc (lastBlock + 16) 0xFFFFFFFFFFFFFFFF]
    (fun s c s' h => ⟨_, trivial, heapStep_of_heapNext h⟩) smallHeap_init (by decide +kernel)
  obtain ⟨l, hl⟩ := hall smallLayout s hs
  -- the block is larger than the pages
  obtain ⟨j, hj, -, hlt⟩ := hl.inside middleBlock (.inl hlive) (middleBlock.toNat + 2 ^ 40)
    ⟨Nat.le_add_right _ _, by unfold stop headerSize; omega⟩
  rw [hpages, Finset.mem_Ico] at hj
  have hmiddle : middleBlock.toNat = smallLayout.hhdm.toNat + 4096 + 16 * 1020 := by decide
  unfold pageSize at hlt
  omega

end Small

end KyroOS.Heap

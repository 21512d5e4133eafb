import KyroOS.Heap.Alloc
import KyroOS.Memory.UserMemory

/-!
# The calls of the heap

With turns enough every call returns and keeps the invariant. A request of `krealloc` close to
the largest number there is wraps around to a block without room, and the copy of the old block
runs over the blocks behind it.

## Main definitions

* `Allocates` — how a call of `kmalloc` ends
* `Fits` — a request that does not wrap around when there are bytes to copy

## Main results

* `ListInv.kmalloc`, `ListInv.krealloc` — the calls return, and keep the invariant
* `ListInv.store` — as do writes to blocks and to memory outside of the heap
-/

namespace KyroOS.Heap

open KyroOS.Memory CircularList

/-! ### `kmalloc` -/

/-- A call of `kmalloc` for `nunits` units that returns `r` made a block live, or none. The list
has `n` blocks at most. -/
inductive Allocates (L : Layout) (live : Finset Word) (nunits : Word) (n : ℕ) (h : Heap) :
    Word → Prop
  | null {l : List Word} (hinv : HeapInv L h l live) (hlength : l.length ≤ n) :
    Allocates L live nunits n h 0
  | block {l : List Word} {b : Word} (hinv : HeapInv L h l (insert b live)) (hlength : l.length ≤ n)
    (hnew : b ∉ live) (hsize : h.size b = nunits) : Allocates L live nunits n h (b + 16)

/-- How the loop of `kmalloc` ends: with `NULL` where no block of the list is large enough and there
are no pages, and with a block otherwise. -/
inductive LoopEnds (L : Layout) (pmm : Word → Word) (nunits : Word) (h : Heap) (l : List Word)
    (live : Finset Word) (δ : ℤ) : Heap → Word → Prop
  | null (hsmall : ∀ x ∈ l, (h.size x).toNat < nunits.toNat) (hpmm : pmm (pagesFor nunits) = 0) :
    LoopEnds L pmm nunits h l live δ h 0
  | block {h' : Heap} {l' : List Word} {b : Word} (hinv : ListInv L h' l' (insert b live) δ)
    (hlength : l'.length ≤ l.length + 1) (hnew : b ∉ live) (hsize : h'.size b = nunits)
    (hsource : (∃ x ∈ l, nunits.toNat ≤ (h.size x).toNat) ∨ pmm (pagesFor nunits) ≠ 0) :
    LoopEnds L pmm nunits h l live δ h' (b + 16)

section Kmalloc

variable {L : Layout} {h h' : Heap} {l : List Word} {live : Finset Word} {δ : ℤ}
  {nunits nbytes r : Word} {pmm : Word → Word} {turns turns' : ℕ}

/-- More turns make no difference. -/
theorem kmallocLoop_mono {prevp : Word} (hle : turns ≤ turns')
    (hok : kmallocLoop L pmm nunits turns h prevp = .ok (h', r)) :
    kmallocLoop L pmm nunits turns' h prevp = .ok (h', r) := by
  induction turns generalizing turns' h prevp with
  | zero => cases hok
  | succ turns ih =>
    obtain ⟨rest, rfl⟩ := Nat.exists_eq_add_of_le' hle
    rw [← Nat.add_assoc, kmallocLoop]
    rw [kmallocLoop] at hok
    dsimp only at hok ⊢
    split_ifs at hok ⊢ with hfits hwrap
    · exact hok
    · obtain ⟨⟨h₁, p⟩, hmore, hrest⟩ := Outcome.bind_eq_ok.mp hok
      refine Outcome.bind_eq_ok.mpr ⟨(h₁, p), morecore_mono (Nat.le_add_left _ _) hmore, ?_⟩
      dsimp only at hrest ⊢
      split_ifs at hrest ⊢ with hnull
      · exact hrest
      · exact ih (Nat.le_add_left _ _) hrest
    · exact ih (Nat.le_add_left _ _) hok

/-- A turn that goes on to the next block. -/
theorem kmallocLoop_next {prevp : Word} (hfits : ¬ nunits ≤ h.size (h.next prevp))
    (hwrap : h.next prevp ≠ h.freelist) :
    kmallocLoop L pmm nunits (turns + 1) h prevp =
      kmallocLoop L pmm nunits turns h (h.next prevp) := by
  rw [kmallocLoop]
  dsimp only
  rw [if_neg hfits, if_neg hwrap]

/-- A walk along the list up to the roving pointer takes the first block that fits, or gets to
`morecore` with the turns that are left. -/
theorem kmallocLoop_walk (pmm : Word → Word) (nunits : Word) (m : List Word) {prevp : Word}
    (hchain : List.IsChain (fun a b => h.next a = b) (prevp :: (m ++ [h.freelist])))
    (hfresh : h.freelist ∉ m) (hturns : m.length < turns) :
    (∃ prev ∈ prevp :: m, nunits.toNat ≤ (h.size (h.next prev)).toNat ∧
      kmallocLoop L pmm nunits turns h prevp = .ok (h.carve nunits prev (h.next prev))) ∨
    (∀ x ∈ m ++ [h.freelist], (h.size x).toNat < nunits.toNat) ∧
      kmallocLoop L pmm nunits turns h prevp = (do
        let (h, p) ← Heap.morecore L pmm (turns - m.length - 1) h nunits
        if p = 0 then return (h, 0)
        else kmallocLoop L pmm nunits (turns - m.length - 1) h p) := by
  obtain ⟨turns, rfl⟩ : ∃ t, turns = t + 1 := ⟨turns - 1, by omega⟩
  induction m generalizing prevp turns with
  | nil =>
    have hnext : h.next prevp = h.freelist := (List.isChain_cons_cons.mp hchain).1
    rw [kmallocLoop, hnext]
    by_cases hfits : nunits ≤ h.size h.freelist
    · refine .inl ⟨prevp, List.mem_cons_self, hnext.symm ▸ hfits, ?_⟩
      rw [hnext]
      exact if_pos hfits
    · refine .inr ⟨fun x hx => ?_, (if_neg hfits).trans (if_pos rfl)⟩
      rw [List.nil_append, List.mem_singleton] at hx
      rw [hx]
      exact not_le.mp hfits
  | cons p m ih =>
    obtain ⟨rfl, hrest⟩ := List.isChain_cons_cons.mp hchain
    rw [List.mem_cons, not_or] at hfresh
    by_cases hfits : nunits ≤ h.size (h.next prevp)
    · refine .inl ⟨prevp, List.mem_cons_self, hfits, ?_⟩
      rw [kmallocLoop]
      exact if_pos hfits
    rw [List.length_cons] at hturns
    obtain ⟨turns, rfl⟩ : ∃ t, turns = t + 1 := ⟨turns - 1, by omega⟩
    rw [kmallocLoop_next hfits (Ne.symm hfresh.1), List.length_cons, Nat.add_sub_add_right]
    rcases ih hrest hfresh.2 turns (by omega) with ⟨prev, hprev, hle, hloop⟩ | ⟨hnone, hloop⟩
    · exact .inl ⟨prev, List.mem_cons_of_mem prevp hprev, hle, hloop⟩
    · refine .inr ⟨fun x hx => ?_, hloop⟩
      rcases List.mem_cons.mp hx with rfl | hx
      · exact not_le.mp hfits
      · exact hnone x hx

/-- From the roving pointer on the walk meets every block of the list. -/
theorem ListInv.loop (hinv : ListInv L h l live δ) (pmm : Word → Word) (nunits : Word)
    (hturns : l.length ≤ turns) :
    (∃ prev ∈ l, nunits.toNat ≤ (h.size (h.next prev)).toNat ∧
      kmallocLoop L pmm nunits turns h h.freelist = .ok (h.carve nunits prev (h.next prev))) ∨
    (∀ x ∈ l, (h.size x).toNat < nunits.toNat) ∧
      kmallocLoop L pmm nunits turns h h.freelist = (do
        let (h, p) ← Heap.morecore L pmm (turns - l.length) h nunits
        if p = 0 then return (h, 0)
        else kmallocLoop L pmm nunits (turns - l.length) h p) := by
  obtain ⟨l₁, l₂, hsplit⟩ := List.append_of_mem hinv.freelist
  have hring : Ring h.next (h.freelist :: (l₂ ++ l₁)) := by
    have hring := hinv.ring
    rw [hsplit] at hring
    exact hring.rotate
  have hmem : ∀ {x : Word}, x ∈ l ↔ x = h.freelist ∨ x ∈ l₂ ++ l₁ := by
    intro x
    rw [hsplit]
    simp only [List.mem_append, List.mem_cons]
    tauto
  have hlength : l.length = (l₂ ++ l₁).length + 1 := by
    rw [hsplit, List.length_append, List.length_cons, List.length_append]
    omega
  have hchain := hring.chain
  rw [Cycle.chain_coe_cons] at hchain
  rw [hlength, ← Nat.sub_sub]
  rcases kmallocLoop_walk pmm nunits (l₂ ++ l₁) hchain (List.nodup_cons.mp hring.nodup).1
    (show (l₂ ++ l₁).length < turns by omega) with ⟨prev, hprev, hle, hloop⟩ | ⟨hnone, hloop⟩
  · exact .inl ⟨prev, hmem.mpr (List.mem_cons.mp hprev), hle, hloop⟩
  · refine .inr ⟨fun x hx => hnone x ?_, hloop⟩
    rw [List.mem_append, List.mem_singleton]
    exact (hmem.mp hx).symm

/-- The loop of `kmalloc` returns. -/
theorem ListInv.kmallocLoop (hinv : ListInv L h l live δ) (hgrant : Grant L h pmm (pagesFor nunits))
    (hpos : 0 < nunits.toNat) (hle : nunits.toNat ≤ 2 ^ 60) (hturns : 2 * l.length + 1 ≤ turns) :
    ∃ h' r, Heap.kmallocLoop L pmm nunits turns h h.freelist = .ok (h', r) ∧
      LoopEnds L pmm nunits h l live δ h' r := by
  have hcarve : ∀ {k : Heap} {m : List Word} {prev : Word}, ListInv L k m live δ →
      m.length ≤ l.length + 1 → prev ∈ m → nunits.toNat ≤ (k.size (k.next prev)).toNat →
      ((∃ x ∈ l, nunits.toNat ≤ (h.size x).toNat) ∨ pmm (pagesFor nunits) ≠ 0) →
      ∃ h' r, k.carve nunits prev (k.next prev) = (h', r) ∧
        LoopEnds L pmm nunits h l live δ h' r := by
    intro k m prev hinv hle hprev hfits hsource
    obtain ⟨h', l', b, hcarve, hinv', hnew, hlength, -, hsize⟩ := hinv.carve hprev hpos hfits
    exact ⟨h', b + 16, hcarve, .block hinv' (hlength.trans hle) hnew hsize hsource⟩
  rcases hinv.loop pmm nunits (show l.length ≤ turns by omega)
    with ⟨prev, hprev, hfits, hloop⟩ | ⟨hsmall, hloop⟩
  · obtain ⟨h', r, heq, hends⟩ := hcarve hinv (Nat.le_succ _) hprev hfits
      (.inl ⟨_, hinv.ring.next_mem hprev, hfits⟩)
    exact ⟨h', r, by rw [hloop, heq], hends⟩
  rcases hinv.morecore hgrant hle (show l.length ≤ turns - l.length by omega) with
    ⟨hpmm, hmore⟩ | ⟨h', l', hpmm, hmore, hne, hinv', hlength, b, hb, hbig⟩
  · refine ⟨h, 0, ?_, .null hsmall hpmm⟩
    rw [hloop, hmore]
    exact Outcome.bind_eq_ok.mpr ⟨(h, 0), rfl, if_pos rfl⟩
  -- the second walk finds the block that `morecore` put into the list
  rcases hinv'.loop pmm nunits (show l'.length ≤ turns - l.length by omega)
    with ⟨prev, hprev, hfits, hloop'⟩ | ⟨hnone, -⟩
  · obtain ⟨h'', r, heq, hends⟩ := hcarve hinv' hlength hprev hfits (.inr hpmm)
    refine ⟨h'', r, ?_, hends⟩
    rw [hloop, hmore]
    refine (if_neg hne).trans ?_
    rw [hloop', heq]
  · have := hnone b hb
    omega

theorem unitsFor_pos (nbytes : Word) : 0 < (unitsFor nbytes).toNat ∧
    (unitsFor nbytes).toNat ≤ 2 ^ 60 := by
  have hone : (1 : Word).toNat = 1 := rfl
  rw [unitsFor, BitVec.toNat_add, BitVec.toNat_udiv, BitVec.toNat_sub, BitVec.toNat_add, hone,
    show (16 : Word).toNat = 16 from rfl]
  omega

/-- With turns enough `kmalloc` returns. -/
theorem HeapInv.kmalloc (hinv : HeapInv L h l live) (nbytes : Word) (hgrants : Grants L h pmm)
    (hturns : 2 * l.length + 1 ≤ turns) : ∃ h' r, Heap.kmalloc L pmm turns h nbytes = .ok (h', r) ∧
      Allocates L live (unitsFor nbytes) (l.length + 1) h' r := by
  unfold Heap.kmalloc
  by_cases hzero : nbytes = 0
  · exact ⟨h, 0, if_pos hzero, .null hinv (Nat.le_succ _)⟩
  · rw [if_neg hzero]
    obtain ⟨h', r, hok, hends⟩ := (heapInv_iff.mp hinv).kmallocLoop (hgrants.grant _)
      (unitsFor_pos nbytes).1 (unitsFor_pos nbytes).2 hturns
    refine ⟨h', r, hok, ?_⟩
    cases hends with
    | null => exact .null hinv (Nat.le_succ _)
    | block hinv' hlength hnew hsize _ => exact .block (heapInv_iff.mpr hinv') hlength hnew hsize

theorem kmalloc_mono (hle : turns ≤ turns')
    (hok : Heap.kmalloc L pmm turns h nbytes = .ok (h', r)) :
    Heap.kmalloc L pmm turns' h nbytes = .ok (h', r) := by
  unfold Heap.kmalloc at hok ⊢
  split_ifs at hok ⊢ with hzero
  · exact hok
  · exact kmallocLoop_mono hle hok

end Kmalloc

/-! ### Writing to blocks -/

section Store

variable {L : Layout} {h h' : Heap} {l : List Word} {live : Finset Word} {δ : ℤ} {a x : Word}

/-- The byte at `x` is one that the owner of a live block, or of memory outside of the heap, may
write. -/
def Writable (L : Layout) (h : Heap) (live : Finset Word) (x : Word) : Prop :=
  (∃ b ∈ live, b.toNat + headerSize ≤ x.toNat ∧ x.toNat < h.stop b) ∨
    ¬ Acquired L h x.toNat ∧ ¬ (L.base.toNat ≤ x.toNat ∧ x.toNat < L.base.toNat + headerSize)

/-- Such a byte is in no header. -/
theorem ListInv.notMem_header (hinv : ListInv L h l live δ) (hx : Writable L h live x)
    (ha : a ∈ live ∨ a ∈ l) : ¬ (a.toNat ≤ x.toNat ∧ x.toNat < a.toNat + headerSize) := by
  rintro ⟨hle, hlt⟩
  by_cases hbase : a = L.base
  · rcases hx with ⟨b, hb, -, hstop⟩ | ⟨-, hout⟩
    · have := hinv.stop_le (.inl hb)
      rw [hbase] at hle
      omega
    · exact hout ⟨hbase ▸ hle, hbase ▸ hlt⟩
  have hblock := hinv.block ha hbase
  have hwithin : h.Within a x.toNat := ⟨hle, hlt.trans_le hblock.lt_stop⟩
  rcases hx with ⟨b, hb, hge, hstop⟩ | ⟨hout, -⟩
  · have hab := hinv.within_unique ha (.inl hb) hwithin
      ⟨(Nat.le_add_right _ _).trans hge, hstop⟩
    rw [hab] at hlt
    omega
  · exact hout (hblock.inside _ hwithin)

/-- No field of a header is in the cell that is written. -/
theorem ListInv.cell_ne (hinv : ListInv L h l live δ) (hx : Writable L h live x)
    (ha : a ∈ live ∨ a ∈ l) : a ≠ cellOf x ∧ a + 8 ≠ cellOf x := by
  have hnot := hinv.notMem_header hx ha
  have hheader := hinv.isHeader ha
  have hadd := toNat_add_8 hheader.le
  have hcell := cellOf_toNat x
  have haligned : a.toNat % 8 = 0 := by
    rcases hheader with rfl | ⟨haligned, -⟩
    · exact L.base_aligned
    · unfold headerSize at haligned
      omega
  unfold headerSize at hnot
  constructor
  · intro heq
    rw [← heq] at hcell
    omega
  · intro heq
    rw [← heq, hadd] at hcell
    omega

/-- A write to it keeps the invariant. -/
theorem ListInv.store (hinv : ListInv L h l live δ) (hx : Writable L h live x) (v : Byte) :
    ListInv L { h with mem := storeByte h.mem x v } l live δ :=
  hinv.congr (fun _ ha => Function.update_of_ne (hinv.cell_ne hx (.inr ha)).1 _ h.mem)
    (fun _ ha => Function.update_of_ne (hinv.cell_ne hx ha).2 _ h.mem) rfl rfl

/-- Writes to the block at `b` from its first byte on, as long as it has room. -/
theorem ListInv.copyBytes {b : Word} (hinv : ListInv L h l live δ) (src : Word) (hb : b ∈ live) {n : ℕ}
    (hn : n + headerSize ≤ headerSize * (h.size b).toNat) :
    ListInv L { h with mem := Heap.copyBytes h.mem (b + 16) src n } l live δ := by
  have hstop := hinv.stop_lt (.inl hb)
  have hloop : ∀ is : List ℕ, (∀ i ∈ is, i < n) → ∀ mem : Word → Word,
      ListInv L { h with mem } l live δ → Heap.size { h with mem } b = h.size b →
      ListInv L { h with mem := is.foldl (fun mem i => storeByte mem (b + 16 + BitVec.ofNat 64 i)
        (loadByte mem (src + BitVec.ofNat 64 i))) mem } l live δ := by
    intro is
    induction is with
    | nil => exact fun _ _ hinv _ => hinv
    | cons i is ih =>
      intro his mem hinv' hsize
      have hi := his i List.mem_cons_self
      have hx : (b + 16 + BitVec.ofNat 64 i).toNat = b.toNat + headerSize + i := by
        unfold stop headerSize at *
        rw [BitVec.toNat_add, BitVec.toNat_add, BitVec.toNat_ofNat,
          show (16 : Word).toNat = 16 from rfl]
        omega
      have hwritable : Writable L { h with mem } live (b + 16 + BitVec.ofNat 64 i) := by
        refine .inl ⟨b, hb, by omega, ?_⟩
        rw [hx, stop, hsize]
        unfold headerSize at *
        omega
      refine ih (fun j hj => his j (List.mem_cons_of_mem i hj)) _ (hinv'.store hwritable _) ?_
      exact (Function.update_of_ne (hinv'.cell_ne hwritable (.inl hb)).2 _ mem).trans hsize
  exact hloop (List.range n) (fun i hi => List.mem_range.mp hi) h.mem hinv rfl

end Store

/-! ### `krealloc` -/

/-- The live blocks after a call of `kmalloc` that returned `r`. -/
def liveAfterMalloc (live : Finset Word) (r : Word) : Finset Word :=
  if r = 0 then live else insert (r - 16) live

/-- The live blocks after a call of `kfree`. -/
def liveAfterFree (live : Finset Word) (ap : Word) : Finset Word :=
  if ap = 0 then live else live.erase (ap - 16)

/-- The live blocks after a call of `krealloc` that returned `r`. -/
def liveAfterRealloc (live : Finset Word) (ptr newSize r : Word) : Finset Word :=
  if ptr = 0 then liveAfterMalloc live r
  else if newSize = 0 then liveAfterFree live ptr
  else if r = 0 ∨ r = ptr then live
  else liveAfterFree (liveAfterMalloc live r) ptr

/-- The pointer is `NULL` or that of a live block. -/
def IsLive (live : Finset Word) (ptr : Word) : Prop := ptr = 0 ∨ ptr - 16 ∈ live

/-- The request of a call of `krealloc` does not wrap around, or there is nothing to copy. -/
def Fits (h : Heap) (ptr newSize : Word) : Prop :=
  ptr = 0 ∨ newSize.toNat ≤ 2 ^ 64 - headerSize ∨ h.size (ptr - 16) = 1

section Krealloc

variable {L : Layout} {h h' : Heap} {l : List Word} {live : Finset Word} {δ : ℤ}
  {nunits nbytes ptr newSize r ap : Word} {pmm : Word → Word} {n turns turns' : ℕ}

/-- The address of a block is that of no `NULL`. -/
theorem ListInv.add_16_ne (hinv : ListInv L h l live δ) {b : Word} (hb : b ∈ live) : b + 16 ≠ 0 := by
  intro hzero
  have hnat := congrArg BitVec.toNat hzero
  have hstop := (hinv.liveBlock b hb).lt_stop
  have hlt := hinv.stop_lt (.inl hb)
  rw [BitVec.toNat_add, show (16 : Word).toNat = 16 from rfl, show (0 : Word).toNat = 0 from rfl]
    at hnat
  rw [headerSize] at hstop
  omega

theorem Allocates.inv (halloc : Allocates L live nunits n h r) :
    ∃ l, HeapInv L h l (liveAfterMalloc live r) ∧ l.length ≤ n := by
  cases halloc with
  | @null l hinv hlength => exact ⟨l, hinv, hlength⟩
  | @block l b hinv hlength hnew hsize =>
    refine ⟨l, ?_, hlength⟩
    rw [liveAfterMalloc, if_neg ((heapInv_iff.mp hinv).add_16_ne (Finset.mem_insert_self b live)),
      BitVec.add_sub_cancel]
    exact hinv

/-- With turns enough `kfree` returns. -/
theorem ListInv.kfree_live (hinv : ListInv L h l live δ) (hap : IsLive live ap)
    (hturns : l.length ≤ turns) :
    ∃ h' l', Heap.kfree turns h ap = .ok h' ∧ ListInv L h' l' (liveAfterFree live ap) δ := by
  by_cases hnull : ap = 0
  · rw [liveAfterFree, if_pos hnull]
    exact ⟨h, l, by rw [Heap.kfree, if_pos hnull]; rfl, hinv⟩
  · rw [liveAfterFree, if_neg hnull]
    obtain ⟨h', l', hfree, hinv', -⟩ := hinv.kfree (hap.resolve_left hnull) hturns
    rw [BitVec.sub_add_cancel] at hfree
    exact ⟨h', l', hfree, hinv'⟩

theorem krealloc_mono (hle : turns ≤ turns')
    (hok : Heap.krealloc L pmm turns h ptr newSize = .ok (h', r)) :
    Heap.krealloc L pmm turns' h ptr newSize = .ok (h', r) := by
  unfold Heap.krealloc at hok ⊢
  dsimp only at hok ⊢
  split_ifs at hok ⊢ with hnull hzero hsmall
  · exact kmalloc_mono hle hok
  · obtain ⟨h₁, hfree, hrest⟩ := Outcome.bind_eq_ok.mp hok
    exact Outcome.bind_eq_ok.mpr ⟨h₁, kfree_mono hle hfree, hrest⟩
  · exact hok
  · obtain ⟨⟨h₁, p⟩, halloc, hrest⟩ := Outcome.bind_eq_ok.mp hok
    refine Outcome.bind_eq_ok.mpr ⟨(h₁, p), kmalloc_mono hle halloc, ?_⟩
    dsimp only at hrest ⊢
    split_ifs at hrest ⊢ with hp
    · exact hrest
    · obtain ⟨h₂, hfree, hrest⟩ := Outcome.bind_eq_ok.mp hrest
      exact Outcome.bind_eq_ok.mpr ⟨h₂, kfree_mono hle hfree, hrest⟩

/-- A block for a request that does not wrap around has room for less. -/
theorem le_unitsFor (hle : newSize.toNat ≤ 2 ^ 64 - headerSize) :
    newSize.toNat + headerSize ≤ headerSize * (unitsFor newSize).toNat := by
  have hone : (1 : Word).toNat = 1 := rfl
  unfold headerSize at *
  rw [unitsFor, BitVec.toNat_add, BitVec.toNat_udiv, BitVec.toNat_sub, BitVec.toNat_add, hone,
    show (16 : Word).toNat = 16 from rfl]
  omega

/-- With turns enough `krealloc` returns. -/
theorem HeapInv.krealloc (hinv : HeapInv L h l live) (hgrants : Grants L h pmm)
    (hptr : IsLive live ptr) (hfits : Fits h ptr newSize) (hturns : 2 * l.length + 1 ≤ turns) :
    ∃ h' l' r, Heap.krealloc L pmm turns h ptr newSize = .ok (h', r) ∧
      HeapInv L h' l' (liveAfterRealloc live ptr newSize r) := by
  have hlist := heapInv_iff.mp hinv
  unfold Heap.krealloc liveAfterRealloc
  by_cases hnull : ptr = 0
  · simp only [if_pos hnull]
    obtain ⟨h', r, hok, halloc⟩ := hinv.kmalloc newSize hgrants hturns
    obtain ⟨l', hinv', -⟩ := halloc.inv
    exact ⟨h', l', r, hok, hinv'⟩
  simp only [if_neg hnull]
  by_cases hzero : newSize = 0
  · simp only [if_pos hzero]
    obtain ⟨h', l', hfree, hinv'⟩ := hlist.kfree_live hptr (show l.length ≤ turns by omega)
    exact ⟨h', l', 0, Outcome.bind_eq_ok.mpr ⟨h', hfree, rfl⟩, heapInv_iff.mpr hinv'⟩
  simp only [if_neg hzero]
  by_cases hsmall : newSize ≤ (h.size (ptr - 16) - 1) * 16
  · simp only [if_pos hsmall]
    exact ⟨h, l, ptr, rfl, by rwa [if_pos (.inr rfl)]⟩
  simp only [if_neg hsmall]
  have hlive := hptr.resolve_left hnull
  obtain ⟨h', r, hok, halloc⟩ := hinv.kmalloc newSize hgrants hturns
  generalize hunits : unitsFor newSize = nunits at halloc
  cases halloc with
  | @null l' hinv' _ =>
    exact ⟨h', l', 0, Outcome.bind_eq_ok.mpr ⟨(h', 0), hok, rfl⟩, by rwa [if_pos (.inl rfl)]⟩
  | @block l' b hinv' hlength hnew hsize =>
    have hb := Finset.mem_insert_self b live
    have hlist' := heapInv_iff.mp hinv'
    have hbne := hlist'.add_16_ne hb
    have hne : b + 16 ≠ ptr := by
      rintro rfl
      rw [BitVec.add_sub_cancel] at hlive
      exact hnew hlive
    -- the new block has room for the old one
    have hroom : ((h.size (ptr - 16) - 1) * 16).toNat + headerSize ≤
        headerSize * (h'.size b).toNat := by
      have hpos := (hinv.liveBlock _ hlive).pos
      have hstop := hlist.stop_lt (.inl hlive)
      have hunitsPos := (unitsFor_pos newSize).1
      rw [hsize, ← hunits]
      rcases hfits with hnull' | hle | hone
      · exact absurd hnull' hnull
      · have hbig : ((h.size (ptr - 16) - 1) * 16).toNat < newSize.toNat := not_le.mp hsmall
        have hunitsLe := le_unitsFor hle
        omega
      · rw [hone, show (((1 : Word) - 1) * 16).toNat = 0 from rfl]
        unfold headerSize
        omega
    have hcopy := hlist'.copyBytes ptr hb hroom
    obtain ⟨h'', l'', hfree, hinv''⟩ := hcopy.kfree_live
      (show IsLive (insert b live) ptr from .inr (Finset.mem_insert_of_mem hlive))
      (show l'.length ≤ turns by omega)
    refine ⟨h'', l'', b + 16, Outcome.bind_eq_ok.mpr ⟨(h', b + 16), hok, ?_⟩, ?_⟩
    · exact (if_neg hbne).trans (Outcome.bind_eq_ok.mpr ⟨h'', hfree, rfl⟩)
    · rw [if_neg (not_or.mpr ⟨hbne, hne⟩), liveAfterMalloc, if_neg hbne, BitVec.add_sub_cancel]
      exact heapInv_iff.mpr hinv''

end Krealloc

end KyroOS.Heap

import KyroOS.Heap.Search
import KyroOS.Memory.FrameBytes

/-!
# The contents of the blocks

The calls of the heap write to headers and nowhere else, and so the bytes of the live blocks stay
what they are. `krealloc` copies the bytes of the old block to the new one before it frees it.

## Main definitions

* `ChangesHeaders` — memory changes in headers only
* `KeepsLive` — the sizes and the bytes of live blocks are as before
* `Reallocated`, `KreallocPreserves` — what `krealloc` promises

## Main results

* `ListInv.kfree_keeps`, `ListInv.kmalloc_keeps` — the calls keep the live blocks
* `loadByte_copyBytes` — the copy
* `kreallocPreserves_iff` — when `krealloc` keeps its promise
-/

namespace KyroOS.Heap

open KyroOS.Memory CircularList Transition

/-! ### Writes to headers -/

/-- From `h` to `h'` memory changes in the headers `S` only. -/
def ChangesHeaders (S : Set Word) (h h' : Heap) : Prop :=
  ∀ c, (∀ a ∈ S, c ≠ a ∧ c ≠ a + 8) → h'.mem c = h.mem c

/-- From `h` to `h'` the sizes of the blocks `live` and their bytes are the same. -/
structure KeepsLive (live : Finset Word) (h h' : Heap) : Prop where
  size : ∀ b ∈ live, h'.size b = h.size b
  bytes : ∀ b ∈ live, ∀ x : Word, b.toNat + headerSize ≤ x.toNat → x.toNat < h.stop b →
    loadByte h'.mem x = loadByte h.mem x

section Headers

variable {S : Set Word} {h h' h'' : Heap} {live live' : Finset Word} {a w bp p : Word}

theorem ChangesHeaders.refl (S : Set Word) (h : Heap) : ChangesHeaders S h h := fun _ _ => rfl

theorem ChangesHeaders.trans (hch : ChangesHeaders S h h') (hch' : ChangesHeaders S h' h'') :
    ChangesHeaders S h h'' :=
  fun c hc => (hch' c hc).trans (hch c hc)

theorem ChangesHeaders.setNext (hch : ChangesHeaders S h h') (ha : a ∈ S) (w : Word) :
    ChangesHeaders S h (h'.setNext a w) := by
  intro c hc
  have hsame : (h'.setNext a w).mem c = h'.mem c := Function.update_of_ne (hc a ha).1 _ _
  exact hsame.trans (hch c hc)

theorem ChangesHeaders.setSize (hch : ChangesHeaders S h h') (ha : a ∈ S) (w : Word) :
    ChangesHeaders S h (h'.setSize a w) := by
  intro c hc
  have hsame : (h'.setSize a w).mem c = h'.mem c := Function.update_of_ne (hc a ha).2 _ _
  exact hsame.trans (hch c hc)

theorem ChangesHeaders.mergeUpper (hch : ChangesHeaders S h h') (hbp : bp ∈ S) (p : Word) :
    ChangesHeaders S h (h'.mergeUpper bp p) := by
  unfold Heap.mergeUpper
  dsimp only
  split_ifs
  · exact (hch.setSize hbp _).setNext hbp _
  · exact hch.setNext hbp _

theorem ChangesHeaders.mergeLower (hch : ChangesHeaders S h h') (hp : p ∈ S) (bp : Word) :
    ChangesHeaders S h (h'.mergeLower bp p) := by
  unfold Heap.mergeLower
  dsimp only
  split_ifs
  · exact (hch.setSize hp _).setNext hp _
  · exact hch.setNext hp _

/-- `kfree` writes to the block and to the one that it is put behind. -/
theorem release_changes (h : Heap) (bp p : Word) : ChangesHeaders {bp, p} h (h.release bp p) := by
  have hbp : bp ∈ ({bp, p} : Set Word) := Set.mem_insert bp {p}
  have hp : p ∈ ({bp, p} : Set Word) := Set.mem_insert_of_mem bp rfl
  exact ((ChangesHeaders.refl {bp, p} h).mergeUpper hbp p).mergeLower hp bp

theorem KeepsLive.refl (live : Finset Word) (h : Heap) : KeepsLive live h h :=
  ⟨fun _ _ => rfl, fun _ _ _ _ _ => rfl⟩

theorem KeepsLive.mono (hkeeps : KeepsLive live h h') (hsub : live' ⊆ live) :
    KeepsLive live' h h' :=
  ⟨fun b hb => hkeeps.size b (hsub hb), fun b hb => hkeeps.bytes b (hsub hb)⟩

theorem KeepsLive.stop (hkeeps : KeepsLive live h h') {b : Word} (hb : b ∈ live) :
    h'.stop b = h.stop b := by
  rw [Heap.stop, Heap.stop, hkeeps.size b hb]

theorem KeepsLive.trans (hkeeps : KeepsLive live h h') (hkeeps' : KeepsLive live h' h'') :
    KeepsLive live h h'' where
  size := fun b hb => (hkeeps'.size b hb).trans (hkeeps.size b hb)
  bytes := by
    intro b hb x hle hlt
    rw [hkeeps'.bytes b hb x hle (by rwa [hkeeps.stop hb]), hkeeps.bytes b hb x hle hlt]

theorem KeepsLive.symm (hkeeps : KeepsLive live h h') : KeepsLive live h' h where
  size := fun b hb => (hkeeps.size b hb).symm
  bytes := by
    intro b hb x hle hlt
    rw [hkeeps.stop hb] at hlt
    exact (hkeeps.bytes b hb x hle hlt).symm

variable {L : Layout} {l : List Word} {δ : ℤ}

/-- A write to the headers of blocks keeps the other live blocks. -/
theorem ListInv.keepsLive (hinv : ListInv L h l live δ) (hch : ChangesHeaders S h h')
    (hS : ∀ a ∈ S, a ∈ live ∨ a ∈ l) (hsub : live' ⊆ live) (hnot : ∀ b ∈ live', b ∉ S) :
    KeepsLive live' h h' where
  size := by
    intro b hb
    refine hch _ fun a ha => ⟨?_, fun heq => ?_⟩
    · exact (hinv.isHeader (.inl (hsub hb))).add_8_ne (hinv.isHeader (hS a ha))
    · exact hnot b hb ((BitVec.add_left_inj 8).mp heq ▸ ha)
  bytes := by
    intro b hb x hle hlt
    refine loadByte_congr (hch _ fun a ha => ?_)
    have hne := hinv.cell_ne (.inl ⟨b, hsub hb, hle, hlt⟩) (hS a ha)
    exact ⟨hne.1.symm, hne.2.symm⟩

end Headers

/-! ### The calls -/

section Calls

variable {L : Layout} {h h' : Heap} {l : List Word} {live : Finset Word} {δ : ℤ}
  {bp prevp nunits nbytes p r : Word} {pmm : Word → Word} {turns : ℕ}

/-- `kfree` keeps the other live blocks. -/
theorem ListInv.kfree_keeps (hinv : ListInv L h l live δ) (hbp : bp ∈ live)
    (hok : Heap.kfree turns h (bp + 16) = .ok h') : KeepsLive (live.erase bp) h h' := by
  obtain ⟨h₁, -, hok₁, -, -, -, -, p, hp, rfl⟩ := hinv.kfree hbp (le_max_right turns l.length)
  obtain rfl := Except.ok.inj (hok₁.symm.trans (kfree_mono (le_max_left turns l.length) hok))
  refine hinv.keepsLive (release_changes h bp p) ?_ (Finset.erase_subset bp live) ?_
  · rintro a (rfl | rfl)
    · exact .inl hbp
    · exact .inr hp
  · rintro b hb (rfl | rfl)
    · exact Finset.notMem_erase b live hb
    · exact hinv.notFree b (Finset.mem_of_mem_erase hb) hp

/-- `kmalloc` keeps the live blocks when it takes a block of the list. -/
theorem ListInv.carve_keeps (hinv : ListInv L h l live δ) (hprev : prevp ∈ l)
    (hunits : 0 < nunits.toNat) (hfits : nunits.toNat ≤ (h.size (h.next prevp)).toNat) :
    KeepsLive live h (h.carve nunits prevp (h.next prevp)).1 := by
  have hp := hinv.ring.next_mem hprev
  by_cases hsize : h.size (h.next prevp) = nunits
  · -- the whole block: the link before it
    have hcarve : (h.carve nunits prevp (h.next prevp)).1 =
        { h.setNext prevp (h.next (h.next prevp)) with freelist := prevp } := by
      rw [Heap.carve, if_pos hsize]
    have hch : ChangesHeaders {prevp} h (h.carve nunits prevp (h.next prevp)).1 := by
      rw [hcarve]
      exact (ChangesHeaders.refl {prevp} h).setNext rfl _
    refine hinv.keepsLive hch (fun a ha => .inr ?_) subset_rfl fun b hb hmem => ?_
    · rwa [Set.mem_singleton_iff.mp ha]
    · exact hinv.notFree b hb (Set.mem_singleton_iff.mp hmem ▸ hprev)
  · -- the tail: its header is one of the blocks in the end
    have hlt : nunits.toNat < (h.size (h.next prevp)).toNat :=
      lt_of_le_of_ne hfits fun heq => hsize (BitVec.eq_of_toNat_eq heq.symm)
    obtain ⟨q, hq⟩ : ∃ q, q = h.next prevp + 16 * (h.size (h.next prevp) - nunits) := ⟨_, rfl⟩
    obtain ⟨hinv', hnew⟩ := hinv.carve_tail hp hprev hunits hlt hq
    have hcarve : (h.carve nunits prevp (h.next prevp)).1 =
        { (h.setSize (h.next prevp) (h.size (h.next prevp) - nunits)).setSize q nunits with
          freelist := prevp } := by
      unfold Heap.carve
      rw [if_neg hsize]
      dsimp only
      rw [behind, size_setSize, Function.update_self, hq]
    have hch : ChangesHeaders {h.next prevp, q} h (h.carve nunits prevp (h.next prevp)).1 := by
      have hmem : h.next prevp ∈ ({h.next prevp, q} : Set Word) := Set.mem_insert _ {q}
      have hmem' : q ∈ ({h.next prevp, q} : Set Word) := Set.mem_insert_of_mem _ rfl
      rw [hcarve]
      exact ((ChangesHeaders.refl {h.next prevp, q} h).setSize hmem _).setSize hmem' _
    rw [← hcarve] at hinv'
    refine (hinv'.keepsLive (fun c hc => (hch c hc).symm) ?_ (Finset.subset_insert q live) ?_).symm
    · rintro a (rfl | rfl)
      · exact .inr hp
      · exact .inl (Finset.mem_insert_self _ _)
    · rintro b hb (rfl | rfl)
      · exact hinv.notFree _ hb hp
      · exact hnew hb

/-- `morecore` keeps the live blocks. -/
theorem ListInv.morecore_keeps (hinv : ListInv L h l live δ)
    (hgrant : Grant L h pmm (pagesFor nunits))
    (hok : Heap.morecore L pmm turns h nunits = .ok (h', p)) : KeepsLive live h h' := by
  unfold Heap.morecore at hok
  dsimp only at hok
  by_cases hnull : pmm (pagesFor nunits) = 0
  · rw [if_pos hnull] at hok
    obtain ⟨rfl, -⟩ := Prod.mk.inj (Except.ok.inj hok)
    exact .refl live h
  rw [if_neg hnull] at hok
  obtain ⟨h₁, hfree, hrest⟩ := Outcome.bind_eq_ok.mp hok
  obtain ⟨rfl, -⟩ := Prod.mk.inj (Except.ok.inj hrest)
  obtain ⟨hcount, i, hpage, htotal, hi⟩ := hgrant hnull
  have hindex : pageIndex (pageAddr i) = i := by
    have hbelow := L.below
    have hbase := L.base.isLt
    rw [pageIndex, pageAddr, BitVec.toNat_ofNat]
    unfold pageSize at *
    omega
  obtain ⟨hinv', hnew, -⟩ := hinv.acquire hcount htotal hi
  rw [hpage, hindex] at hfree
  have hkeeps' := hinv'.kfree_keeps (Finset.mem_insert_self _ live) hfree
  rw [Finset.erase_insert hnew] at hkeeps'
  refine KeepsLive.trans ?_ hkeeps'
  have hch := (ChangesHeaders.refl {pageAddr i + L.hhdm} h).setSize rfl
    (pagesFor nunits * 4096 / 16)
  refine (hinv'.keepsLive (fun c hc => (hch c hc).symm) ?_ (Finset.subset_insert _ live) ?_).symm
  · intro a ha
    rw [Set.mem_singleton_iff.mp ha]
    exact .inl (Finset.mem_insert_self _ live)
  · intro b hb hmem
    exact hnew (Set.mem_singleton_iff.mp hmem ▸ hb)

/-- `kmalloc` keeps the live blocks. -/
theorem ListInv.kmalloc_keeps (hinv : ListInv L h l live δ)
    (hgrant : Grant L h pmm (pagesFor (unitsFor nbytes)))
    (hok : Heap.kmalloc L pmm turns h nbytes = .ok (h', r)) : KeepsLive live h h' := by
  by_cases hzero : nbytes = 0
  · rw [Heap.kmalloc, if_pos hzero] at hok
    obtain ⟨rfl, -⟩ := Prod.mk.inj (Except.ok.inj hok)
    exact .refl live h
  have hpos := (unitsFor_pos nbytes).1
  -- turns enough give the same result
  have hmax := kmalloc_mono (le_max_left turns (2 * l.length + 1)) hok
  have hturns := le_max_right turns (2 * l.length + 1)
  generalize max turns (2 * l.length + 1) = n at hmax hturns
  rw [Heap.kmalloc, if_neg hzero] at hmax
  rcases hinv.loop pmm (unitsFor nbytes) (show l.length ≤ n by omega) with
    ⟨prev, hprev, hfits, hloop⟩ | ⟨-, hloop⟩
  · have heq := Except.ok.inj (hloop.symm.trans hmax)
    have hkeeps := hinv.carve_keeps hprev hpos hfits
    rwa [heq] at hkeeps
  rw [hloop] at hmax
  obtain ⟨⟨h₁, q⟩, hmore, hrest⟩ := Outcome.bind_eq_ok.mp hmax
  have hkeeps := hinv.morecore_keeps hgrant hmore
  rcases hinv.morecore hgrant (unitsFor_pos nbytes).2 (show l.length ≤ n - l.length by omega) with
    ⟨-, hnull⟩ | ⟨h₂, l', -, hmore', hne, hinv', hlength, b, hb, hbig⟩
  · obtain ⟨rfl, rfl⟩ := Prod.mk.inj (Except.ok.inj (hnull.symm.trans hmore))
    obtain ⟨rfl, -⟩ := Prod.mk.inj (Except.ok.inj ((if_pos rfl).symm.trans hrest))
    exact hkeeps
  · obtain ⟨rfl, rfl⟩ := Prod.mk.inj (Except.ok.inj (hmore'.symm.trans hmore))
    have hsecond := (if_neg hne).symm.trans hrest
    refine hkeeps.trans ?_
    rcases hinv'.loop pmm (unitsFor nbytes) (show l'.length ≤ n - l.length by omega) with
      ⟨prev, hprev, hfits, hloop'⟩ | ⟨hsmall, -⟩
    · have heq := Except.ok.inj (hloop'.symm.trans hsecond)
      have hkeeps' := hinv'.carve_keeps hprev hpos hfits
      rwa [heq] at hkeeps'
    · exact absurd hbig (not_le.mpr (hsmall b hb))

end Calls

/-! ### The copy -/

section Copy

variable {mem : Word → Word} {dst src c x : Word} {n i : ℕ}

theorem copyBytes_succ (mem : Word → Word) (dst src : Word) (n : ℕ) :
    copyBytes mem dst src (n + 1) = storeByte (copyBytes mem dst src n) (dst + BitVec.ofNat 64 n)
      (loadByte (copyBytes mem dst src n) (src + BitVec.ofNat 64 n)) := by
  rw [copyBytes, List.range_succ, List.foldl_append]
  rfl

/-- A cell without a byte of the copy is as before. -/
theorem copyBytes_cell (hc : ∀ i < n, c ≠ cellOf (dst + BitVec.ofNat 64 i)) :
    copyBytes mem dst src n c = mem c := by
  induction n with
  | zero => rfl
  | succ n ih =>
    rw [copyBytes_succ, storeByte, Function.update_of_ne (hc n (Nat.lt_succ_self n))]
    exact ih fun i hi => hc i (hi.trans (Nat.lt_succ_self n))

/-- A byte outside the copy is as before. -/
theorem loadByte_copyBytes_of_ne (hx : ∀ i < n, x ≠ dst + BitVec.ofNat 64 i) :
    loadByte (copyBytes mem dst src n) x = loadByte mem x := by
  induction n with
  | zero => rfl
  | succ n ih =>
    rw [copyBytes_succ, loadByte_storeByte_of_ne (hx n (Nat.lt_succ_self n))]
    exact ih fun i hi => hx i (hi.trans (Nat.lt_succ_self n))

/-- The bytes are copied, when those that are read are not written to. -/
theorem loadByte_copyBytes (hi : i < n) (hn : n ≤ 2 ^ 64)
    (hapart : ∀ j < n, ∀ k < n, src + BitVec.ofNat 64 j ≠ dst + BitVec.ofNat 64 k) :
    loadByte (copyBytes mem dst src n) (dst + BitVec.ofNat 64 i) =
      loadByte mem (src + BitVec.ofNat 64 i) := by
  induction n with
  | zero => exact absurd hi (Nat.not_lt_zero i)
  | succ n ih =>
    rw [copyBytes_succ]
    rcases Nat.lt_succ_iff_lt_or_eq.mp hi with hlt | rfl
    · have hne : dst + BitVec.ofNat 64 i ≠ dst + BitVec.ofNat 64 n := by
        intro heq
        have hnat := congrArg BitVec.toNat ((BitVec.add_right_inj dst).mp heq)
        rw [BitVec.toNat_ofNat, BitVec.toNat_ofNat] at hnat
        omega
      rw [loadByte_storeByte_of_ne hne]
      exact ih hlt (by omega) fun j hj k hk => hapart j (by omega) k (by omega)
    · rw [loadByte_storeByte_self]
      exact loadByte_copyBytes_of_ne fun k hk => hapart i hi k (by omega)

variable {L : Layout} {h : Heap} {l : List Word} {live : Finset Word} {δ : ℤ} {a b : Word}

/-- A byte of the payload of a block. -/
theorem ListInv.toNat_payload (hinv : ListInv L h l live δ) (hb : b ∈ live)
    (hi : i + headerSize < headerSize * (h.size b).toNat) :
    (b + 16 + BitVec.ofNat 64 i).toNat = b.toNat + headerSize + i := by
  have hstop := hinv.stop_lt (.inl hb)
  unfold stop headerSize at *
  rw [BitVec.toNat_add, BitVec.toNat_add, BitVec.toNat_ofNat, show (16 : Word).toNat = 16 from rfl]
  omega

/-- The copy keeps the other live blocks, and the size of the one that is written to. -/
theorem ListInv.copyBytes_keeps (hinv : ListInv L h l live δ) (src : Word) (hb : b ∈ live)
    (hn : n + headerSize ≤ headerSize * (h.size b).toNat) :
    KeepsLive (live.erase b) h { h with mem := Heap.copyBytes h.mem (b + 16) src n } ∧
      Heap.size { h with mem := Heap.copyBytes h.mem (b + 16) src n } b = h.size b := by
  have hnat : ∀ i < n, (b + 16 + BitVec.ofNat 64 i).toNat = b.toNat + headerSize + i :=
    fun i hi => hinv.toNat_payload hb (by omega)
  have hstop : h.stop b = b.toNat + headerSize * (h.size b).toNat := rfl
  have hwritable : ∀ i < n, Writable L h live (b + 16 + BitVec.ofNat 64 i) := by
    intro i hi
    have haddr := hnat i hi
    exact .inl ⟨b, hb, by omega, by omega⟩
  have hsize : ∀ a ∈ live,
      Heap.size { h with mem := Heap.copyBytes h.mem (b + 16) src n } a = h.size a :=
    fun a ha => copyBytes_cell fun i hi => (hinv.cell_ne (hwritable i hi) (.inl ha)).2
  refine ⟨⟨fun a ha => hsize a (Finset.mem_of_mem_erase ha), fun a ha x hle hlt => ?_⟩, hsize b hb⟩
  refine loadByte_copyBytes_of_ne fun i hi heq => Finset.ne_of_mem_erase ha ?_
  -- the byte is in one block only
  have haddr := hnat i hi
  rw [← heq] at haddr
  exact hinv.within_unique (.inl (Finset.mem_of_mem_erase ha)) (.inl hb)
    ⟨(Nat.le_add_right _ _).trans hle, hlt⟩ ⟨by omega, by omega⟩

end Copy

/-! ### `krealloc` -/

/-- What a call of `krealloc` leaves behind that returns a block: the block is live, has room for
the request, and starts with the bytes of the old one; the old one is live if it is the same, and
freed otherwise; and the other live blocks are as before. -/
structure Reallocated (L : Layout) (h : Heap) (live : Finset Word) (δ : ℤ) (ptr newSize : Word)
    (h' : Heap) (r : Word) : Prop where
  blocks : ∃ l', ListInv L h' l'
    (if r = ptr then live else insert (r - 16) (live.erase (ptr - 16))) δ
  fresh : r = ptr ∨ r - 16 ∉ live
  room : newSize.toNat ≤ ((h'.size (r - 16)).toNat - 1) * headerSize
  copied : ∀ i < min (((h.size (ptr - 16)).toNat - 1) * headerSize) newSize.toNat,
    loadByte h'.mem (r + BitVec.ofNat 64 i) = loadByte h.mem (ptr + BitVec.ofNat 64 i)
  others : KeepsLive (live.erase (ptr - 16)) h h'

/-- What a call leaves behind that returns `NULL`: the live blocks with their bytes. -/
structure Refused (L : Layout) (h : Heap) (live : Finset Word) (δ : ℤ) (h' : Heap) : Prop where
  blocks : ∃ l', ListInv L h' l' live δ
  kept : KeepsLive live h h'

/-- `krealloc` comes back, with one or the other. -/
structure KreallocPreserves (L : Layout) (pmm : Word → Word) (h : Heap) (live : Finset Word) (δ : ℤ)
    (ptr newSize : Word) : Prop where
  ends : ∃ turns h' r, Heap.krealloc L pmm turns h ptr newSize = .ok (h', r)
  result : ∀ turns h' r, Heap.krealloc L pmm turns h ptr newSize = .ok (h', r) →
    (r = 0 → Refused L h live δ h') ∧ (r ≠ 0 → Reallocated L h live δ ptr newSize h' r)

section Krealloc

variable {L : Layout} {h h' : Heap} {l : List Word} {live : Finset Word} {δ : ℤ}
  {ptr newSize r : Word} {pmm : Word → Word} {turns : ℕ}

/-- The number of bytes of a live block, as `krealloc` computes it. -/
theorem ListInv.toNat_oldSize (hinv : ListInv L h l live δ) {b : Word} (hb : b ∈ live) :
    ((h.size b - 1) * 16).toNat = ((h.size b).toNat - 1) * headerSize ∧
      ((h.size b).toNat - 1) * headerSize + headerSize = headerSize * (h.size b).toNat ∧
      headerSize * (h.size b).toNat < 2 ^ 64 := by
  have hpos := (hinv.liveBlock b hb).pos
  have hstop := hinv.stop_lt (.inl hb)
  unfold stop headerSize at *
  rw [BitVec.toNat_mul, BitVec.toNat_sub, show (1 : Word).toNat = 1 from rfl,
    show (16 : Word).toNat = 16 from rfl]
  omega

/-- No block of the heap has room for more than `2 ^ 64 - 16` bytes. -/
theorem not_reallocated (hlive : ptr - 16 ∈ live) (hlarge : ¬ newSize.toNat ≤ 2 ^ 64 - headerSize) :
    ¬ Reallocated L h live δ ptr newSize h' r := by
  intro hre
  obtain ⟨l', hinv'⟩ := hre.blocks
  have hmem : r - 16 ∈ (if r = ptr then live else insert (r - 16) (live.erase (ptr - 16))) := by
    split_ifs with hsame
    · rwa [hsame]
    · exact Finset.mem_insert_self _ _
  obtain ⟨-, hsum, hlt⟩ := hinv'.toNat_oldSize hmem
  have hroom := hre.room
  unfold headerSize at *
  omega

/-- What a call of `krealloc` with a block that is too small for the request does. -/
theorem krealloc_grow (hptr : ptr ≠ 0) (hzero : newSize ≠ 0)
    (hsmall : ¬ newSize ≤ (h.size (ptr - 16) - 1) * 16) :
    Heap.krealloc L pmm turns h ptr newSize = (do
      let (h', newPtr) ← Heap.kmalloc L pmm turns h newSize
      if newPtr = 0 then return (h', 0)
      else
        let copied := copyBytes h'.mem newPtr ptr ((h.size (ptr - 16) - 1) * 16).toNat
        let h'' ← Heap.kfree turns { h' with mem := copied } ptr
        return (h'', newPtr)) := by
  rw [Heap.krealloc, if_neg hptr, if_neg hzero]
  exact if_neg hsmall

/-- The block that was copied to, when the old one is freed. -/
theorem ListInv.krealloc_block (hinv : ListInv L h l live δ) (hlive : ptr - 16 ∈ live)
    (hle : newSize.toNat ≤ 2 ^ 64 - headerSize) (hsmall : ¬ newSize ≤ (h.size (ptr - 16) - 1) * 16)
    {h₁ h₂ : Heap} {l₁ : List Word} {b : Word} (hinv₁ : ListInv L h₁ l₁ (insert b live) δ)
    (hnew : b ∉ live) (hsize : h₁.size b = unitsFor newSize) (hkeeps : KeepsLive live h h₁)
    {mem : Word → Word}
    (hmem : mem = Heap.copyBytes h₁.mem (b + 16) ptr ((h.size (ptr - 16) - 1) * 16).toNat)
    (hfree : Heap.kfree turns { h₁ with mem := mem } ptr = .ok h₂) :
    Reallocated L h live δ ptr newSize h₂ (b + 16) := by
  obtain ⟨hold, hsum, hlt⟩ := hinv.toNat_oldSize hlive
  have hb := Finset.mem_insert_self b live
  have hunits := le_unitsFor hle
  have hbig : ((h.size (ptr - 16) - 1) * 16).toNat < newSize.toNat := not_le.mp hsmall
  rw [hold] at hbig hmem
  -- the payload of the old block
  generalize hn : ((h.size (ptr - 16)).toNat - 1) * headerSize = n at hsum hbig hmem
  subst hmem
  have hroom : n + headerSize ≤ headerSize * (h₁.size b).toNat := by
    rw [hsize]
    omega
  obtain ⟨hcopy, hsize_b⟩ := hinv₁.copyBytes_keeps ptr hb hroom
  have hinv₂ := hinv₁.copyBytes ptr hb hroom
  have hmem : ptr - 16 ∈ insert b live := Finset.mem_insert_of_mem hlive
  have hne : b ≠ ptr - 16 := fun heq => hnew (heq ▸ hlive)
  have hptr : ptr - 16 + 16 = ptr := BitVec.sub_add_cancel ptr 16
  have hkeeps₂ := hinv₂.kfree_keeps hmem (by rw [hptr]; exact hfree)
  obtain ⟨h₃, l₃, hok₃, hinv₃, -⟩ := hinv₂.kfree hmem (le_max_right turns l₁.length)
  rw [hptr] at hok₃
  obtain rfl := Except.ok.inj (hok₃.symm.trans (kfree_mono (le_max_left turns l₁.length) hfree))
  rw [Finset.erase_insert_of_ne hne] at hinv₃ hkeeps₂
  rw [Finset.erase_insert hnew] at hcopy
  have hne' : b + 16 ≠ ptr := by
    rintro rfl
    exact hne (BitVec.add_sub_cancel b 16).symm
  have hfinal := hkeeps₂.size b (Finset.mem_insert_self b _)
  rw [hsize_b, hsize] at hfinal
  refine ⟨⟨l₃, ?_⟩, .inr (by rwa [BitVec.add_sub_cancel]), ?_, fun i hi => ?_, ?_⟩
  · rwa [if_neg hne', BitVec.add_sub_cancel]
  · rw [BitVec.add_sub_cancel, hfinal]
    unfold headerSize at hunits ⊢
    omega
  · rw [hn] at hi
    have hi' : i < n := hi.trans_le (min_le_left _ _)
    have hfits : i + headerSize < headerSize * (h₁.size b).toNat := by omega
    have haddr := hinv₁.toNat_payload hb hfits
    have hsize_old : h₁.size (ptr - 16) = h.size (ptr - 16) := hkeeps.size _ hlive
    -- after the copy the new block is not written to
    have hfirst := hkeeps₂.bytes b (Finset.mem_insert_self b _) (b + 16 + BitVec.ofNat 64 i)
      (by omega) (by rw [stop, hsize_b]; omega)
    -- before it the old one was not
    have hsource : ∀ j < n, (ptr + BitVec.ofNat 64 j).toNat =
        (ptr - 16).toNat + headerSize + j := by
      intro j hj
      have hpay := hinv.toNat_payload hlive (i := j) (by omega)
      rwa [hptr] at hpay
    have hlast := hkeeps.bytes (ptr - 16) hlive (ptr + BitVec.ofNat 64 i)
      (by rw [hsource i hi']; omega) (by rw [hsource i hi', stop]; omega)
    have hapart : ∀ j < n, ∀ k < n, ptr + BitVec.ofNat 64 j ≠ b + 16 + BitVec.ofNat 64 k := by
      intro j hj k hk heq
      have hjb := hinv₁.toNat_payload hb (i := k) (by omega)
      rw [← heq, hsource j hj] at hjb
      refine hne (hinv₁.within_unique (x := (ptr - 16).toNat + headerSize + j) (.inl hb)
        (.inl hmem) ⟨?_, ?_⟩ ⟨?_, ?_⟩)
      · omega
      · rw [stop]
        omega
      · omega
      · rw [stop, hsize_old]
        omega
    rw [hfirst, ← hlast]
    exact loadByte_copyBytes hi' (by omega) hapart
  · refine KeepsLive.trans ?_ (hkeeps₂.mono (Finset.subset_insert b _))
    exact (hkeeps.trans hcopy).mono (Finset.erase_subset _ live)

/-- A call that gets no block changes nothing. -/
theorem krealloc_null (hptr : ptr ≠ 0) (hzero : newSize ≠ 0)
    (hsmall : ¬ newSize ≤ (h.size (ptr - 16) - 1) * 16)
    (hok : Heap.kmalloc L pmm turns h newSize = .ok (h', 0)) :
    Heap.krealloc L pmm turns h ptr newSize = .ok (h', 0) := by
  rw [krealloc_grow hptr hzero hsmall]
  exact Outcome.bind_eq_ok.mpr ⟨(h', 0), hok, if_pos rfl⟩

/-- The step from a call of `krealloc` that returned to its call of `kmalloc`. -/
theorem krealloc_grow_ok (hptr : ptr ≠ 0) (hzero : newSize ≠ 0)
    (hsmall : ¬ newSize ≤ (h.size (ptr - 16) - 1) * 16)
    (hok : Heap.krealloc L pmm turns h ptr newSize = .ok (h', r)) :
    ∃ h₁ mem, Heap.kmalloc L pmm turns h newSize = .ok (h₁, r) ∧
      mem = Heap.copyBytes h₁.mem r ptr ((h.size (ptr - 16) - 1) * 16).toNat ∧
      (r = 0 → h' = h₁) ∧ (r ≠ 0 → Heap.kfree turns { h₁ with mem } ptr = .ok h') := by
  rw [krealloc_grow hptr hzero hsmall] at hok
  obtain ⟨⟨h₁, r₁⟩, hmalloc, hrest⟩ := Outcome.bind_eq_ok.mp hok
  dsimp only at hrest
  by_cases hnull : r₁ = 0
  · rw [if_pos hnull] at hrest
    obtain ⟨rfl, rfl⟩ := Prod.mk.inj (Except.ok.inj hrest)
    subst hnull
    exact ⟨h₁, _, hmalloc, rfl, fun _ => rfl, fun hne => absurd rfl hne⟩
  · rw [if_neg hnull] at hrest
    obtain ⟨h₂, hfree, hrest⟩ := Outcome.bind_eq_ok.mp hrest
    obtain ⟨rfl, rfl⟩ := Prod.mk.inj (Except.ok.inj hrest)
    exact ⟨h₁, _, hmalloc, rfl, fun hzero => absurd hzero hnull, fun _ => hfree⟩

/-- A block that is large enough already is returned. -/
theorem ListInv.krealloc_same (hinv : ListInv L h l live δ) (hlive : ptr - 16 ∈ live)
    (hptr : ptr ≠ 0) (hzero : newSize ≠ 0) (hlarge : newSize ≤ (h.size (ptr - 16) - 1) * 16) :
    KreallocPreserves L pmm h live δ ptr newSize := by
  have hsame : ∀ turns, Heap.krealloc L pmm turns h ptr newSize = .ok (h, ptr) := by
    intro turns
    rw [Heap.krealloc, if_neg hptr, if_neg hzero]
    exact if_pos hlarge
  refine ⟨⟨0, h, ptr, hsame 0⟩, fun turns h' r hok => ?_⟩
  obtain ⟨rfl, rfl⟩ := Prod.mk.inj (Except.ok.inj ((hsame turns).symm.trans hok))
  refine ⟨fun hnull => absurd hnull hptr, fun _ => ?_⟩
  exact {
    blocks := ⟨l, by rwa [if_pos rfl]⟩
    fresh := .inl rfl
    room := (hinv.toNat_oldSize hlive).1 ▸ hlarge
    copied := fun _ _ => rfl
    others := .refl _ h }

/-- A call that comes back, when its request does not wrap around or gets no block. -/
theorem ListInv.krealloc_result (hinv : ListInv L h l live δ)
    (hgrant : Grant L h pmm (pagesFor (unitsFor newSize))) (hlive : ptr - 16 ∈ live)
    (hptr : ptr ≠ 0) (hzero : newSize ≠ 0) (hsmall : ¬ newSize ≤ (h.size (ptr - 16) - 1) * 16)
    (hcond : newSize.toNat ≤ 2 ^ 64 - headerSize ∨ h.next L.base = L.base ∧ pmm 4 = 0)
    (hok : Heap.krealloc L pmm turns h ptr newSize = .ok (h', r)) :
    (r = 0 → Refused L h live δ h') ∧ (r ≠ 0 → Reallocated L h live δ ptr newSize h' r) := by
  obtain ⟨h₁, mem, hmalloc, hmem, hsame, hfree⟩ := krealloc_grow_ok hptr hzero hsmall hok
  have hkeeps := hinv.kmalloc_keeps hgrant hmalloc
  rcases hinv.kmalloc_ends hgrant hmalloc with ⟨hnone, -, -⟩ | ⟨-, hends⟩
  · exact absurd hnone hzero
  have hle : r ≠ 0 → newSize.toNat ≤ 2 ^ 64 - headerSize :=
    fun hr => by_contra fun hwrap =>
      hr ((hinv.wrap_null hwrap hends).mpr (hcond.resolve_left hwrap))
  cases hends with
  | null =>
    obtain rfl := hsame rfl
    exact ⟨fun _ => ⟨⟨l, hinv⟩, .refl live _⟩, fun hr => absurd rfl hr⟩
  | block hinv₁ _ hnew hsize =>
    have hne := hinv₁.add_16_ne (Finset.mem_insert_self _ live)
    refine ⟨fun hr => absurd hr hne, fun hr => ?_⟩
    exact hinv.krealloc_block hlive (hle hr) hsmall hinv₁ hnew hsize hkeeps hmem (hfree hr)

/-- Such a call does come back. -/
theorem ListInv.exists_krealloc (hinv : ListInv L h l live δ)
    (hgrant : Grant L h pmm (pagesFor (unitsFor newSize))) (hlive : ptr - 16 ∈ live)
    (hptr : ptr ≠ 0) (hzero : newSize ≠ 0) (hsmall : ¬ newSize ≤ (h.size (ptr - 16) - 1) * 16)
    (hcond : newSize.toNat ≤ 2 ^ 64 - headerSize ∨ h.next L.base = L.base ∧ pmm 4 = 0) :
    ∃ turns h' r, Heap.krealloc L pmm turns h ptr newSize = .ok (h', r) := by
  obtain ⟨turns, h₁, r, hmalloc⟩ := hinv.exists_kmalloc hgrant
  rcases hinv.kmalloc_ends hgrant hmalloc with ⟨hnone, -, -⟩ | ⟨-, hends⟩
  · exact absurd hnone hzero
  by_cases hr : r = 0
  · subst hr
    exact ⟨turns, h₁, 0, krealloc_null hptr hzero hsmall hmalloc⟩
  have hle : newSize.toNat ≤ 2 ^ 64 - headerSize :=
    by_contra fun hwrap => hr ((hinv.wrap_null hwrap hends).mpr (hcond.resolve_left hwrap))
  cases hends with
  | null => exact absurd rfl hr
  | @block _ l₁ b hinv₁ _ hnew hsize =>
    have hb := Finset.mem_insert_self b live
    have hroom : ((h.size (ptr - 16) - 1) * 16).toNat + headerSize ≤
        headerSize * (h₁.size b).toNat := by
      have hbig : ((h.size (ptr - 16) - 1) * 16).toNat < newSize.toNat := not_le.mp hsmall
      have hunits := le_unitsFor hle
      rw [hsize]
      omega
    have hold : ptr - 16 ∈ insert b live := Finset.mem_insert_of_mem hlive
    have hfree := (hinv₁.copyBytes ptr hb hroom).kfree hold (le_max_right turns l₁.length)
    rw [BitVec.sub_add_cancel] at hfree
    obtain ⟨h₂, -, hok₂, -⟩ := hfree
    refine ⟨max turns l₁.length, h₂, b + 16, ?_⟩
    rw [krealloc_grow hptr hzero hsmall]
    refine Outcome.bind_eq_ok.mpr ⟨_, kmalloc_mono (le_max_left turns l₁.length) hmalloc, ?_⟩
    exact (if_neg hr).trans (Outcome.bind_eq_ok.mpr ⟨h₂, hok₂, rfl⟩)

/-- `krealloc` keeps its promise exactly when the request does not wrap around, or when there is no
block to be had for one unit. -/
theorem kreallocPreserves_iff (hinv : ListInv L h l live δ)
    (hgrant : Grant L h pmm (pagesFor (unitsFor newSize))) (hlive : ptr - 16 ∈ live)
    (hzero : newSize ≠ 0) :
    KreallocPreserves L pmm h live δ ptr newSize ↔
      newSize.toNat ≤ 2 ^ 64 - headerSize ∨ h.next L.base = L.base ∧ pmm 4 = 0 := by
  have hptr : ptr ≠ 0 := by
    have hne := hinv.add_16_ne hlive
    rwa [BitVec.sub_add_cancel] at hne
  by_cases hlarge : newSize ≤ (h.size (ptr - 16) - 1) * 16
  · -- such a request is smaller than a block, and does not wrap around
    obtain ⟨hold, hsum, hlt⟩ := hinv.toNat_oldSize hlive
    have hle : newSize.toNat ≤ ((h.size (ptr - 16)).toNat - 1) * headerSize := hold ▸ hlarge
    refine iff_of_true (hinv.krealloc_same hlive hptr hzero hlarge) (.inl ?_)
    unfold headerSize at *
    omega
  constructor
  · rintro ⟨⟨turns, h', r, hok⟩, hresult⟩
    by_contra hcond
    rw [not_or] at hcond
    obtain ⟨h₁, -, hmalloc, -⟩ := krealloc_grow_ok hptr hzero hlarge hok
    rcases hinv.kmalloc_ends hgrant hmalloc with ⟨hnone, -, -⟩ | ⟨-, hends⟩
    · exact hzero hnone
    · have hr : r ≠ 0 := mt (hinv.wrap_null hcond.1 hends).mp hcond.2
      exact not_reallocated hlive hcond.1 ((hresult turns h' r hok).2 hr)
  · intro hcond
    exact ⟨hinv.exists_krealloc hgrant hlive hptr hzero hlarge hcond, fun turns h' r hok =>
      hinv.krealloc_result hgrant hlive hptr hzero hlarge hcond hok⟩

end Krealloc

/-- In a small heap with one block, a request for all of memory gets another one. -/
theorem exists_lastBlock : ∃ (s : HeapState) (l : List Word), ListInv smallLayout s.heap l s.live 0 ∧
    lastBlock ∈ s.live ∧ ∃ h' r, Heap.krealloc smallLayout (fun _ => 0) 10 s.heap (lastBlock + 16)
      0xFFFFFFFFFFFFFFFF = .ok (h', r) ∧ r ≠ 0 := by
  obtain ⟨s, hs, hlive, hany⟩ := System.exists_reachableUnder (S := heapSystem smallLayout)
    (C := KeepsSizes) (P := fun s : HeapState => lastBlock ∈ s.live ∧
      (Heap.krealloc smallLayout (fun _ => 0) 10 s.heap (lastBlock + 16)
        0xFFFFFFFFFFFFFFFF).toOption.any fun result => result.2 ≠ 0)
    keepsSizesNext [.first 16] (fun _ _ _ => allowed_of_keepsSizesNext) smallHeap_init
    (by decide +kernel)
  obtain ⟨l, hinv⟩ := inv_of_reachable hs
  obtain ⟨⟨h', r⟩, hresult, hr⟩ := (Option.any_eq_true _ _).mp hany
  exact ⟨s, l, heapInv_iff.mp hinv, hlive, h', r, Outcome.toOption_eq_some.mp hresult,
    of_decide_eq_true hr⟩

/-- Its block does not grow without pages, and stays what it is. -/
theorem kreallocPreserves_lastBlock : ∃ s : HeapState, lastBlock ∈ s.live ∧
    KreallocPreserves smallLayout (fun _ => 0) s.heap s.live 0 (lastBlock + 16) 40 := by
  obtain ⟨s, l, hinv, hlive, -⟩ := exists_lastBlock
  refine ⟨s, hlive, (kreallocPreserves_iff hinv (fun hne => absurd rfl hne) ?_ (by decide)).mpr ?_⟩
  · rwa [BitVec.add_sub_cancel]
  · exact .inl (by decide)

/-- A block for all of memory is a header and nothing else. -/
theorem not_kreallocPreserves : ¬ ∀ L pmm h l live δ ptr newSize, ListInv L h l live δ →
    Grant L h pmm (pagesFor (unitsFor newSize)) → ptr - 16 ∈ live → newSize ≠ 0 →
    ∀ turns h' r, Heap.krealloc L pmm turns h ptr newSize = .ok (h', r) →
      (r = 0 → Refused L h live δ h') ∧ (r ≠ 0 → Reallocated L h live δ ptr newSize h' r) := by
  intro hall
  obtain ⟨s, l, hinv, hlive, h', r, hok, hr⟩ := exists_lastBlock
  have hlive' : lastBlock + 16 - 16 ∈ s.live := by rwa [BitVec.add_sub_cancel]
  have hresult := hall smallLayout (fun _ => 0) s.heap l s.live 0 (lastBlock + 16) _ hinv
    (fun hne => absurd rfl hne) hlive' (by decide) 10 h' r hok
  exact not_reallocated hlive' (by decide) (hresult.2 hr)

end KyroOS.Heap

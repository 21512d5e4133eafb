import KyroOS.Heap.Basic

/-!
# The blocks of the heap

The headers of the blocks are spread over the pages that the heap acquired. They are aligned,
so that the fields of two headers are never in each other's way, and the calls of the heap work
on links and sizes as on two maps.

## Main definitions

* `IsBlock`, `Within` — a block in the pages of the heap, and its bytes
* `HeapInv` — the free list is an ordered ring, free and live blocks are apart, and their units
  add up to the pages
* `ListInv` — the same with units missing

## Main results

* `ListInv.congr` — writing to anything but headers keeps the invariant
* `ListInv.absorb` — a live block becomes part of the free list
* `ListInv.give` — a part of the free list becomes a live block
-/

namespace KyroOS.Heap

open KyroOS.Memory CircularList

/-- The address at which the block at `a` ends. -/
def stop (h : Heap) (a : Word) : ℕ := a.toNat + headerSize * (h.size a).toNat

/-- The byte at the address `x` is one of the block at `a`. -/
def Within (h : Heap) (a : Word) (x : ℕ) : Prop := a.toNat ≤ x ∧ x < h.stop a

/-- The byte at the address `x` lies in a page that the heap acquired. -/
def Acquired (L : Layout) (h : Heap) (x : ℕ) : Prop :=
  ∃ j ∈ h.pages, L.hhdm.toNat + j * pageSize ≤ x ∧ x < L.hhdm.toNat + (j + 1) * pageSize

/-- The header at `a` starts a block in the pages of the heap. -/
structure IsBlock (L : Layout) (h : Heap) (a : Word) : Prop where
  pos : 0 < (h.size a).toNat
  aligned : a.toNat % headerSize = 0
  inside : ∀ x, h.Within a x → Acquired L h x

/-- The free list runs through `l`, in the order of addresses and with gaps; the blocks of `live`
and those of the list are apart, lie in the pages of the heap, and use all of their units. -/
structure HeapInv (L : Layout) (h : Heap) (l : List Word) (live : Finset Word) : Prop where
  ring : Ring h.next l
  order : l.Pairwise fun a b => h.stop a < b.toNat
  base : L.base ∈ l
  base_size : h.size L.base = 0
  freelist : h.freelist ∈ l
  freeBlock : ∀ a ∈ l, a ≠ L.base → IsBlock L h a
  liveBlock : ∀ a ∈ live, IsBlock L h a
  notFree : ∀ a ∈ live, a ∉ l
  apart : ∀ a ∈ live, ∀ b, b ∈ live ∨ b ∈ l → a ≠ b → ∀ x, h.Within a x → ¬ h.Within b x
  units : (l.map fun a => (h.size a).toNat).sum + ∑ a ∈ live, (h.size a).toNat =
    256 * h.pages.card
  pages : ∀ j ∈ h.pages, j < L.totalPages

/-- The same, but for units that are missing, or too many, by `δ`. -/
structure ListInv (L : Layout) (h : Heap) (l : List Word) (live : Finset Word) (δ : ℤ) : Prop where
  ring : Ring h.next l
  order : l.Pairwise fun a b => h.stop a < b.toNat
  base : L.base ∈ l
  base_size : h.size L.base = 0
  freelist : h.freelist ∈ l
  freeBlock : ∀ a ∈ l, a ≠ L.base → IsBlock L h a
  liveBlock : ∀ a ∈ live, IsBlock L h a
  notFree : ∀ a ∈ live, a ∉ l
  apart : ∀ a ∈ live, ∀ b, b ∈ live ∨ b ∈ l → a ≠ b → ∀ x, h.Within a x → ¬ h.Within b x
  units : (((l.map fun a => (h.size a).toNat).sum + ∑ a ∈ live, (h.size a).toNat : ℕ) : ℤ) =
    256 * h.pages.card + δ
  pages : ∀ j ∈ h.pages, j < L.totalPages

/-- No unit is missing in the invariant of the heap. -/
theorem heapInv_iff {L : Layout} {h : Heap} {l : List Word} {live : Finset Word} :
    HeapInv L h l live ↔ ListInv L h l live 0 := by
  constructor
  · intro hinv
    exact ⟨hinv.ring, hinv.order, hinv.base, hinv.base_size, hinv.freelist, hinv.freeBlock,
      hinv.liveBlock, hinv.notFree, hinv.apart, by rw [hinv.units]; simp, hinv.pages⟩
  · intro hinv
    have hunits := hinv.units
    exact ⟨hinv.ring, hinv.order, hinv.base, hinv.base_size, hinv.freelist, hinv.freeBlock,
      hinv.liveBlock, hinv.notFree, hinv.apart, by omega, hinv.pages⟩

/-! ### Fields of headers -/

/-- The address `a` is that of the static header or of an aligned header in the direct map. -/
def IsHeader (L : Layout) (a : Word) : Prop :=
  a = L.base ∨ a.toNat % headerSize = 0 ∧ a.toNat + headerSize ≤ L.base.toNat

section Fields

variable {L : Layout} {h : Heap} {a b w : Word}

theorem toNat_add_8 (ha : a.toNat + headerSize ≤ 2 ^ 64) : (a + 8).toNat = a.toNat + 8 := by
  rw [headerSize] at ha
  rw [BitVec.toNat_add, show (8 : Word).toNat = 8 from rfl]
  omega

theorem IsHeader.le (ha : IsHeader L a) : a.toNat + headerSize ≤ 2 ^ 64 := by
  rcases ha with rfl | ⟨-, hle⟩
  · exact L.top
  · have := L.base.isLt
    omega

/-- The size of a header is not where the link of a header is. -/
theorem IsHeader.add_8_ne (ha : IsHeader L a) (hb : IsHeader L b) : a + 8 ≠ b := by
  intro heq
  have hnat := toNat_add_8 ha.le
  rw [heq] at hnat
  rcases ha with rfl | ⟨halign, hle⟩
  · rcases hb with rfl | ⟨halign', hle'⟩ <;> omega
  · rw [headerSize] at halign hle
    rcases hb with rfl | ⟨halign', hle'⟩
    · omega
    · rw [headerSize] at halign'
      omega

theorem next_setNext (h : Heap) (a w : Word) :
    (h.setNext a w).next = Function.update h.next a w := rfl

theorem size_setSize (h : Heap) (a w : Word) :
    (h.setSize a w).size = Function.update h.size a w := by
  funext b
  show Function.update h.mem (a + 8) w (b + 8) = _
  by_cases hba : b = a
  · rw [hba, Function.update_self, Function.update_self]
  · have hne : b + 8 ≠ a + 8 := fun heq => hba ((BitVec.add_left_inj 8).mp heq)
    rw [Function.update_of_ne hba, Function.update_of_ne hne]
    rfl

theorem size_setNext (ha : IsHeader L a) (hb : IsHeader L b) :
    (h.setNext a w).size b = h.size b := by
  show Function.update h.mem a w (b + 8) = h.mem (b + 8)
  rw [Function.update_of_ne (hb.add_8_ne ha)]

theorem next_setSize (ha : IsHeader L a) (hb : IsHeader L b) :
    (h.setSize a w).next b = h.next b := by
  show Function.update h.mem (a + 8) w b = h.mem b
  rw [Function.update_of_ne (ha.add_8_ne hb).symm]

end Fields

/-! ### Blocks -/

section Blocks

variable {L : Layout} {h h' : Heap} {l : List Word} {live : Finset Word} {δ : ℤ} {a b p q : Word}

/-- A block ends below the kernel's image. -/
theorem IsBlock.stop_lt (ha : IsBlock L h a) (hpages : ∀ j ∈ h.pages, j < L.totalPages) :
    h.stop a < L.base.toNat := by
  have hpos := ha.pos
  have hlast : h.Within a (h.stop a - 1) := by
    unfold Within stop headerSize
    omega
  obtain ⟨j, hj, -, hx⟩ := ha.inside _ hlast
  have hle : (j + 1) * pageSize ≤ L.totalPages * pageSize :=
    Nat.mul_le_mul_right _ (hpages j hj)
  have := L.below
  omega

theorem IsBlock.lt_stop (ha : IsBlock L h a) : a.toNat + headerSize ≤ h.stop a := by
  have := ha.pos
  unfold stop headerSize
  omega

theorem IsBlock.isHeader (ha : IsBlock L h a) (hpages : ∀ j ∈ h.pages, j < L.totalPages) :
    IsHeader L a :=
  .inr ⟨ha.aligned, ha.lt_stop.trans (ha.stop_lt hpages).le⟩

/-- A block ends behind its header's address. -/
theorem lt_of_stop_lt (hab : h.stop a < b.toNat) : a.toNat < b.toNat := by
  unfold stop at hab
  omega

/-- The sum of the pointer's address and the units does not wrap around. -/
theorem behind_eq_iff (ha : h.stop a < 2 ^ 64) : h.behind a = q ↔ h.stop a = q.toNat := by
  have hbehind : (h.behind a).toNat = h.stop a := by
    unfold stop headerSize at ha ⊢
    rw [behind, BitVec.toNat_add, BitVec.toNat_mul, show (16 : Word).toNat = 16 from rfl]
    omega
  rw [← hbehind]
  exact ⟨fun heq => congrArg _ heq, BitVec.eq_of_toNat_eq⟩

namespace ListInv

variable (hinv : ListInv L h l live δ)

include hinv

theorem block (ha : a ∈ live ∨ a ∈ l) (hne : a ≠ L.base) : IsBlock L h a := by
  rcases ha with ha | ha
  · exact hinv.liveBlock a ha
  · exact hinv.freeBlock a ha hne

theorem isHeader (ha : a ∈ live ∨ a ∈ l) : IsHeader L a := by
  by_cases hne : a = L.base
  · exact .inl hne
  · exact (hinv.block ha hne).isHeader hinv.pages

theorem stop_base : h.stop L.base = L.base.toNat := by
  rw [stop, hinv.base_size]
  rfl

theorem stop_le (ha : a ∈ live ∨ a ∈ l) : h.stop a ≤ L.base.toNat := by
  by_cases hne : a = L.base
  · rw [hne, hinv.stop_base]
  · exact ((hinv.block ha hne).stop_lt hinv.pages).le

theorem stop_lt (ha : a ∈ live ∨ a ∈ l) : h.stop a < 2 ^ 64 :=
  (hinv.stop_le ha).trans_lt L.base.isLt

theorem base_notMem : L.base ∉ live := fun hmem => hinv.notFree _ hmem hinv.base

/-- A live block is below or above a block of the list. -/
theorem apart_free (ha : a ∈ live) (hb : b ∈ l) :
    h.stop a ≤ b.toNat ∧ a.toNat < b.toNat ∨ h.stop b ≤ a.toNat ∧ b.toNat < a.toNat := by
  have hablock := hinv.liveBlock a ha
  have halt := hablock.lt_stop
  rw [headerSize] at halt
  by_cases hne : b = L.base
  · rw [hne]
    have := hablock.stop_lt hinv.pages
    omega
  have hblt := (hinv.freeBlock b hb hne).lt_stop
  rw [headerSize] at hblt
  have hab : a ≠ b := fun heq => hinv.notFree a ha (heq ▸ hb)
  have hapart := hinv.apart a ha b (.inr hb) hab
  -- the higher of the two addresses is not in both
  have hmax := hapart (max a.toNat b.toNat)
  unfold Within at hmax
  omega

end ListInv

/-- What is not in the headers is not seen. -/
theorem ListInv.congr (hinv : ListInv L h l live δ) (hnext : ∀ a ∈ l, h'.next a = h.next a)
    (hsize : ∀ a, a ∈ live ∨ a ∈ l → h'.size a = h.size a) (hfreelist : h'.freelist = h.freelist)
    (hpages : h'.pages = h.pages) : ListInv L h' l live δ := by
  have hstop : ∀ a, a ∈ live ∨ a ∈ l → h'.stop a = h.stop a := fun a ha => by
    rw [stop, stop, hsize a ha]
  have hwithin : ∀ a x, a ∈ live ∨ a ∈ l → (h'.Within a x ↔ h.Within a x) := fun a x ha => by
    rw [Within, Within, hstop a ha]
  have hblock : ∀ a, a ∈ live ∨ a ∈ l → IsBlock L h a → IsBlock L h' a := fun a ha hblock =>
    ⟨by rw [hsize a ha]; exact hblock.pos, hblock.aligned, fun x hx => by
      rw [Acquired, hpages]
      exact hblock.inside x ((hwithin a x ha).mp hx)⟩
  exact {
    ring := hinv.ring.congr hnext
    order := hinv.order.imp_of_mem fun ha _ hab => by rwa [hstop _ (.inr ha)]
    base := hinv.base
    base_size := by rw [hsize _ (.inr hinv.base), hinv.base_size]
    freelist := hfreelist ▸ hinv.freelist
    freeBlock := fun a ha hne => hblock a (.inr ha) (hinv.freeBlock a ha hne)
    liveBlock := fun a ha => hblock a (.inl ha) (hinv.liveBlock a ha)
    notFree := hinv.notFree
    apart := fun a ha b hb hne x hax hbx => hinv.apart a ha b hb hne x
      ((hwithin a x (.inl ha)).mp hax) ((hwithin b x hb).mp hbx)
    units := by
      have hfree : (l.map fun a => (h'.size a).toNat) = l.map fun a => (h.size a).toNat :=
        List.map_congr_left fun a ha => by rw [hsize a (.inr ha)]
      rw [hpages, ← hinv.units, hfree, Finset.sum_congr rfl fun a ha => by rw [hsize a (.inl ha)]]
    pages := hpages ▸ hinv.pages }

/-- The live block at `bp` goes to the list, on its own or as a part of the block at `x`, which
covers it and blocks of the list at most. -/
theorem ListInv.absorb {bp x : Word} {k₁ k₂ : List Word} (hinv : ListInv L h l live δ)
    (hbp : bp ∈ live) (hring : Ring h'.next (k₁ ++ x :: k₂)) (hsub : (k₁ ++ k₂).Sublist l)
    (hbase : L.base ∈ k₁ ++ k₂) (hx : x = bp ∨ x ∈ l) (hfreelist : h'.freelist ∈ k₁ ++ x :: k₂)
    (hpages : h'.pages = h.pages)
    (hsize : ∀ a, a ∈ live ∨ a ∈ l → a ≠ x → a ≠ bp → h'.size a = h.size a)
    (hpos : 0 < (h'.size x).toNat)
    (hcover : ∀ y, h'.Within x y → ∃ a, (a = bp ∨ a ∈ l) ∧ h.Within a y)
    (hlower : ∀ a ∈ k₁, h.stop a < x.toNat) (hupper : ∀ b ∈ k₂, h'.stop x < b.toNat)
    (hunits : (h'.size x).toNat + ((k₁ ++ k₂).map fun a => (h.size a).toNat).sum =
      (l.map fun a => (h.size a).toNat).sum + (h.size bp).toNat) :
    ListInv L h' (k₁ ++ x :: k₂) (live.erase bp) δ := by
  have hmem : ∀ {a : Word}, a ∈ k₁ ++ x :: k₂ ↔ a = x ∨ a ∈ k₁ ++ k₂ := by
    intro a
    simp only [List.mem_append, List.mem_cons]
    tauto
  have hnotMem : x ∉ k₁ ++ k₂ := by
    have hnodup := List.nodup_middle.mp hring.nodup
    exact (List.nodup_cons.mp hnodup).1
  have hbpl : bp ∉ l := hinv.notFree bp hbp
  have hxbase : x ≠ L.base := fun heq => hnotMem (heq ▸ hbase)
  -- the other blocks are as before
  have hkept : ∀ a ∈ k₁ ++ k₂, h'.size a = h.size a := fun a ha =>
    hsize a (.inr (hsub.subset ha)) (fun heq => hnotMem (heq ▸ ha))
      (fun heq => hbpl (heq ▸ hsub.subset ha))
  have hxlive : x ∉ live.erase bp := by
    rcases hx with rfl | hx
    · exact Finset.notMem_erase x live
    · exact fun hmem => hinv.notFree x (Finset.mem_of_mem_erase hmem) hx
  have hkeptLive : ∀ a ∈ live.erase bp, h'.size a = h.size a := fun a ha =>
    hsize a (.inl (Finset.mem_of_mem_erase ha)) (fun heq => hxlive (heq ▸ ha))
      (Finset.ne_of_mem_erase ha)
  have hstop : ∀ a ∈ k₁ ++ k₂, h'.stop a = h.stop a := fun a ha => by rw [stop, stop, hkept a ha]
  have hacquired : ∀ y, Acquired L h y → Acquired L h' y := fun y hy => by rwa [Acquired, hpages]
  have hblock : ∀ {a : Word}, h'.size a = h.size a → IsBlock L h a → IsBlock L h' a := by
    intro a hsame hablock
    refine ⟨hsame ▸ hablock.pos, hablock.aligned, fun y hy => hacquired y (hablock.inside y ?_)⟩
    rwa [Within, stop, hsame] at hy
  have hxblock : IsBlock L h' x := by
    refine ⟨hpos, ?_, fun y hy => hacquired y ?_⟩
    · rcases hx with rfl | hx
      · exact (hinv.liveBlock x hbp).aligned
      · exact (hinv.freeBlock x hx hxbase).aligned
    · obtain ⟨a, ha, hay⟩ := hcover y hy
      rcases ha with rfl | ha
      · exact (hinv.liveBlock a hbp).inside y hay
      · by_cases hne : a = L.base
        · -- the static header covers nothing
          rw [hne, Within, hinv.stop_base] at hay
          omega
        · exact (hinv.freeBlock a ha hne).inside y hay
  exact {
    ring := hring
    order := by
      refine pairwise_insert ?_ (fun a ha => ?_) hupper
      · exact (hinv.order.sublist hsub).imp_of_mem fun ha _ hab => by rwa [hstop _ ha]
      · rw [hstop a (List.mem_append_left k₂ ha)]
        exact hlower a ha
    base := hmem.mpr (.inr hbase)
    base_size := by rw [hkept _ hbase, hinv.base_size]
    freelist := hfreelist
    freeBlock := fun a ha hne => by
      rcases hmem.mp ha with rfl | ha
      · exact hxblock
      · exact hblock (hkept a ha) (hinv.freeBlock a (hsub.subset ha) hne)
    liveBlock := fun a ha =>
      hblock (hkeptLive a ha) (hinv.liveBlock a (Finset.mem_of_mem_erase ha))
    notFree := fun a ha hal => by
      rcases hmem.mp hal with rfl | hal
      · exact hxlive ha
      · exact hinv.notFree a (Finset.mem_of_mem_erase ha) (hsub.subset hal)
    apart := fun a ha b hb hne y hay hby => by
      have halive := Finset.mem_of_mem_erase ha
      have hay' : h.Within a y := by rwa [Within, stop, hkeptLive a ha] at hay
      -- what covers `y` in the end covered it before
      have hbefore : ∃ c, (c ∈ live ∨ c ∈ l) ∧ a ≠ c ∧ h.Within c y := by
        rcases hb with hb | hb
        · rw [Within, stop, hkeptLive b hb] at hby
          exact ⟨b, .inl (Finset.mem_of_mem_erase hb), hne, hby⟩
        rcases hmem.mp hb with rfl | hb
        · obtain ⟨c, hc, hcy⟩ := hcover y hby
          rcases hc with rfl | hc
          · exact ⟨c, .inl hbp, Finset.ne_of_mem_erase ha, hcy⟩
          · exact ⟨c, .inr hc, fun heq => hinv.notFree a halive (heq ▸ hc), hcy⟩
        · rw [Within, stop, hkept b hb] at hby
          exact ⟨b, .inr (hsub.subset hb), hne, hby⟩
      obtain ⟨c, hc, hac, hcy⟩ := hbefore
      exact hinv.apart a halive c hc hac y hay' hcy
    units := by
      have hlive := Finset.add_sum_erase live (fun a => (h.size a).toNat) hbp
      have hsum : ((k₁ ++ x :: k₂).map fun a => (h'.size a).toNat).sum =
          (h'.size x).toNat + ((k₁ ++ k₂).map fun a => (h.size a).toNat).sum := by
        have hperm : (k₁ ++ x :: k₂).Perm (x :: (k₁ ++ k₂)) := List.perm_middle
        rw [(hperm.map _).sum_eq, List.map_cons, List.sum_cons]
        congr 2
        exact List.map_congr_left fun a ha => by rw [hkept a ha]
      rw [hsum, Finset.sum_congr rfl fun a ha => by rw [hkeptLive a ha], hpages, ← hinv.units,
        ← hlive]
      omega
    pages := hpages ▸ hinv.pages }

/-- A byte is in one block at most. -/
theorem ListInv.within_unique (hinv : ListInv L h l live δ) {x : ℕ} (ha : a ∈ live ∨ a ∈ l)
    (hb : b ∈ live ∨ b ∈ l) (hax : h.Within a x) (hbx : h.Within b x) : a = b := by
  by_contra hne
  rcases ha with ha | ha
  · exact hinv.apart a ha b hb hne x hax hbx
  rcases hb with hb | hb
  · exact hinv.apart b hb a (.inr ha) (Ne.symm hne) x hbx hax
  -- two blocks of the list, one behind the other
  obtain ⟨l₁, l₂, rfl⟩ := List.append_of_mem ha
  obtain ⟨-, hright, hboth⟩ := List.pairwise_append.mp hinv.order
  unfold Within at hax hbx
  rcases List.mem_append.mp hb with hb | hb
  · have hba := hboth b hb a List.mem_cons_self
    omega
  · rcases List.mem_cons.mp hb with rfl | hb
    · exact hne rfl
    · have hab := (List.pairwise_cons.mp hright).1 b hb
      omega

/-- The block at `q`, which was covered by blocks of the list, is live. The other blocks of the
list stay, or shrink. -/
theorem ListInv.give {l' : List Word} (hinv : ListInv L h l live δ) (hring : Ring h'.next l')
    (hsub : l'.Sublist l) (hbase : L.base ∈ l') (hfreelist : h'.freelist ∈ l')
    (hpages : h'.pages = h.pages) (hlive : ∀ a ∈ live, h'.size a = h.size a)
    (hle : ∀ a ∈ l', (h'.size a).toNat ≤ (h.size a).toNat)
    (hpos : ∀ a ∈ l', a ≠ L.base → 0 < (h'.size a).toNat) (hq : q ∉ live ∧ q ∉ l')
    (hqpos : 0 < (h'.size q).toNat) (hqaligned : q.toNat % headerSize = 0)
    (hcover : ∀ y, h'.Within q y → ∃ a ∈ l, h.Within a y)
    (hapart : ∀ a ∈ l', ∀ y, h'.Within q y → ¬ h'.Within a y)
    (hunits : (h'.size q).toNat + (l'.map fun a => (h'.size a).toNat).sum =
      (l.map fun a => (h.size a).toNat).sum) :
    ListInv L h' l' (insert q live) δ := by
  have hstop : ∀ a ∈ l', h'.stop a ≤ h.stop a := fun a ha =>
    Nat.add_le_add_left (Nat.mul_le_mul_left _ (hle a ha)) _
  have hacquired : ∀ y, Acquired L h y → Acquired L h' y := fun y hy => by rwa [Acquired, hpages]
  have hwithin : ∀ a ∈ l', ∀ y, h'.Within a y → h.Within a y := fun a ha y hy =>
    ⟨hy.1, hy.2.trans_le (hstop a ha)⟩
  have hwithinLive : ∀ a ∈ live, ∀ y, h'.Within a y → h.Within a y := fun a ha y hy => by
    rwa [Within, stop, hlive a ha] at hy
  have hqapart : ∀ a ∈ live, ∀ y, h'.Within q y → ¬ h'.Within a y := by
    intro a ha y hqy hay
    obtain ⟨c, hc, hcy⟩ := hcover y hqy
    refine hinv.apart a ha c (.inr hc) ?_ y (hwithinLive a ha y hay) hcy
    rintro rfl
    exact hinv.notFree a ha hc
  exact {
    ring := hring
    order := (hinv.order.sublist hsub).imp_of_mem fun ha _ hab => (hstop _ ha).trans_lt hab
    base := hbase
    base_size := by
      have hzero := hle _ hbase
      rw [hinv.base_size] at hzero
      exact BitVec.eq_of_toNat_eq (Nat.le_zero.mp hzero)
    freelist := hfreelist
    freeBlock := fun a ha hne =>
      ⟨hpos a ha hne, (hinv.freeBlock a (hsub.subset ha) hne).aligned, fun y hy =>
        hacquired y ((hinv.freeBlock a (hsub.subset ha) hne).inside y (hwithin a ha y hy))⟩
    liveBlock := fun a ha => by
      rcases Finset.mem_insert.mp ha with rfl | ha
      · refine ⟨hqpos, hqaligned, fun y hy => hacquired y ?_⟩
        obtain ⟨c, hc, hcy⟩ := hcover y hy
        by_cases hne : c = L.base
        · rw [hne, Within, hinv.stop_base] at hcy
          omega
        · exact (hinv.freeBlock c hc hne).inside y hcy
      · exact ⟨(hlive a ha).symm ▸ (hinv.liveBlock a ha).pos, (hinv.liveBlock a ha).aligned,
          fun y hy => hacquired y ((hinv.liveBlock a ha).inside y (hwithinLive a ha y hy))⟩
    notFree := fun a ha hal => by
      rcases Finset.mem_insert.mp ha with rfl | ha
      · exact hq.2 hal
      · exact hinv.notFree a ha (hsub.subset hal)
    apart := fun a ha b hb hne y hay hby => by
      rcases Finset.mem_insert.mp ha with rfl | ha
      · rcases hb with hb | hb
        · exact hqapart b ((Finset.mem_insert.mp hb).resolve_left (Ne.symm hne)) y hay hby
        · exact hapart b hb y hay hby
      · rcases hb with hb | hb
        · rcases Finset.mem_insert.mp hb with hbq | hb
          · exact hqapart a ha y (hbq ▸ hby) hay
          · exact hinv.apart a ha b (.inl hb) hne y (hwithinLive a ha y hay)
              (hwithinLive b hb y hby)
        · exact hinv.apart a ha b (.inr (hsub.subset hb)) hne y (hwithinLive a ha y hay)
            (hwithin b hb y hby)
    units := by
      rw [Finset.sum_insert hq.1, hpages, ← hinv.units, ← hunits,
        Finset.sum_congr rfl fun a ha => by rw [hlive a ha]]
      omega
    pages := hpages ▸ hinv.pages }

end Blocks

end KyroOS.Heap

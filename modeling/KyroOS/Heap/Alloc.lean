import KyroOS.Heap.Free

/-!
# Allocating a block

`kmalloc` takes a whole block of the free list, or the tail of a larger one. When no block of
the list is large enough, `morecore` acquires pages and frees them, and the search goes on from
the roving pointer.

## Main definitions

* `Grants`, `Grant` — what `pmm_alloc_pages` promises

## Main results

* `ListInv.carve` — the block that is taken is live then
* `ListInv.acquire`, `ListInv.morecore` — acquired pages come to the list
-/

namespace KyroOS.Heap

open KyroOS.Memory CircularList

section Carve

variable {L : Layout} {h : Heap} {l : List Word} {live : Finset Word} {δ : ℤ} {prevp nunits : Word}

/-- A block that is large enough is not the static header. -/
theorem ListInv.ne_base_of_le (hinv : ListInv L h l live δ) {p : Word} (hunits : 0 < nunits.toNat)
    (hfits : nunits.toNat ≤ (h.size p).toNat) : p ≠ L.base := by
  rintro rfl
  rw [hinv.base_size, show (0 : Word).toNat = 0 from rfl] at hfits
  omega

/-- Then the list has another block before it. -/
theorem ListInv.next_ne (hinv : ListInv L h l live δ) (hprev : prevp ∈ l)
    (hbase : h.next prevp ≠ L.base) : h.next prevp ≠ prevp := by
  intro hself
  have honly : ∀ b, Relation.ReflTransGen (fun a b => h.next a = b) prevp b → b = prevp := by
    intro b hreach
    induction hreach with
    | refl => rfl
    | tail _ hlast ih => rw [← hlast, ih, hself]
  have hreach := (hinv.ring.reaches_iff hprev).mpr hinv.base
  exact hbase (hself.trans (honly _ hreach).symm)

/-- The whole block is taken. -/
theorem ListInv.carve_whole (hinv : ListInv L h l live δ) (hprev : prevp ∈ l)
    (hunits : 0 < nunits.toNat) (hsize : h.size (h.next prevp) = nunits) :
    ∃ l', ListInv L { h.setNext prevp (h.next (h.next prevp)) with freelist := prevp } l'
      (insert (h.next prevp) live) δ ∧ l'.length ≤ l.length := by
  have hp : h.next prevp ∈ l := hinv.ring.next_mem hprev
  have hpbase : h.next prevp ≠ L.base := hinv.ne_base_of_le hunits (hsize ▸ le_rfl)
  obtain ⟨l₁, l₂, hsplit, hmem, hring⟩ :=
    hinv.ring.unlink_next hprev (hinv.next_ne hprev hpbase)
  have hheader := hinv.isHeader (.inr hprev)
  generalize hq : h.next prevp = p at *
  have hsub : (l₁ ++ l₂).Sublist l := by
    rw [hsplit]
    exact (List.sublist_cons_self p l₂).append_left l₁
  have hnotMem : p ∉ l₁ ++ l₂ := by
    have hnodup := hinv.ring.nodup
    rw [hsplit] at hnodup
    exact (List.nodup_cons.mp (List.nodup_middle.mp hnodup)).1
  obtain ⟨h', heq⟩ : ∃ h' : Heap, h' = { h.setNext prevp (h.next p) with freelist := prevp } :=
    ⟨_, rfl⟩
  have hsame : ∀ a, a ∈ live ∨ a ∈ l → h'.size a = h.size a := fun a ha => by
    rw [heq]
    exact size_setNext hheader (hinv.isHeader ha)
  have hwithin : ∀ a, a ∈ live ∨ a ∈ l → ∀ y, h'.Within a y → h.Within a y := fun a ha y hy => by
    rwa [Within, stop, hsame a ha] at hy
  have hring' : Ring h'.next (l₁ ++ l₂) := by
    rw [heq]
    exact hring
  have hblock := hinv.freeBlock p hp hpbase
  rw [← heq]
  refine ⟨l₁ ++ l₂, hinv.give hring' hsub ?_ (heq ▸ hmem) (by rw [heq]; rfl)
    (fun a ha => hsame a (.inl ha)) (fun a ha => ?_) (fun a ha hbase => ?_)
    ⟨fun hlive => hinv.notFree p hlive hp, hnotMem⟩ ?_ hblock.aligned
    (fun y hy => ⟨p, hp, hwithin p (.inr hp) y hy⟩) (fun a ha y hpy hay => ?_) ?_, hsub.length_le⟩
  · have hbase := hinv.base
    rw [hsplit] at hbase
    simp only [List.mem_append, List.mem_cons] at hbase ⊢
    exact hbase.imp_right fun hcase => hcase.resolve_left hpbase.symm
  · rw [hsame a (.inr (hsub.subset ha))]
  · rw [hsame a (.inr (hsub.subset ha))]
    exact (hinv.freeBlock a (hsub.subset ha) hbase).pos
  · rw [hsame p (.inr hp)]
    exact hblock.pos
  · have hal : a ∈ live ∨ a ∈ l := .inr (hsub.subset ha)
    have hpa := hinv.within_unique (.inr hp) hal (hwithin p (.inr hp) y hpy) (hwithin a hal y hay)
    exact hnotMem (hpa ▸ ha)
  · have hperm : l.Perm (p :: (l₁ ++ l₂)) := hsplit ▸ List.perm_middle
    have hmap : ((l₁ ++ l₂).map fun a => (h'.size a).toNat) =
        (l₁ ++ l₂).map fun a => (h.size a).toNat :=
      List.map_congr_left fun a ha => by rw [hsame a (.inr (hsub.subset ha))]
    rw [(hperm.map _).sum_eq, List.map_cons, List.sum_cons, hsame p (.inr hp), hmap]

/-- The tail of the block is taken. -/
theorem ListInv.carve_tail (hinv : ListInv L h l live δ) {p q : Word} (hp : p ∈ l)
    (hprev : prevp ∈ l) (hunits : 0 < nunits.toNat) (hlt : nunits.toNat < (h.size p).toNat)
    (hq : q = p + 16 * (h.size p - nunits)) :
    ListInv L { (h.setSize p (h.size p - nunits)).setSize q nunits with freelist := prevp } l
      (insert q live) δ ∧ q ∉ live := by
  have hpbase := hinv.ne_base_of_le hunits hlt.le
  have hblock := hinv.freeBlock p hp hpbase
  have hstop := hblock.stop_lt hinv.pages
  have hbase := L.base.isLt
  have hrest : (h.size p - nunits).toNat = (h.size p).toNat - nunits.toNat :=
    BitVec.toNat_sub_of_le hlt.le
  have hqnat : q.toNat = p.toNat + headerSize * ((h.size p).toNat - nunits.toNat) := by
    unfold stop headerSize at *
    rw [hq, BitVec.toNat_add, BitVec.toNat_mul, hrest, show (16 : Word).toNat = 16 from rfl]
    omega
  have hend : q.toNat + headerSize * nunits.toNat = h.stop p := by
    unfold stop headerSize at *
    omega
  have hpq : p.toNat < q.toNat := by
    unfold headerSize at *
    omega
  have hqp : h.Within p q.toNat := ⟨hpq.le, by
    rw [← hend]
    unfold headerSize
    omega⟩
  -- the new header is inside a block of the list
  have hqaligned : q.toNat % headerSize = 0 := by
    have haligned := hblock.aligned
    unfold headerSize at *
    omega
  have hqheader : IsHeader L q := .inr ⟨hqaligned, by
    unfold headerSize at *
    omega⟩
  have hnew : ∀ a, a ∈ live ∨ a ∈ l → q ≠ a := by
    rintro a ha rfl
    by_cases hqbase : q = L.base
    · rw [← hqbase] at hstop
      unfold headerSize at *
      omega
    · have hself : h.Within q q.toNat := ⟨le_rfl, by
        have := (hinv.block ha hqbase).lt_stop
        unfold headerSize at this
        omega⟩
      have hpq' := hinv.within_unique (.inr hp) ha hqp hself
      rw [hpq'] at hpq
      omega
  have hpheader := hinv.isHeader (.inr hp)
  obtain ⟨h', heq⟩ : ∃ h' : Heap,
      h' = { (h.setSize p (h.size p - nunits)).setSize q nunits with freelist := prevp } :=
    ⟨_, rfl⟩
  have hsize : h'.size = Function.update (Function.update h.size p (h.size p - nunits)) q nunits := by
    rw [heq]
    exact (size_setSize _ q nunits).trans (by rw [size_setSize])
  have hsize_q : h'.size q = nunits := by rw [hsize, Function.update_self]
  have hsize_p : (h'.size p).toNat = (h.size p).toNat - nunits.toNat := by
    rw [hsize, Function.update_of_ne (hnew p (.inr hp)).symm, Function.update_self, hrest]
  have hother : ∀ a, a ∈ live ∨ a ∈ l → a ≠ p → h'.size a = h.size a := fun a ha hap => by
    rw [hsize, Function.update_of_ne (hnew a ha).symm, Function.update_of_ne hap]
  have hplive : ∀ a ∈ live, a ≠ p := by
    rintro a ha rfl
    exact hinv.notFree a ha hp
  have hle : ∀ a ∈ l, (h'.size a).toNat ≤ (h.size a).toNat := fun a ha => by
    by_cases hap : a = p
    · rw [hap, hsize_p]
      omega
    · rw [hother a (.inr ha) hap]
  have hwithin : ∀ a ∈ l, ∀ y, h'.Within a y → h.Within a y := fun a ha y hy =>
    ⟨hy.1, hy.2.trans_le (Nat.add_le_add_left (Nat.mul_le_mul_left _ (hle a ha)) _)⟩
  have hcover : ∀ y, h'.Within q y → h.Within p y := by
    intro y hy
    rw [Within, stop, hsize_q, hend] at hy
    exact ⟨hpq.le.trans hy.1, hy.2⟩
  have hqlive : q ∉ live := fun hmem => hnew q (.inl hmem) rfl
  rw [← heq]
  refine ⟨hinv.give (hinv.ring.congr fun a ha => ?_) (.refl l) hinv.base (heq ▸ hprev)
    (by rw [heq]; rfl) (fun a ha => hother a (.inl ha) (hplive a ha)) hle (fun a ha hne => ?_)
    ⟨hqlive, fun hmem => hnew q (.inr hmem) rfl⟩ (hsize_q ▸ hunits) hqaligned
    (fun y hy => ⟨p, hp, hcover y hy⟩) (fun a ha y hqy hay => ?_) ?_, hqlive⟩
  · rw [heq]
    exact (next_setSize hqheader (hinv.isHeader (.inr ha))).trans
      (next_setSize hpheader (hinv.isHeader (.inr ha)))
  · by_cases hap : a = p
    · rw [hap, hsize_p]
      omega
    · rw [hother a (.inr ha) hap]
      exact (hinv.freeBlock a ha hne).pos
  · -- what is left of the block ends where the new one starts
    obtain rfl := hinv.within_unique (.inr hp) (.inr ha) (hcover y hqy) (hwithin a ha y hay)
    rw [Within, stop, hsize_p, ← hqnat] at hay
    exact absurd hqy.1 (not_le.mpr hay.2)
  · obtain ⟨l₁, l₂, hsplit⟩ := List.append_of_mem hp
    have hperm : l.Perm (p :: (l₁ ++ l₂)) := hsplit ▸ List.perm_middle
    have hnodup := hperm.nodup_iff.mp hinv.ring.nodup
    have hmap : ((l₁ ++ l₂).map fun a => (h'.size a).toNat) =
        (l₁ ++ l₂).map fun a => (h.size a).toNat := by
      refine List.map_congr_left fun a ha => ?_
      have hap : a ≠ p := fun heq => (List.nodup_cons.mp hnodup).1 (heq ▸ ha)
      rw [hother a (.inr (hperm.mem_iff.mpr (List.mem_cons_of_mem p ha))) hap]
    rw [(hperm.map _).sum_eq, (hperm.map _).sum_eq, List.map_cons, List.map_cons, List.sum_cons,
      List.sum_cons, hsize_q, hsize_p, hmap]
    omega

/-- A block of the list that is large enough becomes live, whole or in part. -/
theorem ListInv.carve (hinv : ListInv L h l live δ) (hprev : prevp ∈ l) (hunits : 0 < nunits.toNat)
    (hfits : nunits.toNat ≤ (h.size (h.next prevp)).toNat) :
    ∃ h' l' b, h.carve nunits prevp (h.next prevp) = (h', b + 16) ∧
      ListInv L h' l' (insert b live) δ ∧ b ∉ live ∧ l'.length ≤ l.length ∧ h'.pages = h.pages ∧
      h'.size b = nunits := by
  have hp := hinv.ring.next_mem hprev
  by_cases hsize : h.size (h.next prevp) = nunits
  · obtain ⟨l', hinv', hlength⟩ := hinv.carve_whole hprev hunits hsize
    refine ⟨_, l', h.next prevp, if_pos hsize, hinv', fun hlive => hinv.notFree _ hlive hp, hlength,
      rfl, ?_⟩
    exact (size_setNext (hinv.isHeader (.inr hprev)) (hinv.isHeader (.inr hp))).trans hsize
  · have hlt : nunits.toNat < (h.size (h.next prevp)).toNat :=
      lt_of_le_of_ne hfits fun heq => hsize (BitVec.eq_of_toNat_eq heq.symm)
    have hbehind : (h.setSize (h.next prevp) (h.size (h.next prevp) - nunits)).behind (h.next prevp) =
        h.next prevp + 16 * (h.size (h.next prevp) - nunits) := by
      rw [behind, size_setSize, Function.update_self]
    obtain ⟨hinv', hnotMem⟩ := hinv.carve_tail hp hprev hunits hlt rfl
    refine ⟨_, l, h.next prevp + 16 * (h.size (h.next prevp) - nunits), ?_, hinv', hnotMem, le_rfl,
      rfl, ?_⟩
    · unfold Heap.carve
      rw [if_neg hsize]
      dsimp only
      rw [hbehind]
    · exact (congrFun (size_setSize _ _ nunits) _).trans (Function.update_self ..)

end Carve

/-! ### Pages for the heap -/

/-- What `pmm_alloc_pages` promises: the address of a run of pages of memory, none of which it
returned before. -/
def Grants (L : Layout) (h : Heap) (pmmAllocPages : Word → Word) : Prop :=
  ∀ count, pmmAllocPages count ≠ 0 → count ≠ 0 ∧ ∃ i, pmmAllocPages count = pageAddr i ∧
    i + count.toNat ≤ L.totalPages ∧ ∀ j, i ≤ j → j < i + count.toNat → j ∉ h.pages

/-- The same for one request. -/
def Grant (L : Layout) (h : Heap) (pmmAllocPages : Word → Word) (count : Word) : Prop :=
  pmmAllocPages count ≠ 0 → count ≠ 0 ∧ ∃ i, pmmAllocPages count = pageAddr i ∧
    i + count.toNat ≤ L.totalPages ∧ ∀ j, i ≤ j → j < i + count.toNat → j ∉ h.pages

theorem Grants.grant {L : Layout} {h : Heap} {pmm : Word → Word} (hgrants : Grants L h pmm)
    (count : Word) : Grant L h pmm count :=
  hgrants count

section Morecore

variable {L : Layout} {h h' : Heap} {l : List Word} {live : Finset Word} {δ : ℤ}
  {count nunits : Word}
  {pmm : Word → Word} {turns i : ℕ}

/-- The bytes of a page lie in no other page. -/
theorem acquired_run (hi : ∀ j, i ≤ j → j < i + count.toNat → j ∉ h.pages) {y : ℕ}
    (hle : L.hhdm.toNat + i * pageSize ≤ y) (hlt : y < L.hhdm.toNat + (i + count.toNat) * pageSize) :
    ¬ Acquired L h y := by
  rintro ⟨j, hj, hjle, hjlt⟩
  unfold pageSize at *
  exact hi j (by omega) (by omega) hj

/-- The pages of a run are a live block, before they are freed. -/
theorem ListInv.acquire (hinv : ListInv L h l live δ) (hcount : count ≠ 0)
    (htotal : i + count.toNat ≤ L.totalPages)
    (hi : ∀ j, i ≤ j → j < i + count.toNat → j ∉ h.pages) :
    let up := pageAddr i + L.hhdm
    let h' : Heap := { h.setSize up (count * 4096 / 16) with
      pages := h.pages ∪ Finset.Ico i (i + count.toNat) }
    ListInv L h' l (insert up live) δ ∧ up ∉ live ∧ (h'.size up).toNat = 256 * count.toNat := by
  intro up h'
  have hpos : 0 < count.toNat := by
    refine Nat.pos_of_ne_zero fun hzero => hcount (BitVec.eq_of_toNat_eq hzero)
  have hbelow := L.below
  have hbase := L.base.isLt
  have haligned := L.hhdm_aligned
  have hup : up.toNat = L.hhdm.toNat + i * pageSize := by
    unfold pageSize at *
    rw [BitVec.toNat_add, pageAddr, BitVec.toNat_ofNat, pageSize]
    omega
  have hsize : h'.size = Function.update h.size up (count * 4096 / 16) := size_setSize h up _
  have hunits : (count * 4096 / 16).toNat = 256 * count.toNat := by
    unfold pageSize at *
    rw [BitVec.toNat_udiv, BitVec.toNat_mul, show (4096 : Word).toNat = 4096 from rfl,
      show (16 : Word).toNat = 16 from rfl]
    omega
  have hsize_up : (h'.size up).toNat = 256 * count.toNat := by
    rw [hsize, Function.update_self, hunits]
  have hwithin : ∀ y, h'.Within up y ↔
      L.hhdm.toNat + i * pageSize ≤ y ∧ y < L.hhdm.toNat + (i + count.toNat) * pageSize := by
    intro y
    unfold Within stop headerSize pageSize at *
    rw [hsize_up, hup]
    omega
  have hheader : IsHeader L up := .inr ⟨by unfold headerSize pageSize at *; omega, by
    unfold headerSize pageSize at *
    omega⟩
  -- no block is there yet
  have hnew : ∀ a, a ∈ live ∨ a ∈ l → up ≠ a := by
    rintro a ha rfl
    by_cases hupbase : up = L.base
    · rw [hupbase] at hup
      unfold pageSize at *
      omega
    · have hblock := hinv.block ha hupbase
      refine acquired_run hi (le_refl (L.hhdm.toNat + i * pageSize)) ?_
        (hblock.inside _ ⟨hup.le, ?_⟩)
      · unfold pageSize
        omega
      · have := hblock.lt_stop
        unfold headerSize at this
        omega
  have hother : ∀ a, a ∈ live ∨ a ∈ l → h'.size a = h.size a := fun a ha => by
    rw [hsize, Function.update_of_ne (hnew a ha).symm]
  have hwithinOther : ∀ a, a ∈ live ∨ a ∈ l → ∀ y, h'.Within a y → h.Within a y :=
    fun a ha y hy => by rwa [Within, stop, hother a ha] at hy
  have hacquired : ∀ y, Acquired L h y → Acquired L h' y := by
    rintro y ⟨j, hj, hy⟩
    exact ⟨j, Finset.mem_union_left _ hj, hy⟩
  have hapart : ∀ a, a ∈ live ∨ a ∈ l → ∀ y, h'.Within up y → ¬ h'.Within a y := by
    intro a ha y hupy hay
    obtain ⟨hle, hlt⟩ := (hwithin y).mp hupy
    have hay' := hwithinOther a ha y hay
    by_cases hne : a = L.base
    · rw [hne, Within, hinv.stop_base] at hay'
      omega
    · exact acquired_run hi hle hlt ((hinv.block ha hne).inside y hay')
  have hlive : up ∉ live := fun hmem => hnew up (.inl hmem) rfl
  have hblock : ∀ a, a ∈ live ∨ a ∈ l → a ≠ L.base → IsBlock L h' a := fun a ha hne =>
    ⟨(hother a ha).symm ▸ (hinv.block ha hne).pos, (hinv.block ha hne).aligned, fun y hy =>
      hacquired y ((hinv.block ha hne).inside y (hwithinOther a ha y hy))⟩
  refine ⟨?_, hlive, hsize_up⟩
  exact {
    ring := hinv.ring.congr fun a ha => next_setSize hheader (hinv.isHeader (.inr ha))
    order := hinv.order.imp_of_mem fun ha _ hab => by rwa [stop, hother _ (.inr ha)]
    base := hinv.base
    base_size := by rw [hother _ (.inr hinv.base), hinv.base_size]
    freelist := hinv.freelist
    freeBlock := fun a ha hne => hblock a (.inr ha) hne
    liveBlock := fun a ha => by
      rcases Finset.mem_insert.mp ha with rfl | ha
      · refine ⟨by omega, ?_, fun y hy => ?_⟩
        · unfold headerSize pageSize at *
          omega
        · obtain ⟨hle, hlt⟩ := (hwithin y).mp hy
          refine ⟨(y - L.hhdm.toNat) / pageSize, Finset.mem_union_right _ (Finset.mem_Ico.mpr ?_), ?_⟩
          all_goals
            unfold pageSize at *
            omega
      · exact hblock a (.inl ha) fun heq => hinv.base_notMem (heq ▸ ha)
    notFree := fun a ha hal => by
      rcases Finset.mem_insert.mp ha with rfl | ha
      · exact hnew up (.inr hal) rfl
      · exact hinv.notFree a ha hal
    apart := fun a ha b hb hne y hay hby => by
      rcases Finset.mem_insert.mp ha with haup | ha
      · rw [haup] at hay hne
        have hb' : b ∈ live ∨ b ∈ l :=
          hb.imp_left fun hb => (Finset.mem_insert.mp hb).resolve_left (Ne.symm hne)
        exact hapart b hb' y hay hby
      · rcases hb with hb | hb
        · rcases Finset.mem_insert.mp hb with hbup | hb
          · rw [hbup] at hby
            exact hapart a (.inl ha) y hby hay
          · exact hinv.apart a ha b (.inl hb) hne y (hwithinOther a (.inl ha) y hay)
              (hwithinOther b (.inl hb) y hby)
        · exact hinv.apart a ha b (.inr hb) hne y (hwithinOther a (.inl ha) y hay)
            (hwithinOther b (.inr hb) y hby)
    units := by
      have hdisjoint : Disjoint h.pages (Finset.Ico i (i + count.toNat)) := by
        rw [Finset.disjoint_right]
        intro j hj
        rw [Finset.mem_Ico] at hj
        exact hi j hj.1 hj.2
      have hmap : (l.map fun a => (h'.size a).toNat) = l.map fun a => (h.size a).toNat :=
        List.map_congr_left fun a ha => by rw [hother a (.inr ha)]
      have hold := hinv.units
      rw [Finset.sum_insert hlive, hmap, hsize_up, Finset.card_union_of_disjoint hdisjoint,
        Nat.card_Ico, Finset.sum_congr rfl fun a ha => by rw [hother a (.inl ha)]]
      omega
    pages := fun j hj => by
      rcases Finset.mem_union.mp hj with hj | hj
      · exact hinv.pages j hj
      · have := (Finset.mem_Ico.mp hj).2
        omega }

/-- The pages are enough for the units. -/
theorem le_pagesFor (hle : nunits.toNat ≤ 2 ^ 60) (hcount : pagesFor nunits ≠ 0) :
    nunits.toNat ≤ 256 * (pagesFor nunits).toNat := by
  have hpos : 0 < (pagesFor nunits).toNat :=
    Nat.pos_of_ne_zero fun hzero => hcount (BitVec.eq_of_toNat_eq hzero)
  have hfour : (4096 - 1 : Word).toNat = 4095 := by decide
  rw [pagesFor, BitVec.toNat_udiv, BitVec.toNat_add, BitVec.toNat_mul, hfour,
    show (16 : Word).toNat = 16 from rfl, show (4096 : Word).toNat = 4096 from rfl] at hpos ⊢
  by_cases hsmall : nunits < 1024
  · rw [if_pos hsmall, show (1024 : Word).toNat = 1024 from rfl] at hpos ⊢
    have hlt : nunits.toNat < 1024 := hsmall
    omega
  · rw [if_neg hsmall] at hpos ⊢
    omega

/-- More turns make no difference. -/
theorem morecore_mono {turns' : ℕ} {p : Word} (hle : turns ≤ turns')
    (hok : Heap.morecore L pmm turns h nunits = .ok (h', p)) :
    Heap.morecore L pmm turns' h nunits = .ok (h', p) := by
  unfold Heap.morecore at hok ⊢
  dsimp only at hok ⊢
  split_ifs at hok ⊢ with hnull
  · exact hok
  · obtain ⟨h'', hfree, hrest⟩ := Outcome.bind_eq_ok.mp hok
    exact Outcome.bind_eq_ok.mpr ⟨h'', kfree_mono hle hfree, hrest⟩

/-- With a turn for each block of the list `morecore` returns `NULL`, or the list has a block
that is large enough. -/
theorem ListInv.morecore (hinv : ListInv L h l live δ) (hgrant : Grant L h pmm (pagesFor nunits))
    (hunits : nunits.toNat ≤ 2 ^ 60) (hturns : l.length ≤ turns) :
    pmm (pagesFor nunits) = 0 ∧ Heap.morecore L pmm turns h nunits = .ok (h, 0) ∨
      ∃ h' l', pmm (pagesFor nunits) ≠ 0 ∧
        Heap.morecore L pmm turns h nunits = .ok (h', h'.freelist) ∧ h'.freelist ≠ 0 ∧
        ListInv L h' l' live δ ∧ l'.length ≤ l.length + 1 ∧
        ∃ b ∈ l', nunits.toNat ≤ (h'.size b).toNat := by
  unfold Heap.morecore
  dsimp only
  by_cases hnull : pmm (pagesFor nunits) = 0
  · rw [if_pos hnull]
    exact .inl ⟨hnull, rfl⟩
  rw [if_neg hnull]
  obtain ⟨hcount, i, hpage, htotal, hi⟩ := hgrant hnull
  have hindex : pageIndex (pageAddr i) = i := by
    have hbelow := L.below
    have hbase := L.base.isLt
    rw [pageIndex, pageAddr, BitVec.toNat_ofNat]
    unfold pageSize at *
    omega
  obtain ⟨hinv', hnotMem, hsize⟩ := hinv.acquire hcount htotal hi
  obtain ⟨h', l', hfree, hinv'', hlength, -, ⟨b, hb, hle⟩, -⟩ := hinv'.kfree (Finset.mem_insert_self _ live)
    hturns
  rw [hpage, hindex]
  rw [Finset.erase_insert hnotMem] at hinv''
  refine .inr ⟨h', l', hpage ▸ hnull, Outcome.bind_eq_ok.mpr ⟨h', hfree, rfl⟩, ?_, hinv'', hlength, b, hb, ?_⟩
  · intro hzero
    have hmem := hinv''.freelist
    rw [hzero] at hmem
    have hpos := L.hhdm_pos
    have hbelow := L.below
    by_cases hne : 0 = L.base
    · rw [← hne, show (0 : Word).toNat = 0 from rfl] at hbelow
      omega
    · obtain ⟨j, -, hj, -⟩ := (hinv''.freeBlock 0 hmem hne).inside 0 ⟨le_rfl, by
        have := (hinv''.freeBlock 0 hmem hne).lt_stop
        unfold headerSize at this
        omega⟩
      omega
  · rw [hsize] at hle
    exact (le_pagesFor hunits hcount).trans hle

end Morecore

end KyroOS.Heap

import KyroOS.Heap.Blocks

/-!
# Freeing a block

`kfree` walks the free list to the place of the block, links it there, and merges it with the
neighbours that it touches.

## Main definitions

* `Place` — the place of a block in the list

## Main results

* `ListInv.exists_belongs`, `ListInv.place_of_belongs` — the test of the loop finds the place
* `ListInv.release`, `ListInv.kfree` — the block is part of the list then, and no unit is lost
-/

namespace KyroOS.Heap

open KyroOS.Memory CircularList

/-- The block at `bp` belongs between the parts `l₁` and `l₂` of the list, behind `p`. -/
structure Place (h : Heap) (l : List Word) (bp p : Word) (l₁ l₂ : List Word) : Prop where
  split : l = l₁ ++ l₂
  lower : ∀ a ∈ l₁, h.stop a ≤ bp.toNat ∧ a.toNat < bp.toNat
  upper : ∀ a ∈ l₂, h.stop bp ≤ a.toNat ∧ bp.toNat < a.toNat
  last : ∃ m, l₂ ++ l₁ = m ++ [p]

section Place

variable {L : Layout} {h : Heap} {l l₁ l₂ m : List Word} {live : Finset Word} {δ : ℤ}
  {bp p q : Word}

theorem belongs_iff : h.Belongs bp p ↔
    (p.toNat < bp.toNat ∧ bp.toNat < (h.next p).toNat) ∨
      ((h.next p).toNat ≤ p.toNat ∧ (p.toNat < bp.toNat ∨ bp.toNat < (h.next p).toNat)) :=
  Iff.rfl

/-- The first block of the list is not above the last one. -/
theorem head_le_last (horder : (m ++ [p]).Pairwise fun a b => h.stop a < b.toNat)
    (hq : (m ++ [p]).head? = some q) : q.toNat ≤ p.toNat := by
  cases m with
  | nil => rw [Option.some.inj hq]
  | cons a m =>
    obtain rfl : a = q := Option.some.inj hq
    have hhead := (List.pairwise_cons.mp horder).1 p (by simp)
    exact (lt_of_stop_lt hhead).le

/-- The loop stops somewhere. -/
theorem ListInv.exists_belongs (hinv : ListInv L h l live δ) (hbp : bp ∈ live) :
    ∃ p ∈ l, h.Belongs bp p := by
  obtain ⟨l₁, l₂, rfl, hlower, hupper⟩ := exists_split (q := fun a => a.toNat < bp.toNat)
    hinv.order fun a b hab hb => (lt_of_stop_lt hab).trans hb
  have habove : ∀ a ∈ l₂, bp.toNat < a.toNat := by
    intro a ha
    have hnot := hupper a ha
    have hcase := hinv.apart_free hbp (List.mem_append_right l₁ ha)
    omega
  rcases List.eq_nil_or_concat l₁ with rfl | ⟨k₁, p, rfl⟩
  · -- below all blocks, which is behind the last one
    rcases List.eq_nil_or_concat l₂ with rfl | ⟨m, p, rfl⟩
    · exact absurd hinv.base List.not_mem_nil
    rw [List.concat_eq_append, List.nil_append] at *
    have hq := hinv.ring.next_last
    refine ⟨p, by simp, belongs_iff.mpr (.inr ⟨head_le_last hinv.order hq, .inr ?_⟩)⟩
    exact habove _ (List.mem_of_mem_head? hq)
  rw [List.concat_eq_append] at *
  have hp := hlower p (by simp)
  cases l₂ with
  | nil =>
    -- above all blocks
    rw [List.append_nil] at hinv
    have hq := hinv.ring.next_last
    exact ⟨p, by simp, belongs_iff.mpr (.inr ⟨head_le_last hinv.order hq, .inl hp⟩)⟩
  | cons q l₂ =>
    have hnext : h.next p = q := by
      have hring := hinv.ring
      rw [List.append_assoc] at hring
      exact hring.rotate.next_cons
    refine ⟨p, by simp, belongs_iff.mpr (.inl ⟨hp, ?_⟩)⟩
    rw [hnext]
    exact habove q List.mem_cons_self

/-- Where the loop stops, the block has its place. -/
theorem ListInv.place_of_belongs (hinv : ListInv L h l live δ) (hbp : bp ∈ live) (hp : p ∈ l)
    (hbelongs : h.Belongs bp p) : ∃ l₁ l₂, Place h l bp p l₁ l₂ := by
  -- it is enough to compare addresses
  have hplace : ∀ {l₁ l₂ : List Word}, l = l₁ ++ l₂ → (∀ a ∈ l₁, a.toNat < bp.toNat) →
      (∀ a ∈ l₂, bp.toNat < a.toNat) → (∃ m, l₂ ++ l₁ = m ++ [p]) → Place h l bp p l₁ l₂ := by
    intro l₁ l₂ hsplit hlower hupper hlast
    refine ⟨hsplit, fun a ha => ?_, fun a ha => ?_, hlast⟩
    · have hlt := hlower a ha
      have hcase := hinv.apart_free hbp (hsplit ▸ List.mem_append_left l₂ ha)
      omega
    · have hlt := hupper a ha
      have hcase := hinv.apart_free hbp (hsplit ▸ List.mem_append_right l₁ ha)
      omega
  have horder := hinv.order
  rw [belongs_iff] at hbelongs
  rcases hinv.ring.next_cases hp with ⟨k₁, k₂, hsplit⟩ | ⟨m, hsplit, hhead⟩
  · generalize h.next p = q at hsplit hbelongs
    rw [hsplit] at horder
    obtain ⟨-, hright, hboth⟩ := List.pairwise_append.mp horder
    obtain ⟨hpq, hright⟩ := List.pairwise_cons.mp hright
    have hlt := lt_of_stop_lt (hpq q List.mem_cons_self)
    refine ⟨k₁ ++ [p], q :: k₂, hplace (by rw [hsplit, List.append_assoc]; rfl) ?_ ?_
      ⟨q :: k₂ ++ k₁, by rw [List.append_assoc]⟩⟩
    · intro a ha
      rcases List.mem_append.mp ha with ha | ha
      · have hap := lt_of_stop_lt (hboth a ha p List.mem_cons_self)
        omega
      · rw [List.mem_singleton.mp ha]
        omega
    · intro a ha
      rcases List.mem_cons.mp ha with rfl | ha
      · omega
      · have hqa := lt_of_stop_lt ((List.pairwise_cons.mp hright).1 a ha)
        omega
  · generalize h.next p = q at hhead hbelongs
    rw [hsplit] at horder hhead
    have hle := head_le_last horder hhead
    by_cases hcase : p.toNat < bp.toNat
    · refine ⟨l, [], hplace (List.append_nil l).symm (fun a ha => ?_) (by simp) ⟨m, hsplit⟩⟩
      rw [hsplit] at ha
      rcases List.mem_append.mp ha with ha | ha
      · have hap := lt_of_stop_lt ((List.pairwise_append.mp horder).2.2 a ha p (by simp))
        omega
      · rwa [List.mem_singleton.mp ha]
    · refine ⟨[], l, hplace rfl (by simp) (fun a ha => ?_) ⟨m, by rw [List.append_nil, hsplit]⟩⟩
      have hbq : bp.toNat < q.toNat := by omega
      rw [hsplit] at ha
      cases hm : m ++ [p] with
      | nil => simp at hm
      | cons b rest =>
        rw [hm] at ha hhead horder
        obtain rfl : b = q := Option.some.inj hhead
        rcases List.mem_cons.mp ha with rfl | ha
        · exact hbq
        · exact hbq.trans (lt_of_stop_lt ((List.pairwise_cons.mp horder).1 a ha))

end Place

/-! ### Merging -/

section Merge

variable {L : Layout} {h h₁ h₂ : Heap} {l l₁ l₂ : List Word} {live : Finset Word} {δ : ℤ}
  {a b bp p q n s x : Word}

/-- The fields of the header at `x` are `n` and `s`, and the other headers are as before. -/
structure Sets (L : Layout) (h h' : Heap) (x n s : Word) : Prop where
  next : ∀ a, IsHeader L a → h'.next a = Function.update h.next x n a
  size : ∀ a, IsHeader L a → h'.size a = Function.update h.size x s a
  pages : h'.pages = h.pages

theorem sets_setNext (hx : IsHeader L x) (n : Word) : Sets L h (h.setNext x n) x n (h.size x) where
  next := fun a _ => rfl
  size := fun a ha => by rw [size_setNext hx ha, Function.update_eq_self]
  pages := rfl

theorem sets_setSize_setNext (hx : IsHeader L x) (n s : Word) :
    Sets L h ((h.setSize x s).setNext x n) x n s where
  next := fun a ha => by
    rw [next_setNext]
    by_cases hax : a = x
    · rw [hax, Function.update_self, Function.update_self]
    · rw [Function.update_of_ne hax, Function.update_of_ne hax, next_setSize hx ha]
  size := fun a ha => by rw [size_setNext hx ha, size_setSize]
  pages := rfl

theorem mergeUpper_sets (hbp : IsHeader L bp) (hp : IsHeader L p) (hq : IsHeader L (h.next p)) :
    Sets L h (h.mergeUpper bp p) bp
      (if h.behind bp = h.next p then h.next (h.next p) else h.next p)
      (if h.behind bp = h.next p then h.size bp + h.size (h.next p) else h.size bp) := by
  unfold mergeUpper
  dsimp only
  split_ifs
  · rw [next_setSize hbp hp, next_setSize hbp hq]
    exact sets_setSize_setNext hbp _ _
  · exact sets_setNext hbp _

theorem mergeLower_sets (hbp : IsHeader L bp) (hp : IsHeader L p) :
    Sets L h (h.mergeLower bp p) p (if h.behind p = bp then h.next bp else bp)
      (if h.behind p = bp then h.size p + h.size bp else h.size p) := by
  unfold mergeLower
  dsimp only
  split_ifs
  · rw [next_setSize hp hbp]
    exact sets_setSize_setNext hp _ _
  · exact sets_setNext hp _

/-- The list without what is merged with the block at `bp` from above: `k` of `l₂` is left, and
the block links to `n` and has `s` units. -/
structure Above (L : Layout) (h : Heap) (l l₁ k : List Word) (bp p n s : Word) : Prop where
  sublist : (l₁ ++ k).Sublist l
  base : L.base ∈ l₁ ++ k
  ring : Ring (Function.update h.next p n) (l₁ ++ k)
  last : ∃ m, k ++ l₁ = m ++ [p]
  upper : ∀ b ∈ k, bp.toNat + headerSize * s.toNat < b.toNat
  cover : ∀ y, bp.toNat ≤ y → y < bp.toNat + headerSize * s.toNat →
    ∃ a, (a = bp ∨ a ∈ l) ∧ h.Within a y
  bound : bp.toNat + headerSize * s.toNat ≤ L.base.toNat
  le : (h.size bp).toNat ≤ s.toNat
  units : s.toNat + ((l₁ ++ k).map fun a => (h.size a).toNat).sum =
    (l.map fun a => (h.size a).toNat).sum + (h.size bp).toNat

/-- The first block above is the one that the place links to. -/
theorem Place.head (hplace : Place h l bp p l₁ l₂) (hring : Ring h.next l) :
    (l₂ ++ l₁).head? = some (h.next p) := by
  obtain ⟨m, hlast⟩ := hplace.last
  have hrot : Ring h.next (l₂ ++ l₁) := (hplace.split ▸ hring).rotate
  rw [hlast] at hrot ⊢
  exact hrot.next_last

/-- The block does not touch the one above. -/
theorem ListInv.above_apart (hinv : ListInv L h l live δ) (hbp : bp ∈ live)
    (hplace : Place h l bp p l₁ l₂) (htouch : h.stop bp ≠ (h.next p).toNat) :
    Above L h l l₁ l₂ bp p (h.next p) (h.size bp) where
  sublist := hplace.split ▸ List.Sublist.refl l
  base := hplace.split ▸ hinv.base
  ring := by
    rw [Function.update_eq_self, ← hplace.split]
    exact hinv.ring
  last := hplace.last
  upper := by
    have hhead := hplace.head hinv.ring
    have horder := hinv.order
    rw [hplace.split] at horder
    have hright := (List.pairwise_append.mp horder).2.1
    intro b hb
    have hle := (hplace.upper b hb).1
    cases l₂ with
    | nil => exact absurd hb List.not_mem_nil
    | cons q l₂ =>
      have hq : q = h.next p := Option.some.inj hhead
      have hleq := (hplace.upper q List.mem_cons_self).1
      rw [← hq] at htouch
      rcases List.mem_cons.mp hb with rfl | hb
      · exact lt_of_le_of_ne hleq htouch
      · have hlt := lt_of_stop_lt ((List.pairwise_cons.mp hright).1 b hb)
        exact hleq.trans_lt hlt
  cover := fun y hle hlt => ⟨bp, .inl rfl, hle, hlt⟩
  bound := hinv.stop_le (.inl hbp)
  le := le_rfl
  units := by rw [← hplace.split, Nat.add_comm]

/-- The block touches the one above. -/
theorem ListInv.above_touch (hinv : ListInv L h l live δ) (hbp : bp ∈ live)
    (hplace : Place h l bp p l₁ l₂) (htouch : h.stop bp = (h.next p).toNat) :
    ∃ k, l₂ = h.next p :: k ∧ Above L h l l₁ k bp p (h.next (h.next p))
      (h.size bp + h.size (h.next p)) := by
  have hhead := hplace.head hinv.ring
  have hbpblock := hinv.liveBlock bp hbp
  have hbplt := hbpblock.lt_stop
  cases l₂ with
  | nil =>
    -- the block behind the highest one is the lowest
    have hlow := (hplace.lower (h.next p) (List.mem_of_mem_head? hhead)).2
    rw [headerSize] at hbplt
    omega
  | cons q k =>
    obtain rfl : q = h.next p := Option.some.inj hhead
    refine ⟨k, rfl, ?_⟩
    generalize hq : h.next p = q at *
    have hql : q ∈ l := by rw [hplace.split]; simp
    have hqbase : q ≠ L.base := by
      rintro rfl
      have := hbpblock.stop_lt hinv.pages
      omega
    have hbase : L.base ∈ l₁ ++ k := by
      have hmem := hinv.base
      rw [hplace.split] at hmem
      simp only [List.mem_append, List.mem_cons] at hmem ⊢
      tauto
    -- the ring without the block above
    obtain ⟨m, hlast⟩ := hplace.last
    obtain ⟨m', hm⟩ : ∃ m', m = q :: m' := by
      cases m with
      | nil =>
        rw [List.cons_append, List.nil_append, List.cons.injEq] at hlast
        have hnil := List.append_eq_nil_iff.mp hlast.2
        rw [hnil.1, hnil.2] at hbase
        exact absurd hbase List.not_mem_nil
      | cons c m' =>
        rw [List.cons_append, List.cons_append, List.cons.injEq] at hlast
        exact ⟨m', by rw [hlast.1]⟩
    rw [hm, List.cons_append, List.cons_append, List.cons.injEq] at hlast
    have hlast' := hlast.2
    have hring : Ring h.next (q :: (m' ++ [p])) := by
      rw [← hlast', ← List.cons_append]
      exact (hplace.split ▸ hinv.ring).rotate
    have hstopq := hinv.stop_le (.inr hql)
    have hsum : (h.size bp + h.size q).toNat = (h.size bp).toNat + (h.size q).toNat := by
      have := hinv.stop_lt (.inr hql)
      rw [BitVec.toNat_add]
      unfold stop headerSize at this htouch
      omega
    have hend : bp.toNat + headerSize * (h.size bp + h.size q).toNat = h.stop q := by
      rw [hsum]
      unfold stop at htouch ⊢
      rw [← htouch]
      unfold headerSize
      omega
    have hsub : (l₁ ++ k).Sublist l := by
      rw [hplace.split]
      exact (List.sublist_cons_self q k).append_left l₁
    refine ⟨hsub, hbase, ?_, ⟨m', hlast'⟩, ?_, ?_, hend ▸ hstopq, ?_, ?_⟩
    · have hunlink := hring.unlink
      rw [← hlast'] at hunlink
      exact hunlink.rotate
    · intro b hb
      rw [hend]
      have horder := hinv.order
      rw [hplace.split] at horder
      exact (List.pairwise_cons.mp (List.pairwise_append.mp horder).2.1).1 b hb
    · intro y hle hlt
      rw [hend] at hlt
      by_cases hy : y < h.stop bp
      · exact ⟨bp, .inl rfl, hle, hy⟩
      · exact ⟨q, .inr hql, by omega, hlt⟩
    · rw [hsum]
      omega
    · rw [hsum, hplace.split, List.map_append, List.map_append, List.sum_append, List.sum_append,
        List.map_cons, List.sum_cons]
      omega

/-- What `mergeUpper` does is in line with what is left of the list above. -/
theorem ListInv.exists_above (hinv : ListInv L h l live δ) (hbp : bp ∈ live) (hp : p ∈ l)
    (hplace : Place h l bp p l₁ l₂) :
    ∃ k n s, Above L h l l₁ k bp p n s ∧ Sets L h (h.mergeUpper bp p) bp n s := by
  have hsets := mergeUpper_sets (h := h) (hinv.isHeader (.inl hbp)) (hinv.isHeader (.inr hp))
    (hinv.isHeader (.inr (hinv.ring.next_mem hp)))
  have htouch := behind_eq_iff (q := h.next p) (hinv.stop_lt (.inl hbp))
  by_cases hbehind : h.behind bp = h.next p
  · rw [if_pos hbehind, if_pos hbehind] at hsets
    obtain ⟨k, -, habove⟩ := hinv.above_touch hbp hplace (htouch.mp hbehind)
    exact ⟨k, _, _, habove, hsets⟩
  · rw [if_neg hbehind, if_neg hbehind] at hsets
    exact ⟨l₂, _, _, hinv.above_apart hbp hplace (mt htouch.mpr hbehind), hsets⟩

/-- The block below, if there is one, is the place. -/
theorem Place.lower_last (hplace : Place h l bp p l₁ l₂) : l₁ = [] ∨ ∃ k, l₁ = k ++ [p] := by
  obtain ⟨m, hlast⟩ := hplace.last
  rcases List.eq_nil_or_concat l₁ with hnil | ⟨k, c, rfl⟩
  · exact .inl hnil
  · rw [List.concat_eq_append, ← List.append_assoc] at hlast
    have hc := (List.append_inj' hlast rfl).2
    refine .inr ⟨k, ?_⟩
    rw [List.concat_eq_append, hc]

/-- The block below is in order with what lies below it. -/
theorem ListInv.lower_order (hinv : ListInv L h l live δ) {k : List Word} (hsplit : l = k ++ p :: l₂) :
    ∀ a ∈ k, h.stop a < p.toNat := by
  have horder := hinv.order
  rw [hsplit] at horder
  exact fun a ha => (List.pairwise_append.mp horder).2.2 a ha p List.mem_cons_self

section Below

variable {h' : Heap} {k : List Word} (hinv : ListInv L h l live δ) (hbp : bp ∈ live) (hp : p ∈ l)
  (hplace : Place h l bp p l₁ l₂) (habove : Above L h l l₁ k bp p n s)
  (hpages : h'.pages = h.pages) (hfreelist : h'.freelist = p)

include hinv hbp hp hplace habove hpages hfreelist

/-- The block touches the one below, which stays in the list. -/
theorem ListInv.joined (hnext : ∀ a, IsHeader L a →
      h'.next a = Function.update (Function.update h.next bp n) p n a)
    (hsize : ∀ a, IsHeader L a →
      h'.size a = Function.update (Function.update h.size bp s) p (h.size p + s) a)
    (htouch : h.stop p = bp.toNat) :
    ListInv L h' (l₁ ++ k) (live.erase bp) δ ∧ (h'.size p).toNat = (h.size p).toNat + s.toNat ∧
      p ∈ l₁ ++ k := by
  have hbpl : bp ∉ l := hinv.notFree bp hbp
  have hne : p ≠ bp := fun heq => hbpl (heq ▸ hp)
  obtain ⟨k₁, rfl⟩ : ∃ k₁, l₁ = k₁ ++ [p] := by
    refine hplace.lower_last.resolve_left ?_
    rintro rfl
    have hp₂ : p ∈ l₂ := by
      have hsplit := hplace.split
      rw [List.nil_append] at hsplit
      exact hsplit ▸ hp
    have hlt := (hplace.upper p hp₂).2
    unfold stop at htouch
    omega
  have hpbase : p ≠ L.base := by
    rintro rfl
    rw [hinv.stop_base] at htouch
    exact hne (BitVec.eq_of_toNat_eq htouch)
  have hsize_p : h'.size p = h.size p + s := by
    rw [hsize p (hinv.isHeader (.inr hp)), Function.update_self]
  have hsum : (h'.size p).toNat = (h.size p).toNat + s.toNat := by
    have := habove.bound
    have := L.base.isLt
    rw [hsize_p, BitVec.toNat_add]
    unfold stop headerSize at *
    omega
  have hend : h'.stop p = bp.toNat + headerSize * s.toNat := by
    rw [stop, hsum, ← htouch, stop]
    unfold headerSize
    omega
  have hlist : ∀ m : List Word, k₁ ++ [p] ++ m = k₁ ++ p :: m := fun m => by
    rw [List.append_assoc]
    rfl
  have hsub := habove.sublist
  have hbase := habove.base
  have hring := habove.ring
  have hunits := habove.units
  rw [hlist] at hsub hbase hring hunits
  have hperm : (k₁ ++ p :: k).Perm (p :: (k₁ ++ k)) := List.perm_middle
  rw [(hperm.map _).sum_eq, List.map_cons, List.sum_cons] at hunits
  rw [hlist]
  refine ⟨hinv.absorb hbp (hring.congr fun a ha => ?_)
    (((List.sublist_cons_self p k).append_left k₁).trans hsub) ?_ (.inr hp) ?_ hpages ?_ ?_ ?_
    (hinv.lower_order (hplace.split.trans (hlist l₂))) ?_ ?_, hsum, by simp⟩
  · rw [hnext a (hinv.isHeader (.inr (hsub.subset ha)))]
    by_cases hap : a = p
    · rw [hap, Function.update_self, Function.update_self]
    · have habp : a ≠ bp := fun heq => hbpl (heq ▸ hsub.subset ha)
      rw [Function.update_of_ne hap, Function.update_of_ne hap, Function.update_of_ne habp]
  · simp only [List.mem_append, List.mem_cons] at hbase ⊢
    exact hbase.imp_right fun hcase => hcase.resolve_left hpbase.symm
  · rw [hfreelist]
    simp
  · intro a ha hap habp
    rw [hsize a (hinv.isHeader ha), Function.update_of_ne hap, Function.update_of_ne habp]
  · have hpos := (hinv.liveBlock bp hbp).pos
    have hle := habove.le
    omega
  · intro y hy
    rw [Within, hend] at hy
    by_cases hyp : y < h.stop p
    · exact ⟨p, .inr hp, hy.1, hyp⟩
    · exact habove.cover y (by omega) hy.2
  · rw [hend]
    exact habove.upper
  · rw [hsum]
    omega

/-- The block does not touch the one below, and comes to the list. -/
theorem ListInv.linked (hnext : ∀ a, IsHeader L a →
      h'.next a = Function.update (Function.update h.next bp n) p bp a)
    (hsize : ∀ a, IsHeader L a →
      h'.size a = Function.update (Function.update h.size bp s) p (h.size p) a)
    (htouch : h.stop p ≠ bp.toNat) :
    ListInv L h' (l₁ ++ bp :: k) (live.erase bp) δ ∧ h'.size bp = s := by
  have hbpl : bp ∉ l := hinv.notFree bp hbp
  have hne : p ≠ bp := fun heq => hbpl (heq ▸ hp)
  have hsub := habove.sublist
  have hsize_bp : h'.size bp = s := by
    rw [hsize bp (hinv.isHeader (.inl hbp)), Function.update_of_ne hne.symm, Function.update_self]
  have hsize_p : h'.size p = h.size p := by
    rw [hsize p (hinv.isHeader (.inr hp)), Function.update_self]
  have hmem : ∀ a ∈ l₁ ++ bp :: k, a ∈ live ∨ a ∈ l := by
    intro a ha
    simp only [List.mem_append, List.mem_cons] at ha
    rcases ha with ha | rfl | ha
    · exact .inr (hsub.subset (List.mem_append_left k ha))
    · exact .inl hbp
    · exact .inr (hsub.subset (List.mem_append_right l₁ ha))
  -- the ring with the block at the end
  obtain ⟨m, hlast⟩ := habove.last
  have hring : Ring (Function.update (Function.update h.next bp n) p bp) (l₁ ++ bp :: k) := by
    have hrot := habove.ring.rotate
    rw [hlast] at hrot
    have hbpm : bp ∉ m ++ [p] := by
      rw [← hlast]
      intro hmem
      refine hbpl (hsub.subset ?_)
      simp only [List.mem_append] at hmem ⊢
      exact hmem.symm
    have hlink := hrot.link hbpm
    rw [Function.update_self, Function.update_comm hne, Function.update_idem, ← hlast,
      List.append_assoc] at hlink
    have hfinal := hlink.rotate
    rwa [List.append_assoc] at hfinal
  refine ⟨hinv.absorb hbp (hring.congr fun a ha => hnext a (hinv.isHeader (hmem a ha))) hsub
    habove.base (.inl rfl) ?_ hpages ?_ ?_ ?_ ?_ ?_ ?_, hsize_bp⟩
  · rw [hfreelist]
    have hpm : p ∈ k ++ l₁ := by rw [hlast]; simp
    simp only [List.mem_append, List.mem_cons] at hpm ⊢
    tauto
  · intro a ha habp _
    by_cases hap : a = p
    · rw [hap, hsize_p]
    · rw [hsize a (hinv.isHeader ha), Function.update_of_ne hap, Function.update_of_ne habp]
  · rw [hsize_bp]
    exact (hinv.liveBlock bp hbp).pos.trans_le habove.le
  · intro y hy
    rw [Within, stop, hsize_bp] at hy
    exact habove.cover y hy.1 hy.2
  · intro a ha
    rcases hplace.lower_last with rfl | ⟨k₁, rfl⟩
    · exact absurd ha List.not_mem_nil
    · rcases List.mem_append.mp ha with hak | hap
      · have hsplit : l = k₁ ++ p :: l₂ := by rw [hplace.split, List.append_assoc]; rfl
        exact (hinv.lower_order hsplit a hak).trans (hplace.lower p (by simp)).2
      · rw [List.mem_singleton.mp hap] at ha ⊢
        exact lt_of_le_of_ne (hplace.lower p ha).1 htouch
  · rw [stop, hsize_bp]
    exact habove.upper
  · rw [hsize_bp]
    exact habove.units

end Below

/-- The block is in the list when it has been put at its place, and no unit is lost. -/
theorem ListInv.release (hinv : ListInv L h l live δ) (hbp : bp ∈ live) (hp : p ∈ l)
    (hplace : Place h l bp p l₁ l₂) :
    ∃ l', ListInv L (h.release bp p) l' (live.erase bp) δ ∧ l'.length ≤ l.length + 1 ∧
      (h.release bp p).pages = h.pages ∧
      ∃ b ∈ l', (h.size bp).toNat ≤ ((h.release bp p).size b).toNat := by
  obtain ⟨k, n, s, habove, hupper⟩ := hinv.exists_above hbp hp hplace
  have hne : p ≠ bp := fun heq => hinv.notFree bp hbp (heq ▸ hp)
  have hpheader := hinv.isHeader (.inr hp)
  have hbpheader := hinv.isHeader (.inl hbp)
  have hlower := mergeLower_sets (h := h.mergeUpper bp p) hbpheader hpheader
  have hsize_p : (h.mergeUpper bp p).size p = h.size p := by
    rw [hupper.size p hpheader, Function.update_of_ne hne]
  rw [hsize_p, hupper.size bp hbpheader, hupper.next bp hbpheader, Function.update_self,
    Function.update_self, show (h.mergeUpper bp p).behind p = h.behind p by
      rw [behind, behind, hsize_p]] at hlower
  -- the fields in the end
  have hpages : (h.release bp p).pages = h.pages := hlower.pages.trans hupper.pages
  have hnext : ∀ a, IsHeader L a → (h.release bp p).next a =
      Function.update (Function.update h.next bp n) p (if h.behind p = bp then n else bp) a := by
    intro a ha
    refine (hlower.next a ha).trans ?_
    by_cases hap : a = p
    · rw [hap, Function.update_self, Function.update_self]
    · rw [Function.update_of_ne hap, Function.update_of_ne hap, hupper.next a ha]
  have hsize : ∀ a, IsHeader L a → (h.release bp p).size a =
      Function.update (Function.update h.size bp s) p
        (if h.behind p = bp then h.size p + s else h.size p) a := by
    intro a ha
    refine (hlower.size a ha).trans ?_
    by_cases hap : a = p
    · rw [hap, Function.update_self, Function.update_self]
    · rw [Function.update_of_ne hap, Function.update_of_ne hap, hupper.size a ha]
  have htouch := behind_eq_iff (q := bp) (hinv.stop_lt (.inr hp))
  have hlength := habove.sublist.length_le
  by_cases htouches : h.behind p = bp
  · rw [if_pos htouches] at hnext hsize
    obtain ⟨hinv', hsum, hmem⟩ := hinv.joined hbp hp hplace habove hpages rfl hnext hsize
      (htouch.mp htouches)
    exact ⟨l₁ ++ k, hinv', hlength.trans (Nat.le_succ _), hpages, p, hmem, by
      rw [hsum]
      exact habove.le.trans (Nat.le_add_left _ _)⟩
  · rw [if_neg htouches] at hnext hsize
    obtain ⟨hinv', hsum⟩ := hinv.linked hbp hp hplace habove hpages rfl hnext hsize
      (mt htouch.mpr htouches)
    refine ⟨l₁ ++ bp :: k, hinv', ?_, hpages, bp, by simp, hsum ▸ habove.le⟩
    rw [List.length_append, List.length_cons]
    rw [List.length_append] at hlength
    omega

end Merge

/-! ### `kfree` -/

section Kfree

variable {L : Layout} {h h' : Heap} {l : List Word} {live : Finset Word} {δ : ℤ} {ap bp : Word}
  {turns turns' : ℕ}

/-- More turns make no difference. -/
theorem kfree_mono (hle : turns ≤ turns') (hok : kfree turns h ap = .ok h') :
    kfree turns' h ap = .ok h' := by
  unfold kfree at hok ⊢
  split_ifs at hok ⊢ with hnull
  · exact hok
  dsimp only at hok ⊢
  cases hseek : seek h.next (h.Belongs (ap - 16)) turns h.freelist with
  | none =>
    rw [hseek] at hok
    cases hok
  | some p =>
    rw [hseek] at hok
    rw [seek_mono hle hseek]
    exact hok

/-- With a turn for each block of the list `kfree` returns, and the block is in the list. -/
theorem ListInv.kfree (hinv : ListInv L h l live δ) (hbp : bp ∈ live) (hturns : l.length ≤ turns) :
    ∃ h' l', Heap.kfree turns h (bp + 16) = .ok h' ∧ ListInv L h' l' (live.erase bp) δ ∧
      l'.length ≤ l.length + 1 ∧ h'.pages = h.pages ∧
      (∃ b ∈ l', (h.size bp).toNat ≤ (h'.size b).toNat) ∧ ∃ p ∈ l, h' = h.release bp p := by
  obtain ⟨q, hq, hstop⟩ := hinv.exists_belongs hbp
  obtain ⟨p, hp, hbelongs, hseek⟩ := hinv.ring.seek hinv.freelist hq hstop hturns
  obtain ⟨l₁, l₂, hplace⟩ := hinv.place_of_belongs hbp hp hbelongs
  obtain ⟨l', hinv', hlength, hpages, hbig⟩ := hinv.release hbp hp hplace
  refine ⟨h.release bp p, l', ?_, hinv', hlength, hpages, hbig, p, hp, rfl⟩
  have hnull : bp + 16 ≠ 0 := by
    intro hzero
    have hnat := congrArg BitVec.toNat hzero
    have hstop := (hinv.liveBlock bp hbp).lt_stop
    have hlt := hinv.stop_lt (.inl hbp)
    rw [BitVec.toNat_add, show (16 : Word).toNat = 16 from rfl, show (0 : Word).toNat = 0 from rfl]
      at hnat
    rw [headerSize] at hstop
    omega
  rw [Heap.kfree, if_neg hnull, BitVec.add_sub_cancel]
  dsimp only
  rw [hseek]
  rfl

end Kfree

end KyroOS.Heap

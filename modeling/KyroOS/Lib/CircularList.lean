import Mathlib.Data.List.Cycle
import Mathlib.Logic.Relation

/-!
# Circular lists in memory

Cells with one link each. A list of cells is a ring when following the links runs through
it once and around. A ring has no first cell: what is stated for the cell at the front
holds for every cell, after a rotation.

## Main definitions

* `Ring next l` — the links run around `l`
* `seek` — following the links up to a cell that meets a test

## Main results

* `Ring.rotate` — a ring may be entered anywhere
* `Ring.unlink`, `Ring.link` — a cell is taken out, or put in, behind its predecessor
* `Ring.reaches_iff` — following the links reaches the cells of the ring and no others
* `Ring.isRotated` — the links determine the ring, up to where it is entered
* `exists_split`, `pairwise_insert` — where an element belongs in an ordered list
* `Ring.seek` — a turn for each cell of the ring is enough to find one
-/

namespace CircularList

variable {α : Type*} {next next' : α → α} {l m : List α} {a b p x : α}

/-- Following `next` runs through the cells of `l` once and around. -/
structure Ring (next : α → α) (l : List α) : Prop where
  nodup : l.Nodup
  chain : Cycle.Chain (fun a b => next a = b) (l : Cycle α)

/-- A ring may be entered anywhere. -/
theorem Ring.rotate (h : Ring next (l ++ m)) : Ring next (m ++ l) := by
  have hcycle : (↑(m ++ l) : Cycle α) = ↑(l ++ m) := Cycle.coe_eq_coe.mpr List.isRotated_append
  refine ⟨(List.perm_append_comm.nodup_iff).mp h.nodup, ?_⟩
  rw [hcycle]
  exact h.chain

/-- The cell `p` at the end links to the cell at the front. -/
theorem ring_concat_iff : Ring next (m ++ [p]) ↔ (m ++ [p]).Nodup ∧
    List.IsChain (fun a b => next a = b) (p :: (m ++ [p])) := by
  have hcycle : (↑(m ++ [p]) : Cycle α) = ↑(p :: m) := Cycle.coe_eq_coe.mpr (List.isRotated_concat p m)
  constructor
  · rintro ⟨hnodup, hchain⟩
    rw [hcycle, Cycle.chain_coe_cons] at hchain
    exact ⟨hnodup, hchain⟩
  · rintro ⟨hnodup, hchain⟩
    refine ⟨hnodup, ?_⟩
    rwa [hcycle, Cycle.chain_coe_cons]

theorem ring_singleton : Ring next [a] ↔ next a = a := by
  have h : Ring next ([] ++ [a]) ↔ _ := ring_concat_iff
  simpa using h

theorem Ring.next_cons (h : Ring next (a :: b :: l)) : next a = b := by
  have hchain := h.chain
  rw [Cycle.chain_coe_cons, List.cons_append] at hchain
  exact (List.isChain_cons_cons.mp hchain).1

/-- The links along a list of cells, up to the last one, are all that matters. -/
theorem isChain_concat_congr (hsame : ∀ a ∈ l, next' a = next a)
    (h : List.IsChain (fun a b => next a = b) (l ++ [b])) :
    List.IsChain (fun a b => next' a = b) (l ++ [b]) := by
  induction l with
  | nil => exact List.isChain_singleton b
  | cons a l ih =>
    rw [List.cons_append, List.isChain_cons] at h ⊢
    refine ⟨fun c hc => ?_, ih (fun d hd => hsame d (List.mem_cons_of_mem a hd)) h.2⟩
    exact (hsame a List.mem_cons_self).trans (h.1 c hc)

/-- The links of the cells of a ring are all that matters. -/
theorem Ring.congr (h : Ring next l) (hsame : ∀ a ∈ l, next' a = next a) : Ring next' l := by
  rcases List.eq_nil_or_concat l with rfl | ⟨m, p, rfl⟩
  · exact ⟨h.nodup, Cycle.Chain.nil _⟩
  rw [List.concat_eq_append] at h hsame ⊢
  obtain ⟨hnodup, hchain⟩ := ring_concat_iff.mp h
  refine ring_concat_iff.mpr ⟨hnodup, ?_⟩
  refine isChain_concat_congr (l := p :: m) (fun a ha => hsame a ?_) hchain
  rcases List.mem_cons.mp ha with rfl | ha
  · simp
  · simp [ha]

/-- A cell of a ring links to the one behind it, or at the end to the one at the front. -/
theorem Ring.next_cases (h : Ring next l) (ha : a ∈ l) :
    (∃ l₁ l₂, l = l₁ ++ a :: next a :: l₂) ∨ ∃ m, l = m ++ [a] ∧ l.head? = some (next a) := by
  obtain ⟨l₁, l₂, rfl⟩ := List.append_of_mem ha
  have hrot := Ring.rotate (l := l₁) h
  cases l₂ with
  | cons b l₂ =>
    have hnext : next a = b := hrot.next_cons
    exact .inl ⟨l₁, l₂, by rw [hnext]⟩
  | nil =>
    refine .inr ⟨l₁, rfl, ?_⟩
    cases l₁ with
    | nil => rw [ring_singleton.mp hrot, List.nil_append, List.head?_cons]
    | cons b l₁ =>
      have hnext : next a = b := hrot.next_cons
      rw [List.cons_append, List.head?_cons, hnext]

/-- The cell at the end links to the one at the front. -/
theorem Ring.next_last (h : Ring next (m ++ [p])) : (m ++ [p]).head? = some (next p) := by
  cases m with
  | nil => rw [List.nil_append, List.head?_cons, ring_singleton.mp h]
  | cons b m =>
    have hrot : Ring next ([p] ++ b :: m) := h.rotate
    rw [List.cons_append, List.head?_cons, hrot.next_cons]

section Update

variable [DecidableEq α]

/-- The cell at the front is taken out: its predecessor links past it. -/
theorem Ring.unlink (h : Ring next (x :: (m ++ [p]))) :
    Ring (Function.update next p (next x)) (m ++ [p]) := by
  obtain ⟨-, hchain⟩ := (ring_concat_iff (m := x :: m)).mp h
  have hnodup := (List.nodup_cons.mp h.nodup).2
  have hpm : p ∉ m := fun hmem => (List.nodup_append.mp hnodup).2.2 p hmem p (by simp) rfl
  obtain ⟨-, hchain⟩ := List.isChain_cons.mp hchain
  rw [List.cons_append, List.isChain_cons] at hchain
  refine ring_concat_iff.mpr ⟨hnodup, List.isChain_cons.mpr ⟨fun b hb => ?_, ?_⟩⟩
  · rw [Function.update_self]
    exact hchain.1 b hb
  · refine isChain_concat_congr (fun a ha => Function.update_of_ne ?_ _ _) hchain.2
    rintro rfl
    exact hpm ha

/-- The cell behind `a` is taken out, wherever the ring is entered. -/
theorem Ring.unlink_next (h : Ring next l) (ha : a ∈ l) (hne : next a ≠ a) :
    ∃ l₁ l₂, l = l₁ ++ next a :: l₂ ∧ a ∈ l₁ ++ l₂ ∧
      Ring (Function.update next a (next (next a))) (l₁ ++ l₂) := by
  rcases h.next_cases ha with ⟨l₁, l₂, hsplit⟩ | ⟨m, rfl, hhead⟩
  · generalize hb : next a = b at hsplit
    have hlist : l = (l₁ ++ [a]) ++ b :: l₂ := by rw [hsplit, List.append_assoc]; rfl
    have hrot : Ring next (b :: (l₂ ++ l₁ ++ [a])) := by
      have hrot := Ring.rotate (l := l₁ ++ [a]) (m := b :: l₂) (hlist ▸ h)
      rwa [List.cons_append, ← List.append_assoc] at hrot
    have hunlink := hrot.unlink
    rw [List.append_assoc] at hunlink
    exact ⟨l₁ ++ [a], l₂, hlist, by simp, hunlink.rotate⟩
  · cases m with
    | nil => exact absurd (ring_singleton.mp h) hne
    | cons b m =>
      obtain rfl : b = next a := Option.some.inj hhead
      exact ⟨[], m ++ [a], rfl, by simp, Ring.unlink h⟩

/-- A cell is put in behind the cell at the end, and is the one at the end then. -/
theorem Ring.link (h : Ring next (m ++ [p])) (hx : x ∉ m ++ [p]) :
    Ring (Function.update (Function.update next x (next p)) p x) (m ++ [p] ++ [x]) := by
  obtain ⟨hnodup, hchain⟩ := ring_concat_iff.mp h
  have hpm : p ∉ m := fun hmem => (List.nodup_append.mp hnodup).2.2 p hmem p (by simp) rfl
  have hxp : x ≠ p := by
    rintro rfl
    exact hx (by simp)
  have hxm : x ∉ m := fun hmem => hx (by simp [hmem])
  obtain ⟨hhead, hrest⟩ := List.isChain_cons.mp hchain
  refine ring_concat_iff.mpr ⟨?_, List.isChain_cons.mpr ⟨fun b hb => ?_, ?_⟩⟩
  · exact List.nodup_append.mpr ⟨hnodup, List.nodup_singleton x, by
      intro a ha b hb
      rw [List.mem_singleton.mp hb]
      rintro rfl
      exact hx ha⟩
  · -- the new cell takes over the link of its predecessor
    rw [Function.update_of_ne hxp, Function.update_self]
    refine hhead b ?_
    rwa [List.head?_append_of_ne_nil _ (by simp)] at hb
  · rw [List.append_assoc]
    refine List.isChain_split.mpr ⟨?_, ?_⟩
    · refine isChain_concat_congr (fun a ha => ?_) hrest
      rw [Function.update_of_ne, Function.update_of_ne]
      · rintro rfl
        exact hxm ha
      · rintro rfl
        exact hpm ha
    · exact List.isChain_pair.mpr (Function.update_self ..)

end Update

/-! ### Reachable cells -/

theorem Ring.next_mem (h : Ring next l) (ha : a ∈ l) : next a ∈ l := by
  obtain ⟨l₁, l₂, rfl⟩ := List.append_of_mem ha
  have hrot := Ring.rotate (l := l₁) h
  rw [List.cons_append] at hrot
  cases hl : l₂ ++ l₁ with
  | nil =>
    rw [hl] at hrot
    rw [ring_singleton.mp hrot]
    exact ha
  | cons b m =>
    rw [hl] at hrot
    rw [hrot.next_cons]
    have hb : b ∈ l₂ ++ l₁ := by rw [hl]; exact List.mem_cons_self
    simp only [List.mem_append, List.mem_cons] at hb ⊢
    tauto

/-- Following the links along a list of cells. -/
theorem reaches_of_isChain (h : List.IsChain (fun a b => next a = b) (a :: l)) (hb : b ∈ a :: l) :
    Relation.ReflTransGen (fun a b => next a = b) a b := by
  induction l generalizing a with
  | nil =>
    rw [List.mem_singleton.mp hb]
  | cons c l ih =>
    rcases List.mem_cons.mp hb with rfl | hb
    · exact .refl
    · obtain ⟨hac, hrest⟩ := List.isChain_cons_cons.mp h
      exact .head hac (ih hrest hb)

/-- Following the links from a cell of a ring reaches the cells of the ring. -/
theorem Ring.reaches_iff (h : Ring next l) (ha : a ∈ l) :
    Relation.ReflTransGen (fun a b => next a = b) a b ↔ b ∈ l := by
  constructor
  · intro hreach
    induction hreach with
    | refl => exact ha
    | tail _ hlast ih => exact hlast ▸ h.next_mem ih
  · intro hb
    obtain ⟨l₁, l₂, rfl⟩ := List.append_of_mem ha
    have hrot := Ring.rotate (l := l₁) h
    have hchain := hrot.chain
    rw [List.cons_append, Cycle.chain_coe_cons] at hchain
    refine reaches_of_isChain hchain ?_
    simp only [List.mem_append, List.mem_cons] at hb ⊢
    tauto

/-! ### One ring -/

/-- The links determine the way from one cell to another. -/
theorem eq_of_isChain (h : List.IsChain (fun a b => next a = b) (a :: (l ++ [b])))
    (h' : List.IsChain (fun a b => next a = b) (a :: (m ++ [b]))) (hl : b ∉ l) (hm : b ∉ m) :
    l = m := by
  induction l generalizing a m with
  | nil =>
    cases m with
    | nil => rfl
    | cons d m =>
      have hb : next a = b := (List.isChain_cons_cons.mp h).1
      have hd : next a = d := (List.isChain_cons_cons.mp h').1
      exact absurd (hb.symm.trans hd ▸ List.mem_cons_self) hm
  | cons c l ih =>
    obtain ⟨hc, hrest⟩ := List.isChain_cons_cons.mp h
    cases m with
    | nil =>
      have hb : next a = b := (List.isChain_cons_cons.mp h').1
      exact absurd (hb.symm.trans hc ▸ List.mem_cons_self) hl
    | cons d m =>
      obtain ⟨hd, hrest'⟩ := List.isChain_cons_cons.mp h'
      obtain rfl : c = d := hc.symm.trans hd
      rw [List.mem_cons, not_or] at hl hm
      rw [ih hrest hrest' hl.2 hm.2]

/-- The links determine the ring up to its last cell. -/
theorem Ring.eq_of_concat (h : Ring next (l ++ [p])) (h' : Ring next (m ++ [p])) : l = m := by
  obtain ⟨hnodup, hchain⟩ := ring_concat_iff.mp h
  obtain ⟨hnodup', hchain'⟩ := ring_concat_iff.mp h'
  rw [← List.concat_eq_append] at hnodup hnodup'
  exact eq_of_isChain hchain hchain' ((List.nodup_concat l p).mp hnodup).1
    ((List.nodup_concat m p).mp hnodup').1

/-- The links determine the ring, up to where it is entered. -/
theorem Ring.isRotated (h : Ring next l) (h' : Ring next m) (ha : a ∈ l) (ha' : a ∈ m) :
    l ~r m := by
  obtain ⟨l₁, l₂, rfl⟩ := List.append_of_mem ha
  obtain ⟨m₁, m₂, rfl⟩ := List.append_of_mem ha'
  -- both rings up to the same cell
  have hrot : Ring next (l₂ ++ l₁ ++ [a]) := by
    rw [List.append_assoc]
    refine Ring.rotate ?_
    rwa [List.append_assoc]
  have hrot' : Ring next (m₂ ++ m₁ ++ [a]) := by
    rw [List.append_assoc]
    refine Ring.rotate ?_
    rwa [List.append_assoc]
  have heq := hrot.eq_of_concat hrot'
  have hrotated : ∀ k₁ k₂ : List α, k₁ ++ a :: k₂ ~r k₂ ++ k₁ ++ [a] := by
    intro k₁ k₂
    have happend : (k₁ ++ [a]) ++ k₂ ~r k₂ ++ (k₁ ++ [a]) := List.isRotated_append
    rwa [List.append_assoc, List.singleton_append, ← List.append_assoc] at happend
  exact (hrotated l₁ l₂).trans (heq ▸ (hrotated m₁ m₂).symm)

/-- Leaving out cells does not change the order of the others around a ring. -/
theorem isRotated_filter (q : α → Bool) (h : l ~r m) : l.filter q ~r m.filter q := by
  obtain ⟨n, rfl⟩ := h
  rw [List.rotate_eq_drop_append_take_mod, List.filter_append]
  have hsplit : l.filter q = (l.take (n % l.length)).filter q ++ (l.drop (n % l.length)).filter q := by
    rw [← List.filter_append, List.take_append_drop]
  rw [hsplit]
  exact List.isRotated_append

/-! ### Ordered lists -/

section Ordered

variable {R : α → α → Prop} {q : α → Prop}

/-- A list in order splits at any lower part of the order. -/
theorem exists_split (h : l.Pairwise R) (hdown : ∀ a b, R a b → q b → q a) :
    ∃ l₁ l₂, l = l₁ ++ l₂ ∧ (∀ a ∈ l₁, q a) ∧ ∀ b ∈ l₂, ¬ q b := by
  induction l with
  | nil => exact ⟨[], [], rfl, by simp, by simp⟩
  | cons a l ih =>
    obtain ⟨hhead, htail⟩ := List.pairwise_cons.mp h
    by_cases ha : q a
    · obtain ⟨l₁, l₂, rfl, h₁, h₂⟩ := ih htail
      refine ⟨a :: l₁, l₂, rfl, fun b hb => ?_, h₂⟩
      rcases List.mem_cons.mp hb with rfl | hb
      · exact ha
      · exact h₁ b hb
    · refine ⟨[], a :: l, rfl, by simp, fun b hb hq => ?_⟩
      rcases List.mem_cons.mp hb with rfl | hb
      · exact ha hq
      · exact ha (hdown a b (hhead b hb) hq)

/-- A new element between two parts of a list in order. -/
theorem pairwise_insert (h : (l ++ m).Pairwise R) (hl : ∀ a ∈ l, R a x) (hm : ∀ b ∈ m, R x b) :
    (l ++ x :: m).Pairwise R := by
  obtain ⟨hleft, hright, hboth⟩ := List.pairwise_append.mp h
  refine List.pairwise_append.mpr ⟨hleft, List.pairwise_cons.mpr ⟨hm, hright⟩, ?_⟩
  intro a ha b hb
  rcases List.mem_cons.mp hb with rfl | hb
  · exact hl a ha
  · exact hboth a ha b hb

end Ordered

/-! ### Searching a ring -/

section Seek

variable {stop : α → Prop} [DecidablePred stop] {turns turns' : ℕ}

/-- The first cell from `a` on that meets a test, if a number of turns is enough to find it. -/
def seek (next : α → α) (stop : α → Prop) [DecidablePred stop] : ℕ → α → Option α
  | 0, _ => none
  | turns + 1, a => if stop a then some a else seek next stop turns (next a)

/-- More turns find the same cell. -/
theorem seek_mono (hle : turns ≤ turns') (h : seek next stop turns a = some b) :
    seek next stop turns' a = some b := by
  induction turns generalizing turns' a with
  | zero => cases h
  | succ turns ih =>
    obtain ⟨rest, rfl⟩ := Nat.exists_eq_add_of_le' hle
    rw [← Nat.add_assoc, seek]
    rw [seek] at h
    split_ifs at h ⊢ with hstop
    · exact h
    · exact ih (Nat.le_add_left turns rest) h

/-- A turn for each cell of a list of links. -/
theorem seek_of_isChain (hchain : List.IsChain (fun a b => next a = b) (a :: l))
    (hb : b ∈ a :: l) (hstop : stop b) (hturns : (a :: l).length ≤ turns) :
    ∃ c ∈ a :: l, stop c ∧ seek next stop turns a = some c := by
  induction l generalizing a turns with
  | nil =>
    obtain ⟨turns, rfl⟩ := Nat.exists_eq_add_of_le' hturns
    rw [List.mem_singleton.mp hb] at hstop
    exact ⟨a, List.mem_cons_self, hstop, if_pos hstop⟩
  | cons d l ih =>
    obtain ⟨turns, rfl⟩ : ∃ t, turns = t + 1 := ⟨turns - 1, by rw [List.length_cons] at hturns; omega⟩
    by_cases ha : stop a
    · exact ⟨a, List.mem_cons_self, ha, if_pos ha⟩
    · obtain ⟨had, hrest⟩ := List.isChain_cons_cons.mp hchain
      have hb' : b ∈ d :: l := by
        rcases List.mem_cons.mp hb with rfl | hb
        · exact absurd hstop ha
        · exact hb
      obtain ⟨c, hc, hstopc, hseek⟩ := ih hrest hb' (by simpa using hturns)
      exact ⟨c, List.mem_cons_of_mem a hc, hstopc, by rw [seek, if_neg ha, had, hseek]⟩

/-- A search of a ring for a cell that it has. -/
theorem Ring.seek (h : Ring next l) (ha : a ∈ l) (hb : b ∈ l) (hstop : stop b)
    (hturns : l.length ≤ turns) :
    ∃ c ∈ l, stop c ∧ CircularList.seek next stop turns a = some c := by
  obtain ⟨l₁, l₂, rfl⟩ := List.append_of_mem ha
  have hchain := (Ring.rotate (l := l₁) h).chain
  rw [List.cons_append, Cycle.chain_coe_cons, ← List.cons_append] at hchain
  have hmem : ∀ {c : α}, c ∈ l₁ ++ a :: l₂ ↔ c ∈ a :: (l₂ ++ l₁) := by
    intro c
    simp only [List.mem_append, List.mem_cons]
    tauto
  have hlength : (a :: (l₂ ++ l₁)).length ≤ turns := by
    rw [List.length_append, List.length_cons] at hturns
    rw [List.length_cons, List.length_append]
    omega
  obtain ⟨c, hc, hstopc, hseek⟩ :=
    seek_of_isChain hchain.left_of_append (hmem.mp hb) hstop hlength
  exact ⟨c, hmem.mpr hc, hstopc, hseek⟩

end Seek

end CircularList

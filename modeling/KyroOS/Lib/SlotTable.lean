import Mathlib.Data.Finmap
import Mathlib.Data.Fintype.Card

/-!
# Tables of slots

A table has a fixed number of slots, each of which is free or holds a key with a value. While no key
stands in two slots, such a table is a finite map with a bound on the number of its keys.

## Main definitions

* `SlotTable.Represents` — the map that a table stands for

## Main results

* `Represents.insert`, `Represents.replace`, `Represents.erase` — what the map becomes when one slot
  is filled, filled anew, and freed
* `Represents.card_keys`, `Represents.full_iff` — the keys are as many as the slots that are used
-/

namespace SlotTable

variable {ι κ β : Type*} [DecidableEq κ] {slots : ι → Option (κ × β)} {m : Finmap fun _ : κ => β}
  {i : ι} {k : κ} {v w : β}

/-- No key stands in two slots, and the map has the keys and the values of the slots. -/
structure Represents (slots : ι → Option (κ × β)) (m : Finmap fun _ : κ => β) : Prop where
  distinct : ∀ i j k v w, slots i = some (k, v) → slots j = some (k, w) → i = j
  lookup : ∀ k v, m.lookup k = some v ↔ ∃ i, slots i = some (k, v)

/-- A table without keys is the empty map. -/
theorem represents_empty (h : ∀ i, slots i = none) : Represents slots ∅ where
  distinct := by
    intro i j k v w hi
    rw [h i] at hi
    cases hi
  lookup := by
    intro k v
    rw [Finmap.lookup_empty]
    constructor
    · intro hv
      cases hv
    · rintro ⟨i, hi⟩
      rw [h i] at hi
      cases hi

namespace Represents

/-- The value under the key of a slot. -/
theorem lookup_of_slot (h : Represents slots m) (hi : slots i = some (k, v)) :
    m.lookup k = some v :=
  (h.lookup k v).mpr ⟨i, hi⟩

/-- A key that is not in the map stands in no slot. -/
theorem lookup_eq_none_iff (h : Represents slots m) :
    m.lookup k = none ↔ ∀ i v, slots i ≠ some (k, v) := by
  rw [Option.eq_none_iff_forall_ne_some]
  constructor
  · exact fun hnone i v hi => hnone v (h.lookup_of_slot hi)
  · intro hall v hv
    obtain ⟨i, hi⟩ := (h.lookup k v).mp hv
    exact hall i v hi

section Update

variable [DecidableEq ι]

/-- A slot is filled with a key that no other slot has. -/
theorem set (h : Represents slots m) (hother : ∀ j w, j ≠ i → slots j ≠ some (k, w))
    (hold : ∀ k' w, slots i = some (k', w) → k' = k) :
    Represents (Function.update slots i (some (k, v))) (m.insert k v) where
  distinct := by
    intro j j' k' w w' hj hj'
    rw [Function.update_apply] at hj hj'
    split_ifs at hj hj' with hji hji' hji'
    · rw [hji, hji']
    · obtain ⟨rfl, -⟩ := Prod.mk.inj (Option.some.inj hj)
      exact absurd hj' (hother j' w' hji')
    · obtain ⟨rfl, -⟩ := Prod.mk.inj (Option.some.inj hj')
      exact absurd hj (hother j w hji)
    · exact h.distinct j j' k' w w' hj hj'
  lookup := by
    intro k' w
    by_cases hk : k' = k
    · rw [hk, Finmap.lookup_insert]
      constructor
      · intro hw
        obtain rfl := Option.some.inj hw
        exact ⟨i, Function.update_self ..⟩
      · rintro ⟨j, hj⟩
        rw [Function.update_apply] at hj
        split_ifs at hj with hji
        · rw [(Prod.mk.inj (Option.some.inj hj)).2]
        · exact absurd hj (hother j w hji)
    · rw [Finmap.lookup_insert_of_ne m hk, h.lookup]
      -- the other keys stand where they stood
      apply exists_congr
      intro j
      rw [Function.update_apply]
      split_ifs with hji
      · rw [hji]
        constructor
        · exact fun hj => absurd (hold k' w hj) hk
        · exact fun hj => absurd (Prod.mk.inj (Option.some.inj hj)).1.symm hk
      · exact Iff.rfl

/-- A free slot is filled with a new key. -/
theorem insert (h : Represents slots m) (hi : slots i = none) (hk : m.lookup k = none) :
    Represents (Function.update slots i (some (k, v))) (m.insert k v) := by
  apply h.set
  · exact fun j w _ => h.lookup_eq_none_iff.mp hk j w
  · intro k' w hw
    rw [hi] at hw
    cases hw

/-- The slot of a key is filled with another value. -/
theorem replace (h : Represents slots m) (hi : slots i = some (k, w)) :
    Represents (Function.update slots i (some (k, v))) (m.insert k v) := by
  apply h.set
  · exact fun j w' hj hw' => hj (h.distinct j i k w' w hw' hi)
  · intro k' w' hw'
    rw [hi] at hw'
    exact (Prod.mk.inj (Option.some.inj hw')).1.symm

/-- The slot of a key is freed. -/
theorem erase (h : Represents slots m) (hi : slots i = some (k, w)) :
    Represents (Function.update slots i none) (m.erase k) where
  distinct := by
    intro j j' k' v v' hj hj'
    rw [Function.update_apply] at hj hj'
    split_ifs at hj hj'
    exact h.distinct j j' k' v v' hj hj'
  lookup := by
    intro k' v
    by_cases hk : k' = k
    · rw [hk, Finmap.lookup_erase]
      constructor
      · intro hv
        cases hv
      · rintro ⟨j, hj⟩
        rw [Function.update_apply] at hj
        split_ifs at hj with hji
        exact absurd (h.distinct j i k v w hj hi) hji
    · rw [Finmap.lookup_erase_ne hk, h.lookup]
      apply exists_congr
      intro j
      rw [Function.update_apply]
      split_ifs with hji
      · rw [hji, hi]
        constructor
        · exact fun hj => absurd (Prod.mk.inj (Option.some.inj hj)).1.symm hk
        · intro hj
          cases hj
      · exact Iff.rfl

end Update

section Count

variable [Fintype ι]

/-- The keys are as many as the slots that are used. -/
theorem card_keys (h : Represents slots m) :
    m.keys.card = (Finset.univ.filter fun i => (slots i).isSome = true).card := by
  symm
  apply Finset.card_bij fun i hi => ((slots i).get (Finset.mem_filter.mp hi).2).1
  · intro i hi
    have hslot := Option.some_get (Finset.mem_filter.mp hi).2
    exact Finmap.mem_keys.mpr (Finmap.mem_iff.mpr ⟨_, h.lookup_of_slot hslot.symm⟩)
  · intro i hi j hj hkey
    obtain ⟨⟨k, v⟩, hslot⟩ := Option.isSome_iff_exists.mp (Finset.mem_filter.mp hi).2
    obtain ⟨⟨l, w⟩, hslot'⟩ := Option.isSome_iff_exists.mp (Finset.mem_filter.mp hj).2
    obtain rfl : k = l := by simpa [hslot, hslot'] using hkey
    exact h.distinct i j k v w hslot hslot'
  · intro k hk
    obtain ⟨v, hv⟩ := Finmap.mem_iff.mp (Finmap.mem_keys.mp hk)
    obtain ⟨i, hi⟩ := (h.lookup k v).mp hv
    refine ⟨i, Finset.mem_filter.mpr ⟨Finset.mem_univ i, by rw [hi]; rfl⟩, ?_⟩
    simp [hi]

/-- The map has as many keys as there are slots just when none is free. -/
theorem full_iff (h : Represents slots m) :
    Fintype.card ι ≤ m.keys.card ↔ ∀ i, slots i ≠ none := by
  rw [h.card_keys]
  constructor
  · intro hcard i
    have hall := Finset.eq_univ_of_card _ (le_antisymm (Finset.card_le_univ _) hcard)
    have hi := Finset.mem_univ i
    rw [← hall] at hi
    exact Option.isSome_iff_ne_none.mp (Finset.mem_filter.mp hi).2
  · intro hall
    rw [Finset.filter_true_of_mem fun i _ => Option.isSome_iff_ne_none.mpr (hall i)]
    exact le_rfl

end Count

end Represents

end SlotTable

import Mathlib.Data.Set.Insert
import Mathlib.Logic.Function.Basic

/-!
# Slots that hold resources

Each slot holds one resource or none. A resource that is in use is held by one slot, so whoever
lets go of the slot has to give the resource back; otherwise it stays in use, and nobody can.

## Main definitions

* `Exclusive` — slots hold resources in use, each for itself
* `Covered` — no resource in use was let go of

## Main results

* `Exclusive.acquire`, `Covered.acquire` — a new resource in an empty slot
* `Exclusive.release`, `Covered.release` — a resource is given back
* `Exclusive.drop`, `covered_drop_iff` — slots are emptied and nothing is given back
-/

namespace Custody

variable {ι α : Type*}

/-- What slots hold is in use, and no two slots hold the same. -/
structure Exclusive (slots : ι → Option α) (used : Set α) : Prop where
  used : ∀ i a, slots i = some a → a ∈ used
  alone : ∀ i j a, slots i = some a → slots j = some a → i = j

/-- Every resource in use is held by a slot. -/
def Covered (slots : ι → Option α) (used : Set α) : Prop := ∀ a ∈ used, ∃ i, slots i = some a

variable {slots slots' : ι → Option α} {used : Set α} {i j : ι} {a b : α}

section Update

variable [DecidableEq ι]

theorem update_eq_some (h : Function.update slots i (some a) j = some b) :
    j = i ∧ b = a ∨ j ≠ i ∧ slots j = some b := by
  by_cases hj : j = i
  · subst hj
    rw [Function.update_self] at h
    exact .inl ⟨rfl, (Option.some.inj h).symm⟩
  · rw [Function.update_of_ne hj] at h
    exact .inr ⟨hj, h⟩

theorem update_none_eq_some (h : Function.update slots i none j = some b) :
    j ≠ i ∧ slots j = some b := by
  by_cases hj : j = i
  · subst hj
    rw [Function.update_self] at h
    cases h
  · rw [Function.update_of_ne hj] at h
    exact ⟨hj, h⟩

/-- A slot takes a resource that was not in use. -/
theorem Exclusive.acquire (h : Exclusive slots used) (ha : a ∉ used) :
    Exclusive (Function.update slots i (some a)) (insert a used) where
  used := by
    intro j b hb
    rcases update_eq_some hb with ⟨-, rfl⟩ | ⟨-, hb⟩
    · exact Set.mem_insert b used
    · exact Set.mem_insert_of_mem a (h.used j b hb)
  alone := by
    intro j j' b hb hb'
    rcases update_eq_some hb with ⟨rfl, rfl⟩ | ⟨-, hold⟩
    · rcases update_eq_some hb' with ⟨rfl, -⟩ | ⟨-, hold'⟩
      · rfl
      · exact absurd (h.used j' b hold') ha
    · rcases update_eq_some hb' with ⟨-, rfl⟩ | ⟨-, hold'⟩
      · exact absurd (h.used j b hold) ha
      · exact h.alone j j' b hold hold'

theorem Covered.acquire (h : Covered slots used) (hi : slots i = none) :
    Covered (Function.update slots i (some a)) (insert a used) := by
  intro b hb
  rcases Set.mem_insert_iff.mp hb with rfl | hb
  · exact ⟨i, Function.update_self i _ slots⟩
  · obtain ⟨j, hj⟩ := h b hb
    refine ⟨j, ?_⟩
    rw [Function.update_of_ne, hj]
    rintro rfl
    exact Option.some_ne_none b (hj.symm.trans hi)

/-- The resource of a slot is given back. -/
theorem Exclusive.release (h : Exclusive slots used) (hi : slots i = some a) :
    Exclusive (Function.update slots i none) (used \ {a}) where
  used := by
    intro j b hb
    obtain ⟨hj, hb⟩ := update_none_eq_some hb
    refine ⟨h.used j b hb, fun hba => hj (h.alone j i a ?_ hi)⟩
    rwa [← Set.mem_singleton_iff.mp hba]
  alone := fun j j' b hb hb' =>
    h.alone j j' b (update_none_eq_some hb).2 (update_none_eq_some hb').2

theorem Covered.release (h : Covered slots used) (hi : slots i = some a) :
    Covered (Function.update slots i none) (used \ {a}) := by
  rintro b ⟨hb, hne⟩
  obtain ⟨j, hj⟩ := h b hb
  refine ⟨j, ?_⟩
  rw [Function.update_of_ne, hj]
  rintro rfl
  exact hne (Option.some.inj (hj.symm.trans hi))

end Update

/-- Slots are emptied. -/
theorem Exclusive.drop (h : Exclusive slots used)
    (hdrop : ∀ i a, slots' i = some a → slots i = some a) : Exclusive slots' used where
  used := fun i a ha => h.used i a (hdrop i a ha)
  alone := fun i j a ha hb => h.alone i j a (hdrop i a ha) (hdrop j a hb)

/-- When slots are emptied, everything in use is still held exactly when they were empty. -/
theorem covered_drop_iff (h : Exclusive slots used) (hcovered : Covered slots used)
    (hdrop : ∀ i a, slots' i = some a → slots i = some a) :
    Covered slots' used ↔ ∀ i a, slots i = some a → slots' i = some a := by
  constructor
  · intro hcovered' i a ha
    obtain ⟨j, hj⟩ := hcovered' a (h.used i a ha)
    rwa [h.alone i j a ha (hdrop j a hj)]
  · intro hkept a ha
    obtain ⟨i, hi⟩ := hcovered a ha
    exact ⟨i, hkept i a hi⟩

end Custody

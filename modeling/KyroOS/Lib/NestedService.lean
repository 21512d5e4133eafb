import Mathlib.Data.Finset.Max
import Mathlib.Data.List.Sort

/-!
# Levels in service

Requests of an ordered set of levels are served one inside the other: a level is served only when it
comes before all levels in service. Whoever finishes takes out the first level in service, without
saying which one that is.

## Main definitions

* `Open` — a level may be served
* `serve`, `finish` — a level goes into service, and the first one out of it
* `Nested` — the levels in service, the latest first

## Main results

* `card_serve`, `card_finish` — how many levels are in service
* `finish_serve` — the level that was served last is the one that is taken out
* `Nested.serve`, `Nested.finish` — services that end in the opposite order of their beginning
-/

namespace NestedService

variable {α : Type*} [LinearOrder α] {s : Finset α} {a : α} {l : List α}

/-- A level before all that are in service. -/
def Open (s : Finset α) (a : α) : Prop := ∀ b ∈ s, a < b

instance (s : Finset α) (a : α) : Decidable (Open s a) :=
  inferInstanceAs (Decidable (∀ b ∈ s, a < b))

/-- A level goes into service. -/
def serve (s : Finset α) (a : α) : Finset α := insert a s

/-- The first level in service is taken out. -/
def finish (s : Finset α) : Finset α := if h : s.Nonempty then s.erase (s.min' h) else s

theorem open_empty (a : α) : Open ∅ a := by simp [Open]

theorem Open.notMem (h : Open s a) : a ∉ s := fun ha => lt_irrefl a (h a ha)

/-- One level more is in service. -/
theorem card_serve (h : Open s a) : (serve s a).card = s.card + 1 :=
  Finset.card_insert_of_notMem h.notMem

/-- One level less is in service, if there was one. -/
theorem card_finish (s : Finset α) : (finish s).card = s.card - 1 := by
  rw [finish]
  by_cases h : s.Nonempty
  · rw [dif_pos h, Finset.card_erase_of_mem (s.min'_mem h)]
  · rw [dif_neg h, Finset.not_nonempty_iff_eq_empty.mp h]
    simp

/-- The first level is the one that was served last. -/
theorem finish_serve (h : Open s a) : finish (serve s a) = s := by
  have hne : (serve s a).Nonempty := Finset.insert_nonempty a s
  have hmin : (serve s a).min' hne = a := by
    apply le_antisymm
    · exact Finset.min'_le _ a (Finset.mem_insert_self a s)
    · refine Finset.le_min' _ hne a fun b hb => ?_
      obtain rfl | hb := Finset.mem_insert.mp hb
      · exact le_refl b
      · exact (h b hb).le
  rw [finish, dif_pos hne, hmin]
  exact Finset.erase_insert h.notMem

/-- The levels in service are those of a list, each before all that were served earlier. -/
structure Nested (s : Finset α) (l : List α) : Prop where
  sorted : l.Pairwise (· < ·)
  mem : ∀ a, a ∈ s ↔ a ∈ l

theorem Nested.nil : Nested (∅ : Finset α) [] := ⟨.nil, by simp⟩

/-- A level is served inside the others. -/
theorem Nested.serve (h : Nested s l) (ha : Open s a) : Nested (serve s a) (a :: l) where
  sorted := List.pairwise_cons.mpr ⟨fun b hb => ha b ((h.mem b).mpr hb), h.sorted⟩
  mem b := by
    rw [NestedService.serve, Finset.mem_insert, List.mem_cons, h.mem]

theorem Nested.open_erase (h : Nested s (a :: l)) : Open (s.erase a) a := by
  intro b hb
  obtain ⟨hne, hb⟩ := Finset.mem_erase.mp hb
  obtain rfl | hb := List.mem_cons.mp ((h.mem b).mp hb)
  · exact absurd rfl hne
  · exact List.rel_of_pairwise_cons h.sorted hb

/-- The level that is taken out is the one that was served last. -/
theorem Nested.finish_eq (h : Nested s (a :: l)) : NestedService.finish s = s.erase a := by
  have ha : a ∈ s := (h.mem a).mpr List.mem_cons_self
  rw [← finish_serve h.open_erase, NestedService.serve, Finset.insert_erase ha]

/-- The service that began last ends. -/
theorem Nested.finish (h : Nested s (a :: l)) : Nested (finish s) l := by
  refine ⟨h.sorted.tail, fun b => ?_⟩
  rw [h.finish_eq, Finset.mem_erase, h.mem, List.mem_cons]
  constructor
  · rintro ⟨hne, rfl | hb⟩
    · exact absurd rfl hne
    · exact hb
  · intro hb
    exact ⟨(List.rel_of_pairwise_cons h.sorted hb).ne', .inr hb⟩

end NestedService

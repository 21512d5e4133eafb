import Mathlib.Data.List.Basic
import Mathlib.Tactic

/-!
# Caches with first-in first-out replacement

A cache of `n` places learns from announcements of a key with a value. A key that is in the cache
stays where it is and has its value replaced; another one takes the place of the key that was entered
first. What the cache holds is a function of the announcements, which are listed from the last one on.

## Main definitions

* `entered` — the keys in the order in which they were entered, the last one first
* `present` — the keys that are in the cache
* `latest` — the value that a key was last announced with
* `lookup` — what the cache answers

## Main results

* `nodup_present`, `pos_unique` — no key has two places
* `exists_latest` — a key that was entered was announced
-/

namespace FifoCache

variable {κ ν : Type*} [DecidableEq κ]

/-- The keys that were entered. -/
def entered (n : ℕ) : List (κ × ν) → List κ
  | [] => []
  | (k, _) :: history =>
    if k ∈ (entered n history).take n then entered n history else k :: entered n history

/-- The keys that are in the cache. -/
def present (n : ℕ) (history : List (κ × ν)) : List κ := (entered n history).take n

/-- The value of the last announcement of a key. -/
def latest (history : List (κ × ν)) (k : κ) : Option ν :=
  (history.find? fun a => a.1 = k).map Prod.snd

/-- The answer for a key. -/
def lookup (n : ℕ) (history : List (κ × ν)) (k : κ) : Option ν :=
  if k ∈ present n history then latest history k else none

variable {n : ℕ} {history : List (κ × ν)} {k k' : κ} {v : ν}

@[simp] theorem entered_nil : entered n ([] : List (κ × ν)) = [] := rfl

/-- A key that is in the cache is not entered again. -/
theorem entered_of_mem (h : k ∈ present n history) :
    entered n ((k, v) :: history) = entered n history := if_pos h

/-- Another key is. -/
theorem entered_of_notMem (h : k ∉ present n history) :
    entered n ((k, v) :: history) = k :: entered n history := if_neg h

@[simp] theorem latest_cons_self : latest ((k, v) :: history) k = some v := by
  simp [latest]

theorem latest_cons_of_ne (h : k' ≠ k) : latest ((k, v) :: history) k' = latest history k' := by
  simp [latest, h.symm]

/-- No key has two places. -/
theorem nodup_present (n : ℕ) (history : List (κ × ν)) : (present n history).Nodup := by
  induction history with
  | nil => simp [present]
  | cons a history ih =>
    obtain ⟨k, v⟩ := a
    by_cases hk : k ∈ present n history
    · rw [present, entered_of_mem hk]
      exact ih
    · rw [present, entered_of_notMem hk]
      cases n with
      | zero => simp
      | succ n =>
        -- the last place is given up
        have hsub : ((entered (n + 1) history).take n).Sublist (present (n + 1) history) :=
          List.take_sublist_take_left (Nat.le_succ n)
        rw [List.take_succ_cons, List.nodup_cons]
        exact ⟨fun hmem => hk (hsub.subset hmem), ih.sublist hsub⟩

theorem mem_present_iff :
    k ∈ present n history ↔ ∃ p < n, (entered n history)[p]? = some k := by
  rw [present, List.mem_iff_getElem?]
  refine exists_congr fun p => ?_
  rw [List.getElem?_take]
  split_ifs with hp <;> simp [hp]

/-- A key is in the cache once. -/
theorem pos_unique {p q : ℕ} (hp : p < n) (hq : q < n) (hpk : (entered n history)[p]? = some k)
    (hqk : (entered n history)[q]? = some k) : p = q := by
  have hat : ∀ j < n, (present n history)[j]? = (entered n history)[j]? := fun j hj =>
    List.getElem?_take_of_lt hj
  rw [← hat p hp] at hpk
  rw [← hat q hq] at hqk
  have hlt := (List.getElem?_eq_some_iff.mp hpk).1
  exact (List.getElem?_inj hlt (nodup_present n history)).mp (hpk.trans hqk.symm)

/-- A key that was entered was announced. -/
theorem exists_latest (h : k ∈ entered n history) : ∃ v, latest history k = some v := by
  induction history with
  | nil => cases h
  | cons a history ih =>
    obtain ⟨k', v⟩ := a
    by_cases hk : k = k'
    · rw [hk]
      exact ⟨v, latest_cons_self⟩
    · rw [latest_cons_of_ne hk]
      rw [entered] at h
      split_ifs at h
      · exact ih h
      · exact ih ((List.mem_cons.mp h).resolve_left hk)

end FifoCache

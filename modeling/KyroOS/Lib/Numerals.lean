import Mathlib.Data.Nat.Digits.Defs
import Mathlib.Data.Int.Notation

/-!
# Numerals

A number is written with the characters of an alphabet, highest digit first, behind as many zeros as
are asked for, and it is read back.

## Main definitions

* `Alphabet` — a character for each digit below a base
* `Alphabet.spell` — the numeral of a number
* `Alphabet.read`, `Alphabet.readSigned` — the number of a numeral, with a sign or without

## Main results

* `Alphabet.read_pad_spell` — a padded numeral is read back
* `Alphabet.readSigned_minus`, `Alphabet.readSigned_of_read` — with a sign in front and without one
-/

namespace Numerals

/-- A character for each digit below the base. -/
structure Alphabet (α : Type*) (base : ℕ) where
  char : ℕ → α
  digit : α → Option ℕ
  one_lt : 1 < base
  digit_char : ∀ k < base, digit (char k) = some k

namespace Alphabet

variable {α : Type*} {base : ℕ} (alphabet : Alphabet α base)

/-- The numeral of a number, highest digit first. -/
def spell (n : ℕ) : List α :=
  if n = 0 then [alphabet.char 0] else ((base.digits n).map alphabet.char).reverse

/-- The number of a numeral. -/
def read (text : List α) : Option ℕ :=
  if text.isEmpty then none
  else (text.reverse.mapM alphabet.digit).map (Nat.ofDigits base)

/-- The number of a numeral that may have a sign in front of it. -/
def readSigned [DecidableEq α] (minus : α) (text : List α) : Option ℤ :=
  if text.head? = some minus then (alphabet.read text.tail).map fun n => -(n : ℤ)
  else (alphabet.read text).map fun n => (n : ℤ)

/-- How many characters of a text are digits. -/
def digitCount (text : List α) : ℕ := text.countP fun c => (alphabet.digit c).isSome

variable {alphabet} {n k : ℕ} {text : List α}

theorem mapM_digit_map_char {ds : List ℕ} (hds : ∀ d ∈ ds, d < base) :
    (ds.map alphabet.char).mapM alphabet.digit = some ds := by
  induction ds with
  | nil => rfl
  | cons d ds ih =>
    have hd := alphabet.digit_char d (hds d (by simp))
    have hrest := ih fun e he => hds e (by simp [he])
    simp [hd, hrest]

/-- The digits behind a numeral of any length, lowest first. -/
theorem spell_eq_map (n : ℕ) :
    ∃ ds : List ℕ, ds ≠ [] ∧ (∀ d ∈ ds, d < base) ∧ Nat.ofDigits base ds = n ∧
      alphabet.spell n = (ds.map alphabet.char).reverse := by
  by_cases hn : n = 0
  · have hpos : 0 < base := by
      have := alphabet.one_lt
      omega
    exact ⟨[0], by simp, by simpa using hpos, by simp [hn], by simp [spell, hn]⟩
  · refine ⟨base.digits n, Nat.digits_ne_nil_iff_ne_zero.mpr hn, ?_, Nat.ofDigits_digits base n,
      by rw [spell, if_neg hn]⟩
    intro d hd
    exact Nat.digits_lt_base alphabet.one_lt hd

/-- A padded numeral is the numeral of more digits. -/
theorem pad_spell_eq_map (k n : ℕ) :
    ∃ ds : List ℕ, ds ≠ [] ∧ (∀ d ∈ ds, d < base) ∧ Nat.ofDigits base ds = n ∧
      List.replicate k (alphabet.char 0) ++ alphabet.spell n =
        (ds.map alphabet.char).reverse := by
  obtain ⟨ds, hne, hlt, hn, hspell⟩ := alphabet.spell_eq_map n
  refine ⟨ds ++ List.replicate k 0, by simp [hne], ?_, ?_, ?_⟩
  · intro d hd
    rcases List.mem_append.mp hd with hd | hd
    · exact hlt d hd
    · have := alphabet.one_lt
      rw [List.eq_of_mem_replicate hd]
      omega
  · rw [Nat.ofDigits_append_replicate_zero, hn]
  · rw [hspell]
    simp

/-- A padded numeral is read back. -/
theorem read_pad_spell (k n : ℕ) :
    alphabet.read (List.replicate k (alphabet.char 0) ++ alphabet.spell n) = some n := by
  obtain ⟨ds, hne, hlt, hn, hspell⟩ := alphabet.pad_spell_eq_map k n
  rw [hspell, read, if_neg (by simpa using hne), List.reverse_reverse, mapM_digit_map_char hlt]
  exact congrArg some hn

/-- All characters of a padded numeral are digits. -/
theorem digitCount_pad_spell (k n : ℕ) :
    alphabet.digitCount (List.replicate k (alphabet.char 0) ++ alphabet.spell n) =
      k + (alphabet.spell n).length := by
  obtain ⟨ds, -, hlt, -, hspell⟩ := alphabet.pad_spell_eq_map k n
  have hall : alphabet.digitCount (List.replicate k (alphabet.char 0) ++ alphabet.spell n) =
      (List.replicate k (alphabet.char 0) ++ alphabet.spell n).length := by
    rw [digitCount, List.countP_eq_length, hspell]
    intro c hc
    obtain ⟨d, hd, rfl⟩ := List.mem_map.mp (List.mem_reverse.mp hc)
    rw [alphabet.digit_char d (hlt d hd)]
    rfl
  rw [hall, List.length_append, List.length_replicate]

variable [DecidableEq α] (minus : α)

/-- Behind a sign the numeral counts downwards. -/
theorem readSigned_minus (h : alphabet.read text = some n) :
    alphabet.readSigned minus (minus :: text) = some (-(n : ℤ)) := by
  simp [readSigned, h]

/-- A numeral without a sign stands for itself. -/
theorem readSigned_of_read (hminus : alphabet.digit minus = none)
    (h : alphabet.read text = some n) : alphabet.readSigned minus text = some (n : ℤ) := by
  have hhead : text.head? ≠ some minus := by
    intro hhead
    obtain ⟨rest, rfl⟩ : ∃ rest, text = minus :: rest := by
      cases text with
      | nil => simp at hhead
      | cons c rest => exact ⟨rest, by simpa using hhead⟩
    rw [read] at h
    simp [List.mapM_append, hminus] at h
  rw [readSigned, if_neg hhead, h]
  rfl

end Alphabet

end Numerals

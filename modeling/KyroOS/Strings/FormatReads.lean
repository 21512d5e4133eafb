import KyroOS.Strings.Printf

/-!
# How far a format is read

A conversion that the end of the format cuts off takes the NUL for the character that selects it,
and `format` is moved behind it.

## Main definitions

* `Complete` — no conversion is cut off
* `ReadsWithin` — the call comes back and has read nothing behind the NUL

## Main results

* `turn_walked` — a turn walks over one character or one conversion of the format
* `readsWithin_iff` — nothing behind the NUL is read if and only if the format is complete
-/

namespace KyroOS.Strings

open Vfs (cstring)

/-- The text behind at most `k` characters of a kind. -/
def dropUpTo (p : Byte → Prop) [DecidablePred p] : ℕ → List Byte → List Byte
  | k + 1, c :: rest => if p c then dropUpTo p k rest else c :: rest
  | _, text => text

/-- The text behind a padding: a zero with up to two digits. -/
def dropPadding : List Byte → List Byte
  | c :: rest => if c = byte '0' then dropUpTo IsDigit 2 rest else c :: rest
  | [] => []

/-- The text behind a padding and up to two `l`. -/
def dropFlags (text : List Byte) : List Byte := dropUpTo (· = byte 'l') 2 (dropPadding text)

/-- Behind the flags of each conversion there is a character that selects it. -/
inductive Complete : List Byte → Prop
  | nil : Complete []
  | plain {c : Byte} {rest : List Byte} : c ≠ byte '%' → Complete rest → Complete (c :: rest)
  | conversion {flags rest : List Byte} {c : Byte} :
      dropFlags flags = c :: rest → Complete rest → Complete (byte '%' :: flags)

/-- The call comes back, and it has read nothing behind the position `n`. -/
def ReadsWithin (fmt : ℕ → Byte) (args : VaList) (n : ℕ) : Prop :=
  ∃ turns r, vksprintf fmt args turns = .ok r ∧ ∀ k ∈ r.1.reads, k ≤ n

/-- The walk over at most `k` characters of a kind. -/
def scanUpTo (fmt : ℕ → Byte) (p : Byte → Prop) [DecidablePred p] : ℕ → Sprintf → Sprintf
  | 0, s => s
  | k + 1, s => if p (fmt s.format) then scanUpTo fmt p k s.read.next else s.read

/-- The format has been walked from one text to another, and only what lies between them read. -/
structure Walked (fmt : ℕ → Byte) (s s' : Sprintf) (text rest : List Byte) : Prop where
  spells : Spells fmt s'.format rest
  format : s'.format + rest.length = s.format + text.length
  le : s.format ≤ s'.format
  reads : ∀ k ∈ s'.reads, k ∈ s.reads ∨ k ≤ s'.format

variable {fmt : ℕ → Byte} {args : VaList} {s s' s'' : Sprintf} {c : Byte}
  {text text' rest flags : List Byte}

namespace Walked

/-- The character at the position is looked at. -/
theorem look (h : Spells fmt s.format text) : Walked fmt s s.read text text where
  spells := h
  format := rfl
  le := Nat.le_refl _
  reads := by
    intro k hk
    rcases List.mem_cons.mp hk with rfl | hk
    · exact .inr (Nat.le_refl _)
    · exact .inl hk

/-- The walk goes on to the next character. -/
theorem step (h : Spells fmt s.format (c :: rest)) :
    Walked fmt s s.read.next (c :: rest) rest where
  spells := h.2.2
  format := by
    rw [Sprintf.next_format, Sprintf.read_format, List.length_cons]
    omega
  le := Nat.le_succ _
  reads := by
    intro k hk
    rcases (look h).reads k hk with hk | hk
    · exact .inl hk
    · exact .inr (Nat.le_succ_of_le hk)

theorem trans (h : Walked fmt s s' text text') (h' : Walked fmt s' s'' text' rest) :
    Walked fmt s s'' text rest where
  spells := h'.spells
  format := h'.format.trans h.format
  le := h.le.trans h'.le
  reads := by
    intro k hk
    rcases h'.reads k hk with hk | hk
    · exact (h.reads k hk).imp_right fun hle => hle.trans h'.le
    · exact .inr hk

/-- What has been written does not matter. -/
theorem congr (h : Walked fmt s s' text rest) (hformat : s''.format = s'.format)
    (hreads : ∀ k ∈ s''.reads, k ∈ s'.reads ∨ k ≤ s'.format) :
    Walked fmt s s'' text rest where
  spells := hformat ▸ h.spells
  format := hformat ▸ h.format
  le := hformat ▸ h.le
  reads := by
    intro k hk
    rw [hformat]
    rcases hreads k hk with hk | hk
    · exact h.reads k hk
    · exact .inr hk

end Walked

/-- A walk over characters of a kind ends where the text behind them starts. -/
theorem scanUpTo_walked {p : Byte → Prop} [DecidablePred p] (hp : ¬p 0) (k : ℕ)
    (h : Spells fmt s.format text) :
    Walked fmt s (scanUpTo fmt p k s) text (dropUpTo p k text) := by
  induction k generalizing s text with
  | zero =>
    rw [scanUpTo, dropUpTo.eq_def]
    exact ⟨h, rfl, Nat.le_refl _, fun k hk => .inl hk⟩
  | succ k ih =>
    cases text with
    | nil =>
      have hnul : fmt s.format = 0 := h
      rw [scanUpTo, hnul, if_neg hp, dropUpTo.eq_def]
      exact Walked.look h
    | cons c rest =>
      rw [scanUpTo, h.1, dropUpTo]
      by_cases hc : p c
      · rw [if_pos hc, if_pos hc]
        exact (Walked.step h).trans (ih h.2.2)
      · rw [if_neg hc, if_neg hc]
        exact Walked.look h

/-- Behind its zero a padding is a walk over digits. -/
theorem scanPadding_eq_scanUpTo (s : Sprintf) :
    (scanPadding fmt s).2 =
      if fmt s.format = byte '0' then scanUpTo fmt IsDigit 2 s.read.next else s.read := by
  unfold scanPadding
  simp only [scanUpTo]
  split_ifs <;> rfl

/-- The length modifiers are a walk over the letter `l`. -/
theorem scanLength_eq_scanUpTo (s : Sprintf) :
    (scanLength fmt s).2 = scanUpTo fmt (· = byte 'l') 2 s := by
  unfold scanLength
  simp only [scanUpTo]
  split_ifs <;> rfl

theorem scanPadding_walked (h : Spells fmt s.format text) :
    Walked fmt s (scanPadding fmt s).2 text (dropPadding text) := by
  rw [scanPadding_eq_scanUpTo]
  cases text with
  | nil =>
    have hnul : fmt s.format = 0 := h
    rw [hnul, if_neg (by decide)]
    exact Walked.look h
  | cons c rest =>
    rw [h.1, dropPadding]
    by_cases hzero : c = byte '0'
    · rw [if_pos hzero, if_pos hzero]
      exact (Walked.step h).trans (scanUpTo_walked (by decide) 2 h.2.2)
    · rw [if_neg hzero, if_neg hzero]
      exact Walked.look h

/-- The flags are walked over. -/
theorem scanFlags_walked (h : Spells fmt s.format text) :
    Walked fmt s (scanLength fmt (scanPadding fmt s).2).2 text (dropFlags text) := by
  have hpadding := scanPadding_walked h
  rw [scanLength_eq_scanUpTo]
  exact hpadding.trans (scanUpTo_walked (by decide) 2 hpadding.spells)

/-- A turn walks over a character that is no percent sign. -/
theorem turn_plain (args : VaList) (h : Spells fmt s.format (c :: rest)) (hc : c ≠ byte '%') :
    Walked fmt s (turn fmt args s.read) (c :: rest) rest := by
  have hne : fmt s.read.format ≠ byte '%' := by
    rw [Sprintf.read_format, h.1]
    exact hc
  rw [turn, if_neg hne]
  refine (Walked.step h).congr rfl ?_
  intro k hk
  simp only [Sprintf.next_reads, Sprintf.put_reads, Sprintf.read_reads, Sprintf.read_format,
    List.mem_cons] at hk ⊢
  tauto

/-- What the `switch` is left with, and what it leaves. -/
theorem turn_percent (args : VaList) (h : Spells fmt s.format (byte '%' :: flags)) :
    ∃ s', Walked fmt s s' (byte '%' :: flags) (dropFlags flags) ∧
      (turn fmt args s.read).format = s'.format + 1 ∧
      (turn fmt args s.read).reads = s'.format :: s'.reads := by
  have heq : fmt s.read.format = byte '%' := h.1
  have hstart : Walked fmt s s.read.read.next (byte '%' :: flags) flags :=
    ((Walked.look h).trans (Walked.step h))
  refine ⟨_, hstart.trans (scanFlags_walked hstart.spells), ?_, ?_⟩
  · rw [turn, if_pos heq, Sprintf.next_format, convert_format]
  · rw [turn, if_pos heq, Sprintf.next_reads, convert_reads]

/-- A turn walks over a conversion that is not cut off. -/
theorem turn_conversion (args : VaList) (h : Spells fmt s.format (byte '%' :: flags))
    (hflags : dropFlags flags = c :: rest) :
    Walked fmt s (turn fmt args s.read) (byte '%' :: flags) rest := by
  obtain ⟨s', hwalked, hformat, hreads⟩ := turn_percent args h
  rw [hflags] at hwalked
  refine (hwalked.trans (Walked.step hwalked.spells)).congr hformat ?_
  intro k hk
  rw [hreads] at hk
  exact .inl hk

/-- One that is cut off takes the walk behind the NUL. -/
theorem turn_cutOff (h : Spells fmt s.format (byte '%' :: flags)) (hflags : dropFlags flags = []) :
    (turn fmt args s.read).format = s.format + (byte '%' :: flags).length + 1 := by
  obtain ⟨s', hwalked, hformat, -⟩ := turn_percent args h
  rw [hformat, ← hwalked.format, hflags, List.length_nil, Nat.add_zero]

/-- In front of the NUL the loop takes another turn. -/
theorem loop_succ (hne : fmt s.format ≠ 0) (turns : ℕ) :
    loop fmt args s (turns + 1) = loop fmt args (turn fmt args s.read) turns :=
  if_neg hne

/-- The loop ends, and nothing behind the position `n` has been read. -/
def EndsWithin (fmt : ℕ → Byte) (args : VaList) (s : Sprintf) (n : ℕ) : Prop :=
  ∃ turns r, loop fmt args s turns = .ok r ∧ ∀ k ∈ r.reads, k ≤ n

/-- One turn in front of a loop that ends. -/
theorem EndsWithin.turn {n : ℕ} (hne : fmt s.format ≠ 0)
    (hwalked : Walked fmt s (turn fmt args s.read) text rest) (hn : s.format + text.length = n)
    (hreads : ∀ k ∈ s.reads, k ≤ n)
    (ih : ∀ {s : Sprintf}, Spells fmt s.format rest → s.format + rest.length = n →
      (∀ k ∈ s.reads, k ≤ n) → EndsWithin fmt args s n) : EndsWithin fmt args s n := by
  have hformat := hwalked.format.trans hn
  have hwithin : ∀ k ∈ (Strings.turn fmt args s.read).reads, k ≤ n := by
    intro k hk
    rcases hwalked.reads k hk with hk | hle
    · exact hreads k hk
    · omega
  obtain ⟨turns, r, hloop, hr⟩ := ih hwalked.spells hformat hwithin
  exact ⟨turns + 1, r, (loop_succ hne turns).trans hloop, hr⟩

/-- The loop over a complete format ends at its NUL. -/
theorem endsWithin_of_complete {n : ℕ} (htext : Complete text) (h : Spells fmt s.format text)
    (hn : s.format + text.length = n) (hreads : ∀ k ∈ s.reads, k ≤ n) :
    EndsWithin fmt args s n := by
  induction htext generalizing s with
  | nil =>
    have hnul : fmt s.format = 0 := h
    refine ⟨1, s.read, if_pos hnul, ?_⟩
    intro k hk
    rcases List.mem_cons.mp hk with rfl | hk
    · exact Nat.le_of_eq hn
    · exact hreads k hk
  | plain hc _ ih => exact .turn (h.1.trans_ne h.2.1) (turn_plain _ h hc) hn hreads ih
  | conversion hflags _ ih =>
    exact .turn (h.1.trans_ne h.2.1) (turn_conversion _ h hflags) hn hreads ih

/-- A loop over a format that is cut off reads the character behind the NUL. -/
theorem mem_reads_of_cutOff {r : Sprintf} {turns n : ℕ} (htext : ¬Complete text)
    (h : Spells fmt s.format text) (hn : s.format + text.length = n)
    (hloop : loop fmt args s turns = .ok r) : n + 1 ∈ r.reads := by
  induction turns generalizing s text with
  | zero => cases hloop
  | succ turns ih =>
    cases text with
    | nil => exact absurd .nil htext
    | cons c rest =>
      rw [loop_succ (h.1.trans_ne h.2.1)] at hloop
      by_cases hc : c = byte '%'
      · subst hc
        cases hflags : dropFlags rest with
        | nil =>
          -- the next test of the loop is behind the NUL
          have hread := reads_subset_loop fmt args hloop (List.mem_cons_self ..)
          rwa [turn_cutOff h hflags, hn] at hread
        | cons d rest' =>
          have hwalked := turn_conversion args h hflags
          refine ih (fun hrest => htext (.conversion hflags hrest)) hwalked.spells ?_ hloop
          exact hwalked.format.trans hn
      · have hwalked := turn_plain args h hc
        refine ih (fun hrest => htext (.plain hc hrest)) hwalked.spells ?_ hloop
        exact hwalked.format.trans hn

/-- The call is its loop. -/
theorem readsWithin_iff_endsWithin {n : ℕ} :
    ReadsWithin fmt args n ↔ EndsWithin fmt args ⟨0, [], [], 0⟩ n := by
  constructor
  · rintro ⟨turns, r, hr, hreads⟩
    obtain ⟨s, hloop, hs⟩ := Outcome.bind_eq_ok.mp hr
    cases hs
    exact ⟨turns, s, hloop, hreads⟩
  · rintro ⟨turns, s, hloop, hreads⟩
    exact ⟨turns, _, Outcome.bind_eq_ok.mpr ⟨s, hloop, rfl⟩, hreads⟩

theorem not_readsWithin_of_cutOff (htext : ¬Complete text) (h : Spells fmt 0 text) :
    ¬ReadsWithin fmt args text.length := by
  rw [readsWithin_iff_endsWithin]
  rintro ⟨turns, r, hloop, hreads⟩
  have hbehind := hreads _ (mem_reads_of_cutOff htext h (Nat.zero_add _) hloop)
  omega

/-- Nothing behind the NUL of a format is read if and only if no conversion is cut off. -/
theorem readsWithin_iff (fmt : ℕ → Byte) (args : VaList) (text : List Byte)
    (h : Spells fmt 0 text) : ReadsWithin fmt args text.length ↔ Complete text := by
  constructor
  · intro hreads
    by_contra htext
    exact not_readsWithin_of_cutOff htext h hreads
  · intro htext
    rw [readsWithin_iff_endsWithin]
    exact endsWithin_of_complete htext h (Nat.zero_add _) (by simp)

/-- The format of a number with two digits. -/
theorem readsWithin_padded :
    ReadsWithin (fun i => (cstring ['%', '0', '2', 'd']).getD i 0) ⟨fun _ => 7, fun _ => []⟩
      (cstring ['%', '0', '2', 'd']).length ↔ Complete (cstring ['%', '0', '2', 'd']) :=
  readsWithin_iff _ _ _ (by decide)

/-- A percent sign at the end of a format is cut off. -/
theorem not_readsWithin_percent :
    ¬ReadsWithin (fun i => (cstring ['%']).getD i 0) ⟨fun _ => 0, fun _ => []⟩ 1 := by
  have hcutOff : ¬Complete (cstring ['%']) := by
    intro htext
    cases htext with
    | plain hc _ => exact hc rfl
    | conversion hflags _ => cases hflags
  exact not_readsWithin_of_cutOff hcutOff (by decide)

end KyroOS.Strings

import KyroOS.Basic
import KyroOS.Strings.Memmove

/-!
# The copies at machine addresses, and the pointers they return

`memmove` moves two indices over a memory of bytes, `memcpy` leaves the copy to `rep movsb`. The
string instruction steps the registers that the operands of the statement name, and the operand of
the destination is the variable that `memcpy` returns.

## Main definitions

* `memmove`, `memcpy` — the copies with the memory they leave and the pointer they return
* `Copied` — the range holds what its source held, and nothing else has changed

## Main results

* `memmove_copied` — `memmove` copies, for every overlap of the two ranges
* `memcpy_eq_memmove` — away from the source `memcpy` leaves the same memory
* `memcpy_ptr` — the pointer that `memcpy` returns is the end of the range
* `copiesRight_iff` — the copies do what is said of them if and only if nothing is copied or the
  ranges overlap
-/

namespace KyroOS.Strings.Copies

/-- The memory at each address. -/
abbrev Memory := Word → Byte

/-- What a copy leaves. -/
structure Returned where
  mem : Memory
  ptr : Word

/-- `for (size_t i = 0; i < n; i++) d[i] = s[i]` -/
def forwards (d s n : Word) (m : Memory) (i : Word) : ℕ → Memory
  | 0 => m
  | turns + 1 =>
    if i < n then forwards d s n (Function.update m (d + i) (m (s + i))) (i + 1) turns else m

/-- `for (size_t i = n; i != 0; i--) d[i - 1] = s[i - 1]` -/
def backwards (d s : Word) (m : Memory) (i : Word) : ℕ → Memory
  | 0 => m
  | turns + 1 =>
    if i ≠ 0 then
      backwards d s (Function.update m (d + (i - 1)) (m (s + (i - 1)))) (i - 1) turns
    else m

/-- `memmove` -/
def memmove (m : Memory) (dest src n : Word) : Returned :=
  if dest = src then ⟨m, dest⟩
  else if dest < src then ⟨forwards dest src n m 0 n.toNat, dest⟩
  else ⟨backwards dest src m n n.toNat, dest⟩

/-- The operands of the statement in `memcpy`, which `rep movsb` reads and writes. -/
structure Operands where
  dest : Word
  src : Word
  n : Word

/-- `movsb` with the direction flag clear, as `rep` repeats it. -/
def movsb (m : Memory) (regs : Operands) : Memory × Operands :=
  (Function.update m regs.dest (m regs.src), ⟨regs.dest + 1, regs.src + 1, regs.n - 1⟩)

/-- `rep movsb` -/
def repMovsb (m : Memory) (regs : Operands) : ℕ → Memory × Operands
  | 0 => (m, regs)
  | turns + 1 =>
    if regs.n = 0 then (m, regs) else repMovsb (movsb m regs).1 (movsb m regs).2 turns

/-- `memcpy` -/
def memcpy (m : Memory) (dest src n : Word) : Returned :=
  -- the statement has written the variable that is returned
  ⟨(repMovsb m ⟨dest, src, n⟩ n.toNat).1, (repMovsb m ⟨dest, src, n⟩ n.toNat).2.dest⟩

/-- A range that does not wrap around the end of the address space. -/
def NoWrap (p n : Word) : Prop := p.toNat + n.toNat ≤ 2 ^ 64

instance (p n : Word) : Decidable (NoWrap p n) := inferInstanceAs (Decidable (_ ≤ _))

/-- No byte belongs to both ranges. -/
def Disjoint (dest src n : Word) : Prop :=
  dest.toNat + n.toNat ≤ src.toNat ∨ src.toNat + n.toNat ≤ dest.toNat

instance (dest src n : Word) : Decidable (Disjoint dest src n) := inferInstanceAs (Decidable (_ ∨ _))

/-- The range holds what its source held before, and every other byte is unchanged. -/
def Copied (m m' : Memory) (dest src n : Word) : Prop :=
  (∀ i < n, m' (dest + i) = m (src + i)) ∧ ∀ x, (∀ i < n, x ≠ dest + i) → m' x = m x

section Refinement

variable {m : Memory} {f : ℕ → Byte} {d s n : Word}

/-- The memory holds the bytes of an array that has no last index. -/
def Agrees (m : Memory) (f : ℕ → Byte) : Prop := ∀ x : Word, m x = f x.toNat

theorem agrees_ofNat (m : Memory) : Agrees m fun x => m (BitVec.ofNat 64 x) := by
  intro x
  simp

/-- One element is copied in both. -/
theorem Agrees.store (h : Agrees m f) {p q : Word} {j k : ℕ} (hp : p.toNat = j)
    (hq : q.toNat = k) :
    Agrees (Function.update m p (m q)) (Function.update f j (f k)) := by
  intro x
  by_cases hx : x = p
  · rw [hx, hp, Function.update_self, Function.update_self, h q, hq]
  · have hne : x.toNat ≠ j := fun h => hx (BitVec.eq_of_toNat_eq (h.trans hp.symm))
    rw [Function.update_of_ne hx, Function.update_of_ne hne, h x]

/-- An index into a range that does not wrap. -/
theorem NoWrap.toNat_add (h : NoWrap d n) {i : Word} (hi : i < n) :
    (d + i).toNat = d.toNat + i.toNat := by
  unfold NoWrap at h
  rw [BitVec.lt_def] at hi
  rw [BitVec.toNat_add, Nat.mod_eq_of_lt (by omega)]

theorem forwards_agrees (hd : NoWrap d n) (hs : NoWrap s n) (turns : ℕ) {i : Word}
    (hi : i.toNat + turns = n.toNat) {m : Memory} {f : ℕ → Byte} (h : Agrees m f) :
    Agrees (forwards d s n m i turns) (copyForwards d.toNat s.toNat f i.toNat turns) := by
  induction turns generalizing i m f with
  | zero => exact h
  | succ turns ih =>
    have hlt : i < n := by
      rw [BitVec.lt_def]
      omega
    have hnext : (i + 1).toNat = i.toNat + 1 := by bv_omega
    rw [forwards, if_pos hlt, copyForwards, ← hnext]
    exact ih (by omega) (h.store (hd.toNat_add hlt) (hs.toNat_add hlt))

theorem backwards_agrees (hd : NoWrap d n) (hs : NoWrap s n) (turns : ℕ) {i : Word}
    (hi : i.toNat = turns) (hle : i ≤ n) {m : Memory} {f : ℕ → Byte} (h : Agrees m f) :
    Agrees (backwards d s m i turns) (copyBackwards d.toNat s.toNat f turns) := by
  induction turns generalizing i m f with
  | zero => exact h
  | succ turns ih =>
    have hne : i ≠ 0 := by bv_omega
    have hprev : (i - 1).toNat = turns := by bv_omega
    have hlt : i - 1 < n := by bv_omega
    have hdest := hd.toNat_add hlt
    have hsrc := hs.toNat_add hlt
    rw [hprev] at hdest hsrc
    rw [backwards, if_pos hne, copyBackwards]
    exact ih hprev (BitVec.le_of_lt hlt) (h.store hdest hsrc)

/-- `memmove` at machine addresses is the copy of an array. -/
theorem memmove_agrees (hd : NoWrap d n) (hs : NoWrap s n) (h : Agrees m f) :
    Agrees (memmove m d s n).mem (Strings.memmove f d.toNat s.toNat n.toNat) := by
  unfold memmove Strings.memmove
  by_cases heq : d = s
  · rw [if_pos heq, if_pos (congrArg _ heq)]
    exact h
  · rw [if_neg heq, if_neg fun h => heq (BitVec.eq_of_toNat_eq h)]
    by_cases hlt : d < s
    · rw [if_pos hlt, if_pos (BitVec.lt_def.mp hlt)]
      exact forwards_agrees hd hs n.toNat (i := 0) (by simp) h
    · rw [if_neg hlt, if_neg fun h => hlt (BitVec.lt_def.mpr h)]
      exact backwards_agrees hd hs n.toNat rfl (BitVec.le_refl n) h

/-- `rep movsb` is the copy forwards, and it leaves the registers behind the two ranges. -/
theorem repMovsb_agrees (turns : ℕ) (regs : Operands) (hn : regs.n.toNat = turns)
    (hd : NoWrap regs.dest regs.n) (hs : NoWrap regs.src regs.n) {j k i : ℕ} (h : Agrees m f)
    (hdest : 0 < turns → regs.dest.toNat = j + i) (hsrc : 0 < turns → regs.src.toNat = k + i) :
    Agrees (repMovsb m regs turns).1 (copyForwards j k f i turns) ∧
      (repMovsb m regs turns).2.dest = regs.dest + regs.n := by
  induction turns generalizing m f regs i with
  | zero =>
    have hzero : regs.n = 0#64 := BitVec.eq_of_toNat_eq hn
    exact ⟨h, by rw [repMovsb, hzero, BitVec.add_zero]⟩
  | succ turns ih =>
    unfold NoWrap at hd hs
    have hdest := hdest (by omega)
    have hsrc := hsrc (by omega)
    have hne : regs.n ≠ 0 := by bv_omega
    have hleft : (regs.n - 1).toNat = turns := by bv_omega
    have hstep (p : Word) (hp : p.toNat + regs.n.toNat ≤ 2 ^ 64) (hlt : 0 < turns) :
        (p + 1).toNat = p.toNat + 1 := by
      rw [BitVec.toNat_add, Nat.mod_eq_of_lt (by simp; omega)]
      rfl
    have hwrap (p : Word) (hp : p.toNat + regs.n.toNat ≤ 2 ^ 64) :
        NoWrap (p + 1) (regs.n - 1) := by
      unfold NoWrap
      rw [hleft]
      by_cases hlt : 0 < turns
      · have := hstep p hp hlt
        omega
      · have := (p + 1).isLt
        omega
    rw [repMovsb, if_neg hne, copyForwards]
    obtain ⟨hmem, hptr⟩ := ih (movsb m regs).2 hleft (hwrap _ hd) (hwrap _ hs)
      (i := i + 1) (h.store hdest hsrc)
      (fun hlt => (hstep _ hd hlt).trans (by omega))
      (fun hlt => (hstep _ hs hlt).trans (by omega))
    refine ⟨hmem, hptr.trans ?_⟩
    change regs.dest + 1 + (regs.n - 1) = regs.dest + regs.n
    bv_omega

end Refinement

variable {m : Memory} {dest src n : Word}

/-- `memmove` copies, for every overlap of the two ranges. -/
theorem memmove_copied (hdest : NoWrap dest n) (hsrc : NoWrap src n) (m : Memory) :
    Copied m (memmove m dest src n).mem dest src n := by
  have hagrees := memmove_agrees hdest hsrc (agrees_ofNat m)
  constructor
  · intro i hi
    have hlt := BitVec.lt_def.mp hi
    rw [hagrees, Strings.memmove_apply, hdest.toNat_add hi, if_pos (by omega),
      Nat.add_sub_cancel_left, ← hsrc.toNat_add hi, BitVec.ofNat_toNat, BitVec.setWidth_eq]
  · intro x hout
    have hnot : ¬(dest.toNat ≤ x.toNat ∧ x.toNat < dest.toNat + n.toNat) := by
      rintro ⟨hle, hlt⟩
      exact hout (x - dest) (by bv_omega) (by bv_omega)
    rw [hagrees, Strings.memmove_apply, if_neg hnot]
    exact (agrees_ofNat m x).symm

/-- `memmove` returns its destination. -/
@[simp] theorem memmove_ptr (m : Memory) (dest src n : Word) :
    (memmove m dest src n).ptr = dest := by
  unfold memmove
  split_ifs <;> rfl

/-- Away from the source the direction of a copy does not matter. -/
theorem memcpy_eq_memmove (hdest : NoWrap dest n) (hsrc : NoWrap src n)
    (hdisjoint : Disjoint dest src n) (m : Memory) :
    (memcpy m dest src n).mem = (memmove m dest src n).mem := by
  funext x
  have hcopy := (repMovsb_agrees n.toNat ⟨dest, src, n⟩ rfl hdest hsrc (i := 0)
    (agrees_ofNat m) (fun _ => rfl) (fun _ => rfl)).1
  unfold Disjoint at hdisjoint
  rw [memmove_agrees hdest hsrc (agrees_ofNat m) x, Strings.memmove_apply]
  refine (hcopy x).trans ?_
  by_cases hzero : n.toNat = 0
  · rw [hzero, copyForwards, if_neg (by omega)]
  · have hreads : dest.toNat < src.toNat ∨ src.toNat + 0 + n.toNat ≤ dest.toNat + 0 := by omega
    exact copyForwards_apply n.toNat 0 hreads _ _

/-- The pointer that `memcpy` returns has been moved with the copy. -/
theorem memcpy_ptr (hdest : NoWrap dest n) (hsrc : NoWrap src n) (m : Memory) :
    (memcpy m dest src n).ptr = dest + n :=
  (repMovsb_agrees n.toNat ⟨dest, src, n⟩ rfl hdest hsrc (i := 0) (agrees_ofNat m)
    (fun _ => rfl) (fun _ => rfl)).2

/-- What is said of the two copies: `memmove` copies for every overlap, away from the source
`memcpy` leaves the same memory, and each returns its destination. -/
def CopiesRight (m : Memory) (dest src n : Word) : Prop :=
  Copied m (memmove m dest src n).mem dest src n ∧ (memmove m dest src n).ptr = dest ∧
    (Disjoint dest src n →
      (memcpy m dest src n).mem = (memmove m dest src n).mem ∧ (memcpy m dest src n).ptr = dest)

/-- The copies do what is said of them if and only if nothing is copied or the ranges overlap. -/
theorem copiesRight_iff (m : Memory) (dest src n : Word) (hdest : NoWrap dest n)
    (hsrc : NoWrap src n) :
    CopiesRight m dest src n ↔ n = 0 ∨ ¬Disjoint dest src n := by
  constructor
  · rintro ⟨-, -, hmemcpy⟩
    by_cases hdisjoint : Disjoint dest src n
    · have hptr := (memcpy_ptr hdest hsrc m).symm.trans (hmemcpy hdisjoint).2
      exact .inl (by simpa using hptr)
    · exact .inr hdisjoint
  · intro hn
    refine ⟨memmove_copied hdest hsrc m, memmove_ptr m dest src n, fun hdisjoint => ?_⟩
    have hzero : n = 0#64 := hn.resolve_right fun h => h hdisjoint
    exact ⟨memcpy_eq_memmove hdest hsrc hdisjoint m,
      (memcpy_ptr hdest hsrc m).trans (by rw [hzero, BitVec.add_zero])⟩

/-- Two bytes are copied from behind the destination. -/
theorem copiesRight_two_iff :
    CopiesRight (fun x => x.setWidth 8) 16 18 2 ↔ (2 : Word) = 0 ∨ ¬Disjoint 16 18 2 :=
  copiesRight_iff _ 16 18 2 (by decide) (by decide)

/-- A single byte is enough: `memcpy` returns the address behind it. -/
theorem not_copiesRight_one : ¬CopiesRight (fun _ => 0) 16 32 1 := by
  rintro ⟨-, -, hmemcpy⟩
  exact absurd (hmemcpy (by decide)).2 (by decide)

end KyroOS.Strings.Copies

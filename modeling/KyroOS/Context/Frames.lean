import KyroOS.Context.Interrupts

/-!
# What is saved on a kernel stack

On the stack of a thread lie the registers of the calls of `thread_switch` and of the interrupts
and system calls that have not returned yet, the last one lowest. The code of the thread that is
running works below them. A system call may change the saved `rax`. An interrupt or a system call
may be on its way back, and be interrupted there.

## Main definitions

* `Frame` — saved registers, and where they are
* `FramesOn` — frames one above the other in a part of memory
* `KeptCell` — the cells that the running code leaves alone
* `Linked` — a way back goes on with the registers that are saved below it

## Main results

* `FramesOn.keep` — frames stand as long as these cells keep their words
* `FramesOn.push`, `FramesOn.advance` — a new frame, and a way back
-/

namespace KyroOS.Context

open KyroOS.Threads

/-- What is saved on a stack. -/
inductive Frame
  /-- The registers at the call of `thread_switch`, and its return address. -/
  | switched (c : Cpu) (back : Word)
  /-- The registers at an interrupt or a system call, saved from `base` on. On the way back `n`
  instructions have been executed. -/
  | interrupted (syscall : Bool) (base : Word) (c : Cpu) (n : ℕ)

namespace Frame

/-- Where the words begin that are still to be taken. -/
def base : Frame → Word
  | switched c _ => c.gpr .rsp - 48
  | interrupted _ base _ n => base + BitVec.ofNat 64 (8 * taken n)

/-- The number of bytes. -/
def size : Frame → ℕ
  | switched .. => 56
  | interrupted _ _ _ n => 176 - 8 * taken n

/-- The frame is in memory. -/
def Holds (mem : Word → Word) : Frame → Prop
  | switched c back => Stands mem (c.gpr .rsp - 48) (restoredOrder.map c.gpr ++ [back])
  | interrupted syscall base c n => MidwayStands mem syscall base c n

theorem base_zero (syscall : Bool) (base : Word) (c : Cpu) :
    (interrupted syscall base c 0).base = base :=
  BitVec.add_zero base

/-- User code was interrupted. -/
def User : Frame → Prop
  | switched .. => False
  | interrupted _ _ c _ => c.User

end Frame

/-- Where the frames begin in a part of memory that ends at `hi`. -/
def limit (hi : ℕ) : List Frame → ℕ
  | [] => hi
  | f :: _ => f.base.toNat

/-- The frames are in memory from `lo` to `hi`, one above the other. User code was interrupted only
when nothing was saved. -/
def FramesOn (mem : Word → Word) (lo hi : ℕ) : List Frame → Prop
  | [] => True
  | f :: fs => f.Holds mem ∧ lo ≤ f.base.toNat ∧ f.base.toNat + f.size ≤ limit hi fs ∧
      (f.User → fs = []) ∧ FramesOn mem lo hi fs

/-- A cell that the running code leaves alone: it is in a frame, and not the saved `rax` of the
system call that the code works for. -/
structure KeptCell (hi : ℕ) (fs : List Frame) (a : Word) : Prop where
  le : limit hi fs ≤ a.toNat
  lt : a.toNat < hi
  rax : ∀ base c rest, fs = .interrupted true base c 0 :: rest → a ≠ base

/-! ### The way back -/

/-- The last interrupt or system call is on its way back. -/
def Exiting : List Frame → Prop
  | .interrupted _ _ _ n :: _ => 0 < n
  | _ => False

/-- With these registers the way back goes on. -/
def Continues (c : Cpu) : List Frame → Prop
  | .interrupted syscall base c' (n + 1) :: _ => Midway syscall base c' (n + 1) c
  | _ => True

/-- Below a way back only an interrupt is saved, and it gives back the registers for it. -/
def Frame.Over : Frame → List Frame → Prop
  | .interrupted false _ c _, fs => Continues c fs
  | _, fs => ¬ Exiting fs

def Linked : List Frame → Prop
  | [] => True
  | f :: fs => f.Over fs ∧ Linked fs

theorem continues_of_not_exiting {c : Cpu} {fs : List Frame} (h : ¬ Exiting fs) :
    Continues c fs := by
  match fs with
  | [] => trivial
  | .switched _ _ :: _ => trivial
  | .interrupted _ _ _ 0 :: _ => trivial
  | .interrupted _ _ _ (n + 1) :: _ => exact absurd n.succ_pos h

/-- The registers of a handler or of the way back. -/
theorem Continues.midway {syscall : Bool} {base : Word} {c c' : Cpu} {n : ℕ} {fs : List Frame}
    (h : Continues c (.interrupted syscall base c' n :: fs)) (hrsp : n = 0 → c.gpr .rsp = base)
    (hkernel : ¬ c.User) : Midway syscall base c' n c := by
  cases n with
  | zero =>
    refine ⟨?_, ⟨c'.gpr .rax, fun _ => rfl, fun r hr => absurd hr List.not_mem_nil⟩, hkernel⟩
    exact (hrsp rfl).trans (BitVec.add_zero base).symm
  | succ n => exact h

section FramesOn

variable {mem mem' : Word → Word} {lo hi n : ℕ} {f : Frame} {fs : List Frame}
  {base number w : Word} {c : Cpu}

theorem FramesOn.limit_le (h : FramesOn mem lo hi fs) : limit hi fs ≤ hi := by
  induction fs with
  | nil => exact le_rfl
  | cons f fs ih =>
    obtain ⟨-, -, hsize, -, hrest⟩ := h
    exact (Nat.le_of_add_right_le hsize).trans (ih hrest)

theorem FramesOn.le_limit (h : FramesOn mem lo hi fs) (hlo : lo ≤ hi) : lo ≤ limit hi fs := by
  cases fs with
  | nil => exact hlo
  | cons f fs => exact h.2.1

theorem length_irqFrame (number : Word) (c : Cpu) : (irqFrame number c).length = 22 := rfl

/-- Only the first word of the frame is the saved `rax`. -/
theorem irqFrame_set (number w : Word) (c : Cpu) :
    irqFrame number (c.set .rax w) = w :: (irqFrame number c).tail := by
  simp [irqFrame, popOrder, Cpu.set]

theorem MidwayStands.congr {syscall : Bool} (h : MidwayStands mem syscall base c n)
    (hfit : (base + BitVec.ofNat 64 (8 * taken n)).toNat + (176 - 8 * taken n) ≤ 2 ^ 64)
    (hsame : ∀ a, (base + BitVec.ofNat 64 (8 * taken n)).toNat ≤ a.toNat →
      a.toNat < (base + BitVec.ofNat 64 (8 * taken n)).toNat + (176 - 8 * taken n) →
        mem' a = mem a) : MidwayStands mem' syscall base c n := by
  obtain ⟨number, w, hw, hstands⟩ := h
  have hlength : 8 * ((irqFrame number (c.set .rax w)).drop (taken n)).length =
      176 - 8 * taken n := by
    rw [List.length_drop, length_irqFrame]
    omega
  exact ⟨number, w, hw, hstands.congr (hlength ▸ hfit) (hlength ▸ hsame)⟩

theorem Frame.Holds.congr (h : f.Holds mem) (hfit : f.base.toNat + f.size ≤ 2 ^ 64)
    (hsame : ∀ a, f.base.toNat ≤ a.toNat → a.toNat < f.base.toNat + f.size → mem' a = mem a) :
    f.Holds mem' := by
  cases f with
  | switched c back => exact Stands.congr h hfit hsame
  | interrupted syscall base c n => exact MidwayStands.congr h hfit hsame

/-- The frame of a system call stands when its other words do. -/
theorem Frame.Holds.congr_rax (h : (Frame.interrupted true base c 0).Holds mem)
    (hfit : base.toNat + 176 ≤ 2 ^ 64)
    (hsame : ∀ a, a ≠ base → base.toNat ≤ a.toNat → a.toNat < base.toNat + 176 →
      mem' a = mem a) : (Frame.interrupted true base c 0).Holds mem' := by
  obtain ⟨number, w, -, hstands⟩ := h
  rw [taken, if_pos (Nat.zero_le _), Nat.mul_zero, BitVec.add_zero, List.drop_zero,
    irqFrame_set] at hstands
  refine ⟨number, mem' base, by rintro ⟨⟩, ?_⟩
  rw [taken, if_pos (Nat.zero_le _), Nat.mul_zero, BitVec.add_zero, List.drop_zero, irqFrame_set]
  have hnext := toNat_add_eight base (by omega)
  have hlength : (irqFrame number c).tail.length = 21 := rfl
  refine ⟨rfl, hstands.2.congr (by omega) fun a hle hlt => hsame a ?_ (by omega) (by omega)⟩
  rintro rfl
  omega

/-- Frames stand as long as their cells keep their words. -/
theorem FramesOn.congr (h : FramesOn mem lo hi fs) (hhi : hi < 2 ^ 64)
    (hsame : ∀ a : Word, limit hi fs ≤ a.toNat → a.toNat < hi → mem' a = mem a) :
    FramesOn mem' lo hi fs := by
  induction fs with
  | nil => trivial
  | cons f fs ih =>
    obtain ⟨hholds, hlo, hsize, huser, hrest⟩ := h
    have hle := hrest.limit_le
    refine ⟨hholds.congr (by omega) fun a hl hlt => hsame a hl (by omega), hlo, hsize, huser,
      ih hrest fun a hl hlt => hsame a ?_ hlt⟩
    exact (Nat.le_of_add_right_le hsize).trans hl

/-- The running code leaves the frames standing. -/
theorem FramesOn.keep (h : FramesOn mem lo hi fs) (hhi : hi < 2 ^ 64)
    (hsame : ∀ a, KeptCell hi fs a → mem' a = mem a) : FramesOn mem' lo hi fs := by
  by_cases hsyscall : ∃ base c rest, fs = .interrupted true base c 0 :: rest
  · obtain ⟨base, c, rest, rfl⟩ := hsyscall
    obtain ⟨hholds, hlo, hsize, huser, hrest⟩ := h
    have hle := hrest.limit_le
    have hsize' : base.toNat + 176 ≤ limit hi rest := Frame.base_zero true base c ▸ hsize
    have hkept : ∀ a, a ≠ base → base.toNat ≤ a.toNat → a.toNat < hi → mem' a = mem a := by
      intro a hne hl hlt
      refine hsame a ⟨?_, hlt, ?_⟩
      · rw [limit, Frame.base_zero]
        exact hl
      · rintro base' c' rest' heq rfl
        cases heq
        exact hne rfl
    refine ⟨hholds.congr_rax (by omega) fun a hne hl hlt => hkept a hne hl (by omega), hlo, hsize,
      huser, hrest.congr hhi fun a hl hlt => hkept a ?_ (by omega) hlt⟩
    rintro rfl
    omega
  · refine h.congr hhi fun a hl hlt => hsame a ⟨hl, hlt, ?_⟩
    intro base c rest heq
    exact absurd ⟨base, c, rest, heq⟩ hsyscall

/-- A new frame is put below the others. -/
theorem FramesOn.push (h : FramesOn mem lo hi fs) (hhi : hi < 2 ^ 64) (hholds : f.Holds mem')
    (hlo : lo ≤ f.base.toNat) (hsize : f.base.toNat + f.size ≤ limit hi fs)
    (huser : f.User → fs = [])
    (hsame : ∀ a : Word, limit hi fs ≤ a.toNat → a.toNat < hi → mem' a = mem a) :
    FramesOn mem' lo hi (f :: fs) :=
  ⟨hholds, hlo, hsize, huser, h.congr hhi hsame⟩

/-- An instruction of the way back. -/
theorem FramesOn.advance {syscall : Bool} {fs : List Frame} (hhi : hi < 2 ^ 64)
    (h : FramesOn mem lo hi (.interrupted syscall base c n :: fs)) :
    FramesOn mem lo hi (.interrupted syscall base c (n + 1) :: fs) := by
  obtain ⟨hholds, hlo, hsize, huser, hrest⟩ := h
  have hle := hrest.limit_le
  obtain ⟨b, hb⟩ : ∃ b, b = (Frame.interrupted syscall base c n).base := ⟨_, rfl⟩
  obtain ⟨j, hj⟩ := Nat.exists_eq_add_of_le (taken_mono (Nat.le_add_right n 1))
  have hnext : taken (n + 1) ≤ 17 := by
    rw [taken]
    split_ifs <;> omega
  have hbase : (Frame.interrupted syscall base c (n + 1)).base = b + BitVec.ofNat 64 (8 * j) := by
    rw [hb, Frame.base, Frame.base, hj, Nat.mul_add, BitVec.ofNat_add, BitVec.add_assoc]
  have hfit : b.toNat + (176 - 8 * taken n) ≤ limit hi fs := hb ▸ hsize
  have hlower : (b + BitVec.ofNat 64 (8 * j)).toNat = b.toNat + 8 * j := by
    rw [BitVec.toNat_add, BitVec.toNat_ofNat, Nat.mod_eq_of_lt (by omega : 8 * j < 2 ^ 64),
      Nat.mod_eq_of_lt (by omega)]
  refine ⟨MidwayStands.mono hholds n.le_succ, ?_, ?_, huser, hrest⟩
  · rw [hbase, hlower]
    exact Nat.le_add_right_of_le (hb ▸ hlo)
  · rw [hbase, hlower, Frame.size]
    omega

end FramesOn

end KyroOS.Context

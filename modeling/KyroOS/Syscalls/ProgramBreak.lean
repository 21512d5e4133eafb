import KyroOS.Lib.Transition
import KyroOS.Process.Life

/-!
# The program break

`sys_sbrk` adds a signed increment to the break of the thread that calls it. The sum is taken
modulo 2⁶⁴, and only compared with the break that the thread started with.

## Main definitions

* `sysSbrk` — the call
* `BreakEvent`, `breakSystem` — the calls of a new thread and of others, in any order
* `SbrkExact`, `SbrkFits` — what a call should do, and when it does

## Main results

* `initial_le_of_reachable` — the break never falls below the one at the start
* `sbrkExact_iff` — a call is exact unless the sum wraps around and is not refused
* `not_sbrkExact` — the break goes to the end of the address space on a negative increment
-/

namespace KyroOS.Syscalls

open KyroOS.Memory KyroOS.Threads Transition

/-- `sys_sbrk` with the increment in `rdi`: the kernel afterwards, and `rax`. -/
def sysSbrk (k : Threads.Kernel) (increment : Word) : Threads.Kernel × Word :=
  let t := k.thread k.currentThread
  let oldBrk := t.programBreak
  let newBrk := oldBrk + increment
  if increment = 0 then (k, oldBrk)
  else if newBrk < t.initialProgramBreak then (k, -1)
  else (k.setThread k.currentThread fun t => { t with programBreak := newBrk }, oldBrk)

/-! ### Runs -/

/-- The current thread calls `sys_sbrk`, or another thread becomes the current one. -/
inductive BreakEvent
  | sbrk (increment : Word)
  | switch (p : Word)

/-- The kernel after an event. -/
def BreakEvent.apply (k : Threads.Kernel) : BreakEvent → Threads.Kernel
  | .sbrk increment => (sysSbrk k increment).1
  | .switch p => { k with currentThread := p }

/-- The runs from the creation of the thread `t` on. -/
def breakSystem (t : Word) : System Threads.Kernel BreakEvent where
  init k := t ≠ 0 ∧ ∃ sym k₀ entry pml4 programBreak argv console record kstack,
    threadCreateUserspace sym k₀ entry pml4 programBreak argv console record kstack = .ok (k, t)
  step k e k' := k' = e.apply k

/-- The call sets the break to the exact sum and returns the old one, or it fails and leaves the
break alone. -/
def SbrkExact (k : Threads.Kernel) (increment : Word) : Prop :=
  let old := (k.thread k.currentThread).programBreak
  let new := ((sysSbrk k increment).1.thread k.currentThread).programBreak
  (new.toNat : ℤ) = old.toNat + increment.toInt ∧ (sysSbrk k increment).2 = old ∨
    (sysSbrk k increment).2 = -1 ∧ new = old

/-- The exact sum is an address, or what it wraps around to is below the break at the start. -/
def SbrkFits (k : Threads.Kernel) (increment : Word) : Prop :=
  let t := k.thread k.currentThread
  (0 ≤ t.programBreak.toNat + increment.toInt ∧ t.programBreak.toNat + increment.toInt < 2 ^ 64) ∨
    t.programBreak + increment < t.initialProgramBreak

section Break

variable {k k' : Threads.Kernel} {t p : Word} {increment : Word}

/-- What a call does to the records: it moves the break of the current thread, upwards from the
first one. -/
theorem sysSbrk_thread (k : Threads.Kernel) (increment p : Word) :
    (sysSbrk k increment).1.thread p = k.thread p ∨
      p = k.currentThread ∧
        (k.thread p).initialProgramBreak ≤ (k.thread p).programBreak + increment ∧
        (sysSbrk k increment).1.thread p =
          { k.thread p with programBreak := (k.thread p).programBreak + increment } := by
  unfold sysSbrk
  dsimp only
  split_ifs with hzero hlow
  · exact .inl rfl
  · exact .inl rfl
  · dsimp only
    by_cases hp : p = k.currentThread
    · subst hp
      exact .inr ⟨rfl, BitVec.not_lt.mp hlow, setThread_self ..⟩
    · exact .inl (setThread_of_ne _ _ hp)

/-- The step lemma. -/
theorem BreakEvent.initial_le (e : BreakEvent)
    (h : (k.thread t).initialProgramBreak ≤ (k.thread t).programBreak) :
    ((e.apply k).thread t).initialProgramBreak ≤ ((e.apply k).thread t).programBreak := by
  cases e with
  | sbrk increment =>
    rcases sysSbrk_thread k increment t with hsame | ⟨-, hle, hnew⟩
    · rw [BreakEvent.apply, hsame]
      exact h
    · rw [BreakEvent.apply, hnew]
      exact hle
  | switch p => exact h

/-- The break of a thread never falls below the one it was created with. -/
theorem initial_le_of_reachable (h : (breakSystem t).Reachable k) :
    (k.thread t).initialProgramBreak ≤ (k.thread t).programBreak := by
  apply h.invariant
    (I := fun k => (k.thread t).initialProgramBreak ≤ (k.thread t).programBreak)
  · rintro k ⟨ht, sym, k₀, entry, pml4, programBreak, argv, console, record, kstack, hcreate⟩
    cases threadCreateUserspace_end hcreate with
    | noRecord | noPage | noStack => exact absurd rfl ht
    | created vmm hblock hstack hmap hvmm hheap hlive hcurrent hkstack hnew hthread =>
      obtain ⟨next, hnew⟩ := hnew
      rw [hnew]
      exact BitVec.le_refl _
  · rintro k e k' hk - rfl
    exact e.initial_le hk

/-- The sum of an address and a signed increment is exact where it is an address. -/
theorem toNat_add_eq_iff (old increment : Word) :
    ((old + increment).toNat : ℤ) = old.toNat + increment.toInt ↔
      0 ≤ old.toNat + increment.toInt ∧ (old.toNat : ℤ) + increment.toInt < 2 ^ 64 := by
  have hold := old.isLt
  have hsum := (old + increment).isLt
  rw [BitVec.toNat_add, BitVec.toInt_eq_toNat_cond] at *
  split_ifs <;> omega

/-- In every run the break of a thread is never below the first one, and a call is exact unless the
sum wraps around to an address that is not refused. -/
theorem sbrkExact_iff (h : (breakSystem t).Reachable k) :
    (k.thread t).initialProgramBreak ≤ (k.thread t).programBreak ∧
      ∀ increment, SbrkExact k increment ↔ SbrkFits k increment := by
  refine ⟨initial_le_of_reachable h, fun increment => ?_⟩
  have hexact := toNat_add_eq_iff (k.thread k.currentThread).programBreak increment
  unfold SbrkExact SbrkFits sysSbrk
  dsimp only
  split_ifs with hzero hlow
  · -- nothing is added
    subst hzero
    have hsame : ((k.thread k.currentThread).programBreak.toNat : ℤ) =
        (k.thread k.currentThread).programBreak.toNat + (0 : Word).toInt := by simp
    refine iff_of_true (.inl ⟨hsame, rfl⟩) (.inl (hexact.mp ?_))
    simp
  · exact iff_of_true (.inr ⟨rfl, rfl⟩) (.inr hlow)
  · rw [setThread_self, ← hexact]
    constructor
    · rintro (⟨hsum, -⟩ | ⟨-, hsame⟩)
      · exact .inl hsum
      · have hnone : increment = 0 := by
          dsimp only at hsame
          bv_omega
        exact absurd hnone hzero
    · rintro (hsum | hlow')
      · exact .inl ⟨hsum, rfl⟩
      · exact absurd hlow' hlow

end Break

/-! ### A new program -/

/-- A program that was started is switched to. -/
def runningProgram : Threads.Kernel := { Process.startedKernel with currentThread := 0x2000 }

theorem reachable_runningProgram : (breakSystem 0x2000).Reachable runningProgram := by
  have hinit : (breakSystem 0x2000).init Process.startedKernel :=
    ⟨by decide, _, _, _, _, _, _, _, _, _, Process.startedKernel_created⟩
  exact (System.ReachableUnder.init hinit).step (a := .switch 0x2000) trivial rfl

/-- It can ask for a page. -/
theorem sbrkExact_page : SbrkExact runningProgram 0x1000 := by
  refine ((sbrkExact_iff reachable_runningProgram).2 0x1000).mpr (.inl ?_)
  decide

/-- A decrement that is larger than the break wraps around. -/
theorem not_sbrkExact : ¬ ∀ t k increment, (breakSystem t).Reachable k → SbrkExact k increment := by
  intro hall
  have hexact := hall 0x2000 runningProgram (-0x400002) reachable_runningProgram
  unfold SbrkExact at hexact
  revert hexact
  decide

end KyroOS.Syscalls

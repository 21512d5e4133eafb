import KyroOS.Context.Asm

/-!
# Interrupts

The processor pushes the frame of `iretq` on the stack of the kernel, and the stub of the
interrupt pushes the registers below it, in the order of `struct registers`. On the way back
the stub takes them from there, one instruction after the other: a handler may have enabled
interrupts, and then the way back can be interrupted itself.

## Main definitions

* `Core.interrupt` — what the processor does before the first instruction of a stub
* `entryCode`, `exitCode` — the stub before and after the call of the handler
* `irqFrame` — the words of `struct registers`
* `Midway` — the registers after some of the last instructions of the stub

## Main results

* `run_entryCode` — the stub saves the registers
* `Midway.exec`, `Midway.iretq` — its last instructions give them back
-/

namespace KyroOS.Context

open KyroOS.Memory KyroOS.Threads

/-- `KERNEL_CS`. -/
def kernelCs : Word := 0x08

namespace Cpu

/-- The processor runs user code when the lowest bits of CS are not 0. -/
def User (c : Cpu) : Prop := c.cs &&& 3 ≠ 0

instance (c : Cpu) : Decidable c.User := inferInstanceAs (Decidable (_ ≠ _))

/-- The flag IF. -/
def Enabled (c : Cpu) : Prop := c.rflags.getLsbD 9 = true

end Cpu

/-! ### The stubs -/

/-- The registers in the order of `POP_REGS`, which is that of `struct registers`. -/
def popOrder : List Reg :=
  [.rax, .rbx, .rcx, .rdx, .rsi, .rdi, .rbp, .r8, .r9, .r10, .r11, .r12, .r13, .r14, .r15]

/-- The registers in the order of `PUSH_REGS`. -/
def pushOrder : List Reg :=
  [.r15, .r14, .r13, .r12, .r11, .r10, .r9, .r8, .rbp, .rdi, .rsi, .rdx, .rcx, .rbx, .rax]

/-- The first instructions of `irq%1` and `isr128`. -/
def numberCode (number : Word) : List Instr := [.cli, .pushImm 0, .pushImm number]

/-- `irq%1` and `isr_common_stub`, or `isr128`, up to the call of the handler. -/
def entryCode (number : Word) : List Instr :=
  numberCode number ++ (pushOrder.map Instr.push ++ [Instr.mov .rdi .rsp])

/-- The last instructions of `isr_common_stub`, and of `isr128`. -/
def returnCode (syscall : Bool) : List Instr :=
  if syscall then [.add .rsp 16, .sti, .iretq] else [.add .rsp 16, .iretq]

/-- What follows the call in `isr_common_stub`, or in `isr128`. -/
def exitCode (syscall : Bool) : List Instr := popOrder.map Instr.pop ++ returnCode syscall

/-- The words of `struct registers`, from its address on. -/
def irqFrame (number : Word) (c : Cpu) : List Word :=
  popOrder.map c.gpr ++ [number, 0, c.rip, c.cs, c.rflags, c.gpr .rsp, c.ss]

namespace Core

/-- The stack that an interrupt or `int 0x80` pushes to: that of the TSS when it comes from user
mode. The processor aligns the stack pointer. -/
def interruptStack (s : Core) : Word :=
  (if s.cpu.User then s.kernel.tssRsp0 else s.cpu.gpr .rsp) &&& ~~~0xF#64

/-- The words that the processor pushes. -/
def iretqFrame (c : Cpu) : List Word := [c.ss, c.gpr .rsp, c.rflags, c.cs, c.rip]

/-- What the processor does for an interrupt before the first instruction of the stub: it pushes the
frame of `iretq` and clears the flags TF, IF, NT and RF. -/
def interrupt (s : Core) : Core where
  cpu :=
    { s.cpu.set .rsp (pushAll s.kernel.kstack s.interruptStack (iretqFrame s.cpu)).2 with
      cs := kernelCs
      rflags := s.cpu.rflags &&& ~~~0x14300#64
      ss := if s.cpu.User then 0 else s.cpu.ss }
  kernel :=
    { s.kernel with
      kstack := (pushAll s.kernel.kstack s.interruptStack (iretqFrame s.cpu)).1 }

end Core

/-- The number of words that the first `n` instructions of `exitCode` take from the stack. -/
def taken (n : ℕ) : ℕ := if n ≤ 15 then n else 17

/-- Of the instructions at the end of the stub `n` have been executed, with the registers `c` to
be given back from the frame at `base`. For a system call any word may come back in `rax`. -/
structure Midway (syscall : Bool) (base : Word) (c : Cpu) (n : ℕ) (c' : Cpu) : Prop where
  rsp : c'.gpr .rsp = base + BitVec.ofNat 64 (8 * taken n)
  values : ∃ w, (syscall = false → w = c.gpr .rax) ∧
    ∀ r ∈ popOrder.take n, c'.gpr r = (c.set .rax w).gpr r
  kernel : ¬ c'.User

/-- The words of the frame that are still on the stack then. -/
def MidwayStands (mem : Word → Word) (syscall : Bool) (base : Word) (c : Cpu) (n : ℕ) : Prop :=
  ∃ number w, (syscall = false → w = c.gpr .rax) ∧
    Stands mem (base + BitVec.ofNat 64 (8 * taken n))
      ((irqFrame number (c.set .rax w)).drop (taken n))

/-! ### Saving and giving back -/

section Stubs

variable {s : Core} {syscall : Bool} {base : Word} {c : Cpu} {n : ℕ}

/-- The stub pushes the words of `struct registers`, and gives its address to the handler. -/
theorem run_entryCode (s : Core) (number : Word) :
    (run (entryCode number) 0 s.interrupt).kernel = { s.kernel with
      kstack := (pushAll s.kernel.kstack s.interruptStack (irqFrame number s.cpu).reverse).1 } ∧
    (run (entryCode number) 0 s.interrupt).cpu.gpr .rsp =
      (pushAll s.kernel.kstack s.interruptStack (irqFrame number s.cpu).reverse).2 ∧
    (run (entryCode number) 0 s.interrupt).cpu.cs = kernelCs := by
  obtain ⟨t, ht⟩ : ∃ t, t = (s.interrupt.exec .cli).pushWords [0, number] := ⟨_, rfl⟩
  have hgpr : ∀ r, r ≠ .rsp → t.cpu.gpr r = s.cpu.gpr r := by
    intro r hr
    rw [ht, Core.pushWords_gpr _ _ hr]
    exact Cpu.set_of_ne s.cpu _ hr
  have hrun : run (entryCode number) 0 s.interrupt =
      (t.pushWords (pushOrder.map t.cpu.gpr)).exec (.mov .rdi .rsp) := by
    rw [entryCode, run_append _ _ (by simp [numberCode]), run_append _ _ (by simp)]
    have hnumber : (numberCode number).foldl Core.exec s.interrupt = t := by
      rw [ht]
      exact Core.pushWords_append (s.interrupt.exec .cli) [0] [number]
    rw [hnumber, run_pushes _ (by decide)]
    rfl
  have hregs : pushOrder.map t.cpu.gpr = pushOrder.map s.cpu.gpr :=
    List.map_congr_left fun r hr => hgpr r fun heq => by simp [heq, pushOrder] at hr
  have hwords : (irqFrame number s.cpu).reverse =
      Core.iretqFrame s.cpu ++ ([0, number] ++ pushOrder.map s.cpu.gpr) := rfl
  rw [hrun, hregs, hwords, pushAll_append, pushAll_append, ht]
  exact ⟨rfl, rfl, rfl⟩

/-! ### The way back -/

/-- The instructions of the way back: pops, then those of `returnCode`. -/
theorem exitCode_get (syscall : Bool) {n : ℕ} {i : Instr} (hi : (exitCode syscall)[n]? = some i) :
    (∃ hn : n < 15, i = .pop (popOrder.get ⟨n, hn⟩)) ∨ n = 15 ∧ i = .add .rsp 16 ∨
      n = 16 ∧ syscall = true ∧ i = .sti ∨ 16 ≤ n ∧ i = .iretq := by
  have hlength : (popOrder.map Instr.pop).length = 15 := rfl
  by_cases hn : n < 15
  · rw [exitCode, List.getElem?_append_left (hlength ▸ hn), List.getElem?_map] at hi
    have hget : popOrder[n]? = some (popOrder.get ⟨n, hn⟩) := List.getElem?_eq_getElem hn
    rw [hget] at hi
    exact .inl ⟨hn, (Option.some.inj hi).symm⟩
  · obtain ⟨j, rfl⟩ := Nat.exists_eq_add_of_le (not_lt.mp hn)
    rw [exitCode, List.getElem?_append_right (hlength ▸ Nat.le_add_right _ _), hlength,
      Nat.add_sub_cancel_left] at hi
    right
    match syscall, j, hi with
    | false, 0, hi => exact .inl ⟨rfl, (Option.some.inj hi).symm⟩
    | false, 1, hi => exact .inr (.inr ⟨le_rfl, (Option.some.inj hi).symm⟩)
    | true, 0, hi => exact .inl ⟨rfl, (Option.some.inj hi).symm⟩
    | true, 1, hi => exact .inr (.inl ⟨rfl, rfl, (Option.some.inj hi).symm⟩)
    | true, 2, hi => exact .inr (.inr ⟨by omega, (Option.some.inj hi).symm⟩)

/-- `rax` is taken first. -/
theorem drop_irqFrame (number w w' : Word) (c : Cpu) {j : ℕ} (hj : 0 < j) :
    (irqFrame number (c.set .rax w)).drop j = (irqFrame number (c.set .rax w')).drop j := by
  obtain ⟨j, rfl⟩ := Nat.exists_eq_succ_of_ne_zero hj.ne'
  rfl

/-- The words that are on the stack belong to the registers that were taken. -/
theorem Midway.stands (h : Midway syscall base c n s.cpu)
    (hmem : MidwayStands s.kernel.kstack syscall base c n) :
    ∃ number w, (syscall = false → w = c.gpr .rax) ∧
      (∀ r ∈ popOrder.take n, s.cpu.gpr r = (c.set .rax w).gpr r) ∧
      Stands s.kernel.kstack (s.cpu.gpr .rsp)
        ((irqFrame number (c.set .rax w)).drop (taken n)) := by
  obtain ⟨number, w, hw, hstands⟩ := hmem
  rw [← h.rsp] at hstands
  cases n with
  | zero => exact ⟨number, w, hw, fun r hr => absurd hr List.not_mem_nil, hstands⟩
  | succ n =>
    obtain ⟨w', hw', hvalues⟩ := h.values
    have htaken : 0 < taken (n + 1) := by
      rw [taken]
      split_ifs <;> omega
    exact ⟨number, w', hw', hvalues, drop_irqFrame number w w' c htaken ▸ hstands⟩

theorem taken_mono {n m : ℕ} (h : n ≤ m) : taken n ≤ taken m := by
  unfold taken
  split_ifs <;> omega

/-- Later fewer words are on the stack. -/
theorem MidwayStands.mono {mem : Word → Word} (h : MidwayStands mem syscall base c n) {m : ℕ}
    (hle : n ≤ m) : MidwayStands mem syscall base c m := by
  obtain ⟨number, w, hw, hstands⟩ := h
  obtain ⟨j, hj⟩ := Nat.exists_eq_add_of_le (taken_mono hle)
  have hdrop := hstands.drop j
  rw [BitVec.add_assoc, ← BitVec.ofNat_add, ← Nat.mul_add, List.drop_drop, ← hj] at hdrop
  exact ⟨number, w, hw, hdrop⟩

/-- An instruction before `iretq`. -/
theorem Midway.exec (h : Midway syscall base c n s.cpu)
    (hmem : MidwayStands s.kernel.kstack syscall base c n) {i : Instr}
    (hi : (exitCode syscall)[n]? = some i) (hne : i ≠ .iretq) :
    Midway syscall base c (n + 1) (s.exec i).cpu ∧ (s.exec i).kernel = s.kernel := by
  obtain ⟨number, w, hw, hvalues, hstands⟩ := h.stands hmem
  rcases exitCode_get syscall hi with ⟨hn, rfl⟩ | ⟨rfl, rfl⟩ | ⟨rfl, -, rfl⟩ | ⟨-, rfl⟩
  · -- a register of the row takes its word
    obtain ⟨r, hr⟩ : ∃ r, r = popOrder.get ⟨n, hn⟩ := ⟨_, rfl⟩
    have hrsp : r ≠ .rsp := fun heq =>
      absurd (heq ▸ hr ▸ List.get_mem popOrder ⟨n, hn⟩) (by decide)
    have hwords : (irqFrame number (c.set .rax w)).drop (taken n) =
        (c.set .rax w).gpr r :: (irqFrame number (c.set .rax w)).drop (n + 1) := by
      have hlength : n < (irqFrame number (c.set .rax w)).length := hn.trans (by decide : 15 < 22)
      rw [taken, if_pos hn.le, List.drop_eq_getElem_cons hlength]
      congr 1
      rw [hr]
      exact (List.getElem_append_left (by simpa [popOrder] using hn)).trans
        (List.getElem_map (c.set .rax w).gpr)
    have htop : s.kernel.kstack (s.cpu.gpr .rsp) = (c.set .rax w).gpr r := (hwords ▸ hstands).1
    have hself : (s.exec (.pop r)).cpu.gpr r = (c.set .rax w).gpr r := by
      rw [← htop, ← BitVec.add_zero (s.cpu.gpr .rsp)]
      exact Cpu.set_self _ _ _
    have hother : ∀ r' ≠ r, r' ≠ .rsp → (s.exec (.pop r)).cpu.gpr r' = s.cpu.gpr r' := by
      intro r' hne' hne''
      exact (Cpu.set_of_ne _ _ hne').trans (Cpu.set_of_ne _ _ hne'')
    rw [← hr]
    refine ⟨⟨?_, ⟨w, hw, fun r' hr' => ?_⟩, h.kernel⟩, rfl⟩
    · have hnext : taken (n + 1) = taken n + 1 := by
        rw [taken, taken, if_pos hn.le, if_pos (by omega)]
      have hset : (s.exec (.pop r)).cpu.gpr .rsp = s.cpu.gpr .rsp + 8 :=
        (Cpu.set_of_ne _ _ hrsp.symm).trans (Cpu.set_self _ _ _)
      rw [hset, h.rsp, hnext, Nat.mul_succ, BitVec.ofNat_add, BitVec.add_assoc]
      rfl
    · by_cases hself' : r' = r
      · rw [hself', hself]
      · rw [List.take_succ_eq_append_getElem hn, List.mem_append, List.mem_singleton] at hr'
        have hbefore := hr'.resolve_right fun heq => hself' (heq.trans hr.symm)
        have hne : r' ≠ .rsp := fun heq =>
          absurd (heq ▸ List.mem_of_mem_take hbefore) (by decide)
        rw [hother r' hself' hne, hvalues r' hbefore]
  · -- the number and the error code are dropped
    have hset : (s.exec (.add .rsp 16)).cpu.gpr =
        Function.update s.cpu.gpr .rsp (s.cpu.gpr .rsp + 16) := rfl
    refine ⟨⟨?_, ⟨w, hw, fun r hr => ?_⟩, h.kernel⟩, rfl⟩
    · rw [hset, Function.update_self, h.rsp, BitVec.add_assoc]
      rfl
    · have hne : r ≠ .rsp := fun heq => absurd (heq ▸ hr) (by decide)
      rw [hset, Function.update_of_ne hne, hvalues r hr]
  · exact ⟨⟨h.rsp, ⟨w, hw, hvalues⟩, h.kernel⟩, rfl⟩
  · exact absurd rfl hne

/-- `iretq`. -/
theorem Midway.iretq (h : Midway syscall base c n s.cpu)
    (hmem : MidwayStands s.kernel.kstack syscall base c n)
    (hi : (exitCode syscall)[n]? = some .iretq) :
    (s.exec .iretq).kernel = s.kernel ∧
      ∃ w, (s.exec .iretq).cpu = c.set .rax w ∧ (syscall = false → w = c.gpr .rax) := by
  have hn : 16 ≤ n := by
    rcases exitCode_get syscall hi with ⟨_, hpop⟩ | ⟨_, hadd⟩ | ⟨_, _, hsti⟩ | ⟨hn, -⟩
    · cases hpop
    · cases hadd
    · cases hsti
    · exact hn
  obtain ⟨number, w, hw, hvalues, hstands⟩ := h.stands hmem
  rw [taken, if_neg (by omega)] at hstands
  have hiretq : Stands s.kernel.kstack (s.cpu.gpr .rsp)
      [c.rip, c.cs, c.rflags, c.gpr .rsp, c.ss] := hstands
  refine ⟨rfl, w, Cpu.ext (funext fun r => ?_) (hiretq.get (i := 0) (by simp))
    (hiretq.get (i := 1) (by simp)) (hiretq.get (i := 2) (by simp))
    (hiretq.get (i := 4) (by simp)), hw⟩
  by_cases hr : r = .rsp
  · subst hr
    exact (Cpu.set_self s.cpu .rsp _).trans (hiretq.get (i := 3) (by simp))
  · have hmem : r ∈ popOrder.take n := by
      rw [List.take_of_length_le ((by decide : popOrder.length ≤ 16).trans hn)]
      cases r <;> simp [popOrder] at hr ⊢
    have hset : (s.exec .iretq).cpu.gpr r = s.cpu.gpr r := Cpu.set_of_ne s.cpu _ hr
    rw [hset, hvalues r hmem]

end Stubs

end KyroOS.Context

import KyroOS.Context.Stack

/-!
# The assembly routines of a switch

`thread_switch` and the routines that new threads start in are lists of instructions. They work
on the registers of the processor, the memory of the kernel stacks and two fields of `thread_t`.

## Main definitions

* `Reg`, `Cpu`, `Core` — the registers, and what the instructions work on
* `Instr`, `run` — the instructions, and what a list of them does
* `threadSwitchCode`, `threadStarter`, `userspaceThreadStarter` — the routines

## Main results

* `run_pushes`, `run_pops` — rows of pushes and of pops
* `run_threadSwitchCode` — what `thread_switch` saves, switches and loads
-/

namespace KyroOS.Context

open KyroOS.Memory KyroOS.Threads

/-! ### The processor -/

/-- The general registers. -/
inductive Reg
  | rax | rbx | rcx | rdx | rsi | rdi | rbp | rsp
  | r8 | r9 | r10 | r11 | r12 | r13 | r14 | r15
  deriving DecidableEq

/-- The registers of a running program. -/
@[ext]
structure Cpu where
  gpr : Reg → Word
  rip : Word
  cs : Word
  rflags : Word
  ss : Word

namespace Cpu

def set (c : Cpu) (r : Reg) (w : Word) : Cpu := { c with gpr := Function.update c.gpr r w }

@[simp] theorem set_self (c : Cpu) (r : Reg) (w : Word) : (c.set r w).gpr r = w := by
  simp [set]

theorem set_of_ne (c : Cpu) {r r' : Reg} (w : Word) (h : r' ≠ r) :
    (c.set r w).gpr r' = c.gpr r' := by
  simp [set, h]

@[simp] theorem set_rip (c : Cpu) (r : Reg) (w : Word) : (c.set r w).rip = c.rip := rfl
@[simp] theorem set_cs (c : Cpu) (r : Reg) (w : Word) : (c.set r w).cs = c.cs := rfl
@[simp] theorem set_rflags (c : Cpu) (r : Reg) (w : Word) : (c.set r w).rflags = c.rflags := rfl
@[simp] theorem set_ss (c : Cpu) (r : Reg) (w : Word) : (c.set r w).ss = c.ss := rfl

end Cpu

/-! ### The status flags -/

def flag (b : Bool) (n : ℕ) : Word := if b then 1#64 <<< n else 0

/-- CF, PF, AF, ZF, SF and OF. -/
def statusMask : Word := 0x8D5

/-- The lowest byte has an even number of ones. -/
def evenParity (w : Word) : Bool := (List.range 8).countP (fun i => w.getLsbD i) % 2 = 0

/-- The status flags for a result. -/
def statusFlags (result : Word) (carry adjust overflow : Bool) : Word :=
  flag carry 0 ||| flag (evenParity result) 2 ||| flag adjust 4 ||| flag (result = 0) 6 |||
    flag result.msb 7 ||| flag overflow 11

def subFlags (a b : Word) : Word :=
  statusFlags (a - b) (a < b) (a.toNat % 16 < b.toNat % 16) (BitVec.ssubOverflow a b)

def addFlags (a b : Word) : Word :=
  statusFlags (a + b) (BitVec.uaddOverflow a b) (16 ≤ a.toNat % 16 + b.toNat % 16)
    (BitVec.saddOverflow a b)

def Cpu.setStatus (c : Cpu) (status : Word) : Cpu :=
  { c with rflags := c.rflags &&& ~~~statusMask ||| status }

/-- The flag ZF. -/
def Cpu.zf (c : Cpu) : Bool := c.rflags.getLsbD 6

@[simp] theorem Cpu.setStatus_gpr (c : Cpu) (status : Word) :
    (c.setStatus status).gpr = c.gpr := rfl

theorem getLsbD_flag (b : Bool) {n i : ℕ} (hn : n < 64) :
    (flag b n).getLsbD i = (b && decide (i = n)) := by
  unfold flag
  cases b with
  | false => simp
  | true =>
    by_cases h : i = n
    · subst h
      simp [hn]
    · simp [BitVec.getLsbD_shiftLeft, h]
      omega

/-- A comparison sets ZF for equal numbers. -/
theorem zf_subFlags (c : Cpu) (a b : Word) : (c.setStatus (subFlags a b)).zf = decide (a = b) := by
  have hzero : a - b = 0 ↔ a = b := by
    constructor
    · intro h
      have hback := congrArg (· + b) h
      simpa [BitVec.sub_add_cancel] using hback
    · rintro rfl
      exact BitVec.sub_self a
  have hmask : (~~~statusMask : Word).getLsbD 6 = false := by decide
  rw [Cpu.zf, Cpu.setStatus, BitVec.getLsbD_or, BitVec.getLsbD_and, hmask, Bool.and_false,
    Bool.false_or, subFlags, statusFlags]
  simp (disch := decide) only [BitVec.getLsbD_or, getLsbD_flag, hzero]
  simp

/-! ### Instructions -/

/-- What the routines work on. -/
structure Core where
  cpu : Cpu
  kernel : Kernel

/-- The instructions of the routines. The offsets of `load` and `store` are into a `thread_t`, and
a jump is given by the number of instructions that it skips. -/
inductive Instr
  | push (r : Reg)
  | pushImm (w : Word)
  | pop (r : Reg)
  | mov (dst src : Reg)
  | load (dst base : Reg) (offset : ℕ)
  | store (base : Reg) (offset : ℕ) (src : Reg)
  /-- `mov dst, [rel kernel_hhdm_offset]`. -/
  | loadHhdm (dst : Reg)
  | movCr3 (src : Reg)
  | add (dst : Reg) (w : Word)
  | sub (dst src : Reg)
  | cmp (r r' : Reg)
  | je (skip : ℕ)
  | cli
  | sti
  | ret
  | iretq

namespace Core

/-- `push` of a word. -/
def push (s : Core) (w : Word) : Core where
  cpu := s.cpu.set .rsp (s.cpu.gpr .rsp - 8)
  kernel := { s.kernel with kstack := Function.update s.kernel.kstack (s.cpu.gpr .rsp - 8) w }

/-- The word at the top of the stack, `n` words deep. -/
def stackWord (s : Core) (n : ℕ) : Word :=
  s.kernel.kstack (s.cpu.gpr .rsp + BitVec.ofNat 64 (8 * n))

def exec (s : Core) : Instr → Core
  | .push r => s.push (s.cpu.gpr r)
  | .pushImm w => s.push w
  | .pop r => { s with cpu := (s.cpu.set .rsp (s.cpu.gpr .rsp + 8)).set r (s.stackWord 0) }
  | .mov dst src => { s with cpu := s.cpu.set dst (s.cpu.gpr src) }
  | .load dst base offset =>
    { s with cpu := s.cpu.set dst (((s.kernel.thread (s.cpu.gpr base)).load offset).getD 0) }
  | .store base offset src =>
    { s with kernel := s.kernel.setThread (s.cpu.gpr base) fun t =>
        (t.store offset (s.cpu.gpr src)).getD t }
  | .loadHhdm dst => { s with cpu := s.cpu.set dst s.kernel.vmm.hhdm }
  | .movCr3 src => { s with kernel := { s.kernel with cr3 := s.cpu.gpr src } }
  | .add dst w =>
    let c := s.cpu.setStatus (addFlags (s.cpu.gpr dst) w)
    { s with cpu := c.set dst (s.cpu.gpr dst + w) }
  | .sub dst src =>
    let c := s.cpu.setStatus (subFlags (s.cpu.gpr dst) (s.cpu.gpr src))
    { s with cpu := c.set dst (s.cpu.gpr dst - s.cpu.gpr src) }
  | .cmp r r' => { s with cpu := s.cpu.setStatus (subFlags (s.cpu.gpr r) (s.cpu.gpr r')) }
  | .je _ => s
  | .cli => { s with cpu := { s.cpu with rflags := s.cpu.rflags &&& ~~~0x200#64 } }
  | .sti => { s with cpu := { s.cpu with rflags := s.cpu.rflags ||| 0x200#64 } }
  | .ret =>
    { s with cpu := { s.cpu.set .rsp (s.cpu.gpr .rsp + 8) with rip := s.stackWord 0 } }
  | .iretq =>
    { s with cpu :=
      { s.cpu.set .rsp (s.stackWord 3) with
        rip := s.stackWord 0
        cs := s.stackWord 1
        rflags := s.stackWord 2
        ss := s.stackWord 4 } }

/-- The number of instructions that are jumped over after this one. -/
def skips (s : Core) : Instr → ℕ
  | .je skip => if s.cpu.zf then skip else 0
  | _ => 0

end Core

/-- A list of instructions, of which the first `skip` are jumped over. -/
def run : List Instr → ℕ → Core → Core
  | [], _, s => s
  | _ :: code, skip + 1, s => run code skip s
  | i :: code, 0, s => run code (s.skips i) (s.exec i)

/-! ### The routines -/

/-- The registers that `thread_switch` pushes, in their order, and pops. -/
def savedOrder : List Reg := [.rbp, .rbx, .r12, .r13, .r14, .r15]
def restoredOrder : List Reg := [.r15, .r14, .r13, .r12, .rbx, .rbp]

/-- The instructions of `thread_switch` from the saved stack pointer to the jump. -/
def compareSpaces : List Instr :=
  [.store .rdi 32 .rsp, .load .rax .rdi 40, .load .rbx .rsi 40, .cmp .rax .rbx, .je 3]

/-- Those from there to the new stack pointer. -/
def loadSpace : List Instr :=
  [.loadHhdm .rcx, .sub .rbx .rcx, .movCr3 .rbx, .load .rsp .rsi 32]

/-- The end of `thread_switch`. -/
def resumeCode : List Instr := restoredOrder.map Instr.pop ++ [Instr.ret]

/-- `thread_switch`. -/
def threadSwitchCode : List Instr :=
  savedOrder.map Instr.push ++ (compareSpaces ++ (loadSpace ++ resumeCode))

/-- `userspace_thread_starter`. -/
def userspaceThreadStarter : List Instr := [.mov .rdi .rbx, .mov .rsi .r12, .iretq]

/-- `thread_starter`, up to its call of `thread_entry`. -/
def threadStarter : List Instr := [.pop .rdi, .pop .rsi]

/-! ### Rows of pushes and pops -/

namespace Core

/-- Pushing words. -/
def pushWords (s : Core) (ws : List Word) : Core where
  cpu := s.cpu.set .rsp (pushAll s.kernel.kstack (s.cpu.gpr .rsp) ws).2
  kernel := { s.kernel with kstack := (pushAll s.kernel.kstack (s.cpu.gpr .rsp) ws).1 }

theorem pushWords_append (s : Core) (ws ws' : List Word) :
    (s.pushWords ws).pushWords ws' = s.pushWords (ws ++ ws') := by
  have hsp : (s.pushWords ws).cpu.gpr .rsp =
      (pushAll s.kernel.kstack (s.cpu.gpr .rsp) ws).2 := Cpu.set_self _ _ _
  have hmem : (s.pushWords ws).kernel.kstack =
      (pushAll s.kernel.kstack (s.cpu.gpr .rsp) ws).1 := rfl
  rw [pushWords, hsp, hmem, pushWords, pushWords, pushAll_append]
  simp [Cpu.set]

@[simp] theorem pushWords_rsp (s : Core) (ws : List Word) : (s.pushWords ws).cpu.gpr .rsp =
    (pushAll s.kernel.kstack (s.cpu.gpr .rsp) ws).2 :=
  Cpu.set_self _ _ _

theorem pushWords_gpr (s : Core) (ws : List Word) {r : Reg} (hr : r ≠ .rsp) :
    (s.pushWords ws).cpu.gpr r = s.cpu.gpr r :=
  Cpu.set_of_ne _ _ hr

end Core

/-- Code without a jump is run instruction by instruction. -/
theorem run_append (code code' : List Instr) (hcode : ∀ i ∈ code, ∀ n, i ≠ .je n)
    (s : Core) : run (code ++ code') 0 s = run code' 0 (code.foldl Core.exec s) := by
  induction code generalizing s with
  | nil => rfl
  | cons i code ih =>
    have hrest := ih (fun j hj => hcode j (List.mem_cons_of_mem i hj)) (s.exec i)
    have hi := hcode i List.mem_cons_self
    cases i
    case je n => exact absurd rfl (hi n)
    all_goals exact hrest

/-- A row of pushes of registers. -/
theorem run_pushes (regs : List Reg) (hregs : .rsp ∉ regs) (s : Core) :
    (regs.map Instr.push).foldl Core.exec s = s.pushWords (regs.map s.cpu.gpr) := by
  induction regs generalizing s with
  | nil => simp [Core.pushWords, pushAll, Cpu.set]
  | cons r regs ih =>
    rw [List.mem_cons, not_or] at hregs
    have hsame : regs.map (s.exec (.push r)).cpu.gpr = regs.map s.cpu.gpr :=
      List.map_congr_left fun r' hr' =>
        Core.pushWords_gpr s [s.cpu.gpr r] fun heq => hregs.2 (heq ▸ hr')
    rw [List.map_cons, List.foldl_cons, ih hregs.2, hsame]
    exact Core.pushWords_append s [s.cpu.gpr r] _

/-- From `s` to `s'` the registers of the row were popped: they have the words that stood at the
stack pointer, and only they and the stack pointer changed. -/
structure Popped (regs : List Reg) (s s' : Core) : Prop where
  kernel : s'.kernel = s.kernel
  rsp : s'.cpu.gpr .rsp = s.cpu.gpr .rsp + BitVec.ofNat 64 (8 * regs.length)
  values : ∀ v : Reg → Word, Stands s.kernel.kstack (s.cpu.gpr .rsp) (regs.map v) →
    ∀ r ∈ regs, s'.cpu.gpr r = v r
  others : ∀ r ∉ regs, r ≠ .rsp → s'.cpu.gpr r = s.cpu.gpr r
  rip : s'.cpu.rip = s.cpu.rip
  cs : s'.cpu.cs = s.cpu.cs
  rflags : s'.cpu.rflags = s.cpu.rflags
  ss : s'.cpu.ss = s.cpu.ss

/-- A row of pops of different registers. -/
theorem run_pops (regs : List Reg) (hregs : .rsp ∉ regs) (hnodup : regs.Nodup) (s : Core) :
    Popped regs s ((regs.map Instr.pop).foldl Core.exec s) := by
  induction regs generalizing s with
  | nil =>
    exact ⟨rfl, by simp, fun _ _ _ h => absurd h List.not_mem_nil, fun _ _ _ => rfl, rfl, rfl, rfl,
      rfl⟩
  | cons r regs ih =>
    rw [List.mem_cons, not_or] at hregs
    rw [List.nodup_cons] at hnodup
    have hrest := ih hregs.2 hnodup.2 (s.exec (.pop r))
    have hrsp : (s.exec (.pop r)).cpu.gpr .rsp = s.cpu.gpr .rsp + 8 := by
      show ((s.cpu.set .rsp _).set r _).gpr .rsp = _
      rw [Cpu.set_of_ne _ _ hregs.1, Cpu.set_self]
    have hr : (s.exec (.pop r)).cpu.gpr r = s.kernel.kstack (s.cpu.gpr .rsp) := by
      show ((s.cpu.set .rsp _).set r _).gpr r = _
      rw [Cpu.set_self, Core.stackWord, Nat.mul_zero, BitVec.add_zero]
    have hothers : ∀ r' ≠ r, r' ≠ .rsp → (s.exec (.pop r)).cpu.gpr r' = s.cpu.gpr r' := by
      intro r' hne hne'
      show ((s.cpu.set .rsp _).set r _).gpr r' = _
      rw [Cpu.set_of_ne _ _ hne, Cpu.set_of_ne _ _ hne']
    rw [List.map_cons, List.foldl_cons]
    refine ⟨hrest.kernel, ?_, fun v hv r' hr' => ?_, fun r' hr' hne => ?_, hrest.rip, hrest.cs,
      hrest.rflags, hrest.ss⟩
    · rw [hrest.rsp, hrsp, List.length_cons]
      exact add_eight_add _ _
    · rcases List.mem_cons.mp hr' with rfl | hmem
      · rw [hrest.others _ hnodup.1 (Ne.symm hregs.1), hr]
        exact hv.1
      · refine hrest.values v ?_ r' hmem
        rw [hrsp]
        exact hv.2
    · rw [List.mem_cons, not_or] at hr'
      rw [hrest.others r' hr'.2 hne, hothers r' hr'.1 hne]

/-! ### The switch -/

/-- From `c` to `c'` the processor took the registers and the return address from the stack at
`sp`. -/
structure Resumed (mem : Word → Word) (sp : Word) (c c' : Cpu) : Prop where
  values : ∀ (v : Reg → Word) (back : Word), Stands mem sp (restoredOrder.map v ++ [back]) →
    (∀ r ∈ restoredOrder, c'.gpr r = v r) ∧ c'.rip = back
  rsp : c'.gpr .rsp = sp + 56
  cs : c'.cs = c.cs
  ss : c'.ss = c.ss

/-- The pops and the `ret` at the end of `thread_switch`. -/
theorem run_resume (s : Core) :
    (run resumeCode 0 s).kernel = s.kernel ∧
      Resumed s.kernel.kstack (s.cpu.gpr .rsp) s.cpu (run resumeCode 0 s).cpu := by
  have hpops := run_pops restoredOrder (by decide) (by decide) s
  rw [resumeCode, run_append _ _ (by simp)]
  obtain ⟨u, hu⟩ : ∃ u, u = (restoredOrder.map Instr.pop).foldl Core.exec s := ⟨_, rfl⟩
  rw [← hu] at hpops ⊢
  have hret : run [.ret] 0 u = u.exec .ret := rfl
  have hrsp : u.cpu.gpr .rsp = s.cpu.gpr .rsp + 48 := hpops.rsp
  rw [hret]
  refine ⟨hpops.kernel, fun v back hv => ⟨fun r hr => ?_, ?_⟩, ?_, hpops.cs, hpops.ss⟩
  · have hne : r ≠ .rsp := by
      rintro rfl
      exact absurd hr (by decide)
    have hsame : (u.exec .ret).cpu.gpr r = u.cpu.gpr r := Cpu.set_of_ne _ _ hne
    rw [hsame]
    exact hpops.values v (stands_append.mp hv).1 r hr
  · have hback := (stands_append.mp hv).2.1
    show u.stackWord 0 = back
    rw [Core.stackWord, hpops.kernel, hrsp, Nat.mul_zero, BitVec.add_zero]
    exact hback
  · show (u.cpu.set .rsp (u.cpu.gpr .rsp + 8)).gpr .rsp = _
    rw [Cpu.set_self, hrsp, BitVec.add_assoc]
    rfl

/-- Between its pushes and its pops `thread_switch` does to the kernel what `threadSwitch` says, and
takes the stack of the new thread. -/
theorem run_switchMiddle (s : Core) {old new : Word} (hrdi : s.cpu.gpr .rdi = old)
    (hrsi : s.cpu.gpr .rsi = new) (hne : new ≠ old) (code : List Instr) :
    ∃ u, run (compareSpaces ++ (loadSpace ++ code)) 0 s = run code 0 u ∧
      u.kernel = threadSwitch s.kernel old new (s.cpu.gpr .rsp) ∧
      u.cpu.gpr .rsp = (s.kernel.thread new).rsp ∧
      u.cpu.cs = s.cpu.cs ∧ u.cpu.ss = s.cpu.ss := by
  subst hrdi hrsi
  obtain ⟨k, hk⟩ : ∃ k, k = s.kernel.setThread (s.cpu.gpr .rdi) fun t =>
      { t with rsp := s.cpu.gpr .rsp } := ⟨_, rfl⟩
  have hnew : (k.thread (s.cpu.gpr .rsi)).rsp = (s.kernel.thread (s.cpu.gpr .rsi)).rsp := by
    rw [hk, setThread_of_ne _ _ hne]
  obtain ⟨c, hc⟩ : ∃ c : Cpu, c = (((s.cpu.set .rax (k.thread (s.cpu.gpr .rdi)).pml4).set .rbx
      (k.thread (s.cpu.gpr .rsi)).pml4).setStatus
        (subFlags (k.thread (s.cpu.gpr .rdi)).pml4 (k.thread (s.cpu.gpr .rsi)).pml4)) :=
    ⟨_, rfl⟩
  have hrun : ∀ rest, run (compareSpaces ++ rest) 0 s =
      run rest (if c.zf then 3 else 0) ⟨c, k⟩ := by
    intro rest
    subst hc hk
    rfl
  have hzf : c.zf =
      decide ((k.thread (s.cpu.gpr .rdi)).pml4 = (k.thread (s.cpu.gpr .rsi)).pml4) := by
    rw [hc, zf_subFlags]
  have hrsi : c.gpr .rsi = s.cpu.gpr .rsi := by
    subst hc
    rfl
  have hrbx : c.gpr .rbx = (k.thread (s.cpu.gpr .rsi)).pml4 := by
    subst hc
    rfl
  have hseg : c.cs = s.cpu.cs ∧ c.ss = s.cpu.ss := by
    subst hc
    exact ⟨rfl, rfl⟩
  have hswitch : threadSwitch s.kernel (s.cpu.gpr .rdi) (s.cpu.gpr .rsi) (s.cpu.gpr .rsp) =
      if (k.thread (s.cpu.gpr .rdi)).pml4 = (k.thread (s.cpu.gpr .rsi)).pml4 then k
      else { k with cr3 := k.vmm.virtToPhys (k.thread (s.cpu.gpr .rsi)).pml4 } := by
    subst hk
    rfl
  by_cases hsame : (k.thread (s.cpu.gpr .rdi)).pml4 = (k.thread (s.cpu.gpr .rsi)).pml4
  · -- the jump leaves CR3 as it is
    have hjump : c.zf = true := hzf.trans (decide_eq_true hsame)
    refine ⟨Core.exec ⟨c, k⟩ (.load .rsp .rsi 32), ?_, ?_, ?_, hseg⟩
    · refine (hrun _).trans ?_
      rw [if_pos hjump]
      rfl
    · rw [hswitch, if_pos hsame]
      rfl
    · rw [← hnew, ← hrsi]
      exact Cpu.set_self c _ _
  · have hjump : ¬ c.zf = true := by
      rw [hzf, decide_eq_true_eq]
      exact hsame
    refine ⟨loadSpace.foldl Core.exec ⟨c, k⟩, ?_, ?_, ?_, hseg⟩
    · refine (hrun _).trans ?_
      rw [if_neg hjump]
      rfl
    · rw [hswitch, if_neg hsame, ← hrbx]
      rfl
    · rw [← hnew, ← hrsi]
      rfl

/-- The memory of the stacks is none of what `threadSwitch` reads. -/
theorem threadSwitch_kstack (k : Kernel) (mem : Word → Word) (old new rsp : Word) :
    threadSwitch { k with kstack := mem } old new rsp =
      { threadSwitch k old new rsp with kstack := mem } := by
  unfold threadSwitch
  dsimp only [Kernel.setThread]
  split_ifs <;> rfl

/-- The words that `thread_switch` pushes. -/
def savedWords (c : Cpu) : List Word := savedOrder.map c.gpr

/-- `thread_switch` saves the registers of the old thread on its stack and the stack pointer in its
record, loads CR3 when the address spaces differ, and takes the registers from the stack of the
new thread. -/
theorem run_threadSwitchCode (s : Core) {old new : Word} (hrdi : s.cpu.gpr .rdi = old)
    (hrsi : s.cpu.gpr .rsi = new) (hne : new ≠ old) :
    let pushed := pushAll s.kernel.kstack (s.cpu.gpr .rsp) (savedWords s.cpu)
    (run threadSwitchCode 0 s).kernel =
        { threadSwitch s.kernel old new pushed.2 with kstack := pushed.1 } ∧
      Resumed pushed.1 (s.kernel.thread new).rsp s.cpu (run threadSwitchCode 0 s).cpu := by
  intro pushed
  have hregs : ∀ r, r ≠ .rsp → (s.pushWords (savedWords s.cpu)).cpu.gpr r = s.cpu.gpr r :=
    fun r hr => Core.pushWords_gpr s _ hr
  obtain ⟨u, hmiddle, hkernel, hrsp, hcs, hss⟩ :=
    run_switchMiddle (s.pushWords (savedWords s.cpu))
      ((hregs .rdi (by decide)).trans hrdi) ((hregs .rsi (by decide)).trans hrsi) hne resumeCode
  obtain ⟨hresume, hresumed⟩ := run_resume u
  have hrun : run threadSwitchCode 0 s = run resumeCode 0 u := by
    rw [threadSwitchCode, run_append _ _ (by simp), run_pushes _ (by decide)]
    exact hmiddle
  have hu : u.kernel = { threadSwitch s.kernel old new pushed.2 with kstack := pushed.1 } := by
    rw [hkernel, Core.pushWords_rsp]
    exact threadSwitch_kstack _ _ _ _ _
  rw [hrun, hresume]
  refine ⟨hu, ?_⟩
  rw [hu, hrsp] at hresumed
  exact ⟨hresumed.values, hresumed.rsp, hresumed.cs.trans hcs, hresumed.ss.trans hss⟩

end KyroOS.Context

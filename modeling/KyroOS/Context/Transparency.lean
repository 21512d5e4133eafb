import KyroOS.Context.FirstDispatch
import KyroOS.Context.MachineSteps

/-!
# Switches and interrupts are transparent

Between the switch away from a thread and the next switch to it nothing on its stack changes, and
while an interrupt of a thread has not returned, its frame stays where it is, whatever is saved
below it in the meantime.

## Main definitions

* `FramesChange` — what a step does to what is saved on a stack
* `Away`, `Inside` — a thread is not switched to; an interrupt of a thread has not returned
* `ComesBack`, `Transparent` — what a switch and an interrupt give back

## Main results

* `frames_step`, `frames_away` — what is saved on a stack changes at its top only, and not at all
  while the thread is away
* `ComesBack.of_away`, `cpu_of_inside` — a thread goes on with its registers
* `transparent_of_reachable` — this holds in every run
* `not_cr3_current` — CR3 when `schedule` has selected a thread of another address space
-/

namespace KyroOS.Context

open KyroOS.Memory KyroOS.Threads KyroOS.Process Transition

/-! ### What a run gives back -/

/-- The thread is there, and this step is not a switch to it. -/
def Away (p : Word) (m : Machine) (e : MachineEvent) : Prop :=
  p ∈ m.core.kernel.live ∧ ∀ c back, e = .switch c back → m.core.kernel.currentThread ≠ p

/-- The thread is there, and has more than `n` calls and interrupts saved. -/
def Inside (p : Word) (n : ℕ) (m : Machine) (_ : MachineEvent) : Prop :=
  p ∈ m.core.kernel.live ∧ n < (m.frames p).length

/-- After a call of `thread_switch`, made with the registers `c` and to return to `back`, the
thread goes on with the registers `c'`. -/
structure ComesBack (c : Cpu) (back : Word) (c' : Cpu) : Prop where
  saved : ∀ r ∈ savedOrder, c'.gpr r = c.gpr r
  /-- The return address is off the stack. -/
  rsp : c'.gpr .rsp = c.gpr .rsp + 8
  rip : c'.rip = back

/-- CR3 is that of the running thread. A call of `thread_switch` made in this state comes back at
the next switch to its thread, and an interrupt in this state returns with its registers. -/
structure Transparent (boot : ℕ × ℕ) (m : Machine) : Prop where
  cr3 : m.core.kernel.cr3 =
    m.core.kernel.vmm.virtToPhys (m.core.kernel.thread m.running).pml4
  running : m.leaving = none → m.running = m.core.kernel.currentThread
  switch : ∀ {c c' : Cpu} {back back' : Word} {m₁ m₂ m₃ : Machine},
    MachineStep boot m (.switch c back) m₁ →
    (machineSystem boot).RunsTo (Away m.running) m₁ m₂ →
    MachineStep boot m₂ (.switch c' back') m₃ → m₂.core.kernel.currentThread = m.running →
      ComesBack c back m₃.core.cpu
  interrupt : ∀ {syscall : Bool} {m₁ m₂ m₃ : Machine},
    MachineStep boot m (.interrupt syscall) m₁ →
    (machineSystem boot).RunsTo (Inside m.running (m.frames m.running).length) m₁ m₂ →
    MachineStep boot m₂ .return m₃ → m₂.running = m.running →
    (m₃.frames m.running).length = (m.frames m.running).length →
      (∃ w, m₃.core.cpu = m.core.cpu.set .rax w) ∧
        (syscall = false → m₃.core.cpu = m.core.cpu)

/-! ### What a step does to the frames -/

/-- From one list of frames to the next one. -/
inductive FramesChange : List Frame → List Frame → Prop
  | same (fs : List Frame) : FramesChange fs fs
  | push (f : Frame) (fs : List Frame) : FramesChange fs (f :: fs)
  /-- An instruction of the way back. -/
  | exit (syscall : Bool) (base : Word) (c : Cpu) (n : ℕ) (fs : List Frame) :
    FramesChange (.interrupted syscall base c n :: fs) (.interrupted syscall base c (n + 1) :: fs)
  | pop (f : Frame) (fs : List Frame) : FramesChange (f :: fs) fs

section

variable {boot : ℕ × ℕ} {m m' m₁ m₂ m₃ : Machine} {p base back back' : Word} {c c' : Cpu}
  {n : ℕ} {e : MachineEvent} {f : Frame} {fs fs' rest : List Frame} {syscall : Bool}

/-- What a step does to the frames of the running thread, if they change. -/
theorem framesChange_update {r : Word} (hp : p = r → FramesChange (m.frames r) fs) :
    FramesChange (m.frames p) (Function.update m.frames r fs p) := by
  by_cases hpr : p = r
  · subst hpr
    rw [Function.update_self]
    exact hp rfl
  · rw [Function.update_of_ne hpr]
    exact .same _

theorem frames_step (h : MachineInv boot m) (hp : p ∈ m.core.kernel.live)
    (hstep : MachineStep boot m e m') : FramesChange (m.frames p) (m'.frames p) := by
  cases hstep with
  | work | setState | schedule | select => exact .same _
  | createKernel _ hc _ | createUser _ hc _ =>
    exact framesChange_update fun hpb => absurd (hpb ▸ hp) hc.fresh
  | interrupt _ _ _ _ => exact framesChange_update fun _ => .push _ _
  | exit _ hframes _ _ _ => exact framesChange_update fun _ => hframes ▸ .exit _ _ _ _ _
  | «return» _ hframes _ => exact framesChange_update fun _ => hframes ▸ .pop _ _
  | switch hleaving _ _ _ _ _ =>
    have hne := (h.leaving _ hleaving).1
    by_cases hpn : p = m.core.kernel.currentThread
    · subst hpn
      have hself : ∀ g : Word → List Frame, Function.update g m.core.kernel.currentThread
          (m.frames m.core.kernel.currentThread).tail m.core.kernel.currentThread =
            (m.frames m.core.kernel.currentThread).tail := fun g => Function.update_self _ _ _
      dsimp only
      rw [hself]
      cases m.frames m.core.kernel.currentThread with
      | nil => exact .same _
      | cons f fs => exact .pop f fs
    · dsimp only
      rw [Function.update_of_ne hpn]
      exact framesChange_update fun hpo => hpo ▸ .push _ _

/-- No routine changes which thread is the current one. -/
theorem run_currentThread (code : List Instr) (skip : ℕ) (s : Core) :
    (run code skip s).kernel.currentThread = s.kernel.currentThread := by
  induction code generalizing skip s with
  | nil => rfl
  | cons i code ih =>
    cases skip with
    | zero =>
      refine (ih _ _).trans ?_
      cases i <;> rfl
    | succ skip => exact ih _ _

/-- A thread that is away stays away, with what it has saved. -/
theorem frames_away (hp : p ≠ m.running) (haway : Away p m e) (hstep : MachineStep boot m e m') :
    m'.frames p = m.frames p ∧ p ≠ m'.running := by
  obtain ⟨hlive, hswitch⟩ := haway
  have hother : ∀ fs, Function.update m.frames m.running fs p = m.frames p := fun fs =>
    Function.update_of_ne hp _ _
  have hgoes : m.leaving = none → m'.leaving = none →
      m'.core.kernel.currentThread = m.core.kernel.currentThread → p ≠ m'.running := by
    intro hbefore hafter hcurrent
    rwa [running_of_none hafter, hcurrent, ← running_of_none hbefore]
  cases hstep with
  | work hwork hw _ _ _ => exact ⟨rfl, hgoes hwork.1 hwork.1 hw.currentThread⟩
  | setState hwork hs => exact ⟨rfl, hgoes hwork.1 hwork.1 hs.sameThreads.1.currentThread⟩
  | createKernel hwork hc _ =>
    have hne := ne_of_mem_of_not_mem hlive hc.fresh
    exact ⟨Function.update_of_ne hne _ _, hgoes hwork.1 rfl hc.builds.currentThread⟩
  | createUser hwork hc _ =>
    have hne := ne_of_mem_of_not_mem hlive hc.fresh
    exact ⟨Function.update_of_ne hne _ _, hgoes hwork.1 rfl hc.builds.currentThread⟩
  | interrupt hleaving _ _ _ => exact ⟨hother _, hgoes hleaving rfl (run_currentThread _ _ _)⟩
  | @exit _ _ _ _ _ i hleaving _ _ _ _ =>
    exact ⟨hother _, hgoes hleaving rfl (run_currentThread [i] 0 m.core)⟩
  | «return» hleaving _ _ => exact ⟨hother _, hgoes hleaving rfl rfl⟩
  | schedule hwork _ hok =>
    exact ⟨rfl, hgoes hwork.1 hwork.1 (sameThreads_of_schedule hok).1.currentThread⟩
  | select hwork _ hok =>
    refine ⟨rfl, ?_⟩
    rw [running_of_none hwork.1, ← (schedule_some hok).1] at hp
    exact hp
  | switch hleaving _ _ _ _ _ =>
    have hne := (hswitch _ _ rfl).symm
    rw [Machine.running, hleaving, Option.getD_some] at hp
    refine ⟨(Function.update_of_ne hne _ _).trans (Function.update_of_ne hp _ _), ?_⟩
    rwa [running_of_none rfl, run_currentThread]

/-- Along a run during which the thread is away. -/
theorem frames_of_away (h : MachineInv boot m) (hp : p ≠ m.running)
    (hrun : (machineSystem boot).RunsTo (Away p) m m') :
    MachineInv boot m' ∧ m'.frames p = m.frames p ∧ p ≠ m'.running := by
  refine hrun.preserves (I := fun m' => MachineInv boot m' ∧ m'.frames p = m.frames p ∧
    p ≠ m'.running) (fun m₁ e m₂ hI haway hstep => ?_) ⟨h, rfl, hp⟩
  obtain ⟨hinv, hframes, hne⟩ := hI
  obtain ⟨hsame, hne'⟩ := frames_away hne haway hstep
  exact ⟨hinv.step hstep, hsame.trans hframes, hne'⟩

/-! ### Switched away and back -/

/-- A switch to a thread takes from its stack what it saved there. -/
theorem MachineInv.comesBack (h : MachineInv boot m) (hne : m.core.kernel.currentThread ≠ m.running)
    (hframes : m.frames m.core.kernel.currentThread = .switched c back :: rest)
    (hstep : MachineStep boot m (.switch c' back') m') : ComesBack c back m'.core.cpu := by
  cases hstep with
  | @switch old _ mem hleaving hkernel hrdi hrsi hown hroom =>
    have hpushed := h.frames_pushed hown hroom h.current hne
    rw [hframes] at hpushed
    have hsp : (m.core.kernel.thread m.core.kernel.currentThread).rsp = c.gpr .rsp - 48 := by
      rcases h.saved _ h.current hne with hnil | ⟨c₁, back₁, rest₁, hsaved, hrsp⟩
      · exact absurd (hframes.symm.trans hnil) (List.cons_ne_nil _ _)
      · obtain ⟨hframe, -⟩ := List.cons.inj (hframes.symm.trans hsaved)
        injection hframe with hc _
        rw [hrsp, hc]
    obtain ⟨-, hresumed⟩ := run_threadSwitchCode ⟨c', { m.core.kernel with kstack := mem }⟩
      hrdi hrsi (h.leaving old hleaving).1.symm
    have hstands : Stands (pushAll mem (c'.gpr .rsp) (savedWords c')).1
        (m.core.kernel.thread m.core.kernel.currentThread).rsp
        (restoredOrder.map c.gpr ++ [back]) := hsp ▸ hpushed.1
    obtain ⟨hvalues, hrip⟩ := hresumed.values c.gpr back hstands
    refine ⟨fun r hr => hvalues r ?_, ?_, hrip⟩
    · revert hr
      cases r <;> decide
    · refine hresumed.rsp.trans ?_
      show (m.core.kernel.thread m.core.kernel.currentThread).rsp + 56 = _
      rw [hsp]
      bv_omega

/-- The current thread runs after a switch, and the other one has saved its registers. -/
theorem MachineInv.leaves (h : MachineInv boot m) (hstep : MachineStep boot m (.switch c back) m') :
    m'.running = m.core.kernel.currentThread ∧ m.running ≠ m.core.kernel.currentThread ∧
      m'.frames m.running = .switched c back :: m.frames m.running := by
  cases hstep with
  | @switch old _ mem hleaving _ _ _ _ _ =>
    have hold : m.running = old := by rw [Machine.running, hleaving, Option.getD_some]
    have hne := (h.leaving old hleaving).1
    refine ⟨?_, hold ▸ hne, ?_⟩
    · simp only [Machine.running, Option.getD_none, run_currentThread]
    · rw [hold]
      exact (Function.update_of_ne hne _ _).trans (Function.update_self _ _ _)

/-- A thread that leaves comes back at the next switch to it. -/
theorem ComesBack.of_away (h : MachineInv boot m) (hout : MachineStep boot m (.switch c back) m₁)
    (hrun : (machineSystem boot).RunsTo (Away m.running) m₁ m₂)
    (hin : MachineStep boot m₂ (.switch c' back') m₃)
    (hback : m₂.core.kernel.currentThread = m.running) : ComesBack c back m₃.core.cpu := by
  obtain ⟨hgone, hother, hsaved⟩ := h.leaves hout
  obtain ⟨hinv, hframes, hne⟩ := frames_of_away (h.step hout) (hgone ▸ hother) hrun
  rw [← hback] at hframes hne hsaved
  exact hinv.comesBack hne (hframes.trans hsaved) hin

/-! ### Interrupted and returned -/

/-- The frame of an interrupt is there as long as there are more frames than there were before. -/
theorem FramesChange.under (hchange : FramesChange fs fs') (hlength : rest.length < fs'.length)
    (h : ∃ upper n, fs = upper ++ .interrupted syscall base c n :: rest) :
    ∃ upper n, fs' = upper ++ .interrupted syscall base c n :: rest := by
  obtain ⟨upper, n, hfs⟩ := h
  cases hchange with
  | same => exact ⟨upper, n, hfs⟩
  | push f => exact ⟨f :: upper, n, congrArg (f :: ·) hfs⟩
  | exit syscall' base' c' n' fs =>
    cases upper with
    | nil =>
      obtain ⟨hframe, hrest⟩ := List.cons.inj hfs
      injection hframe with hsyscall hbase hc _
      exact ⟨[], n' + 1, by rw [hsyscall, hbase, hc, hrest]; rfl⟩
    | cons f upper =>
      obtain ⟨-, hrest⟩ := List.cons.inj hfs
      exact ⟨.interrupted syscall' base' c' (n' + 1) :: upper, n, by rw [hrest]; rfl⟩
  | pop f fs =>
    cases upper with
    | nil =>
      obtain ⟨-, rfl⟩ := List.cons.inj hfs
      exact absurd hlength (lt_irrefl _)
    | cons f upper => exact ⟨upper, n, (List.cons.inj hfs).2⟩

/-- Along a run before the interrupt has returned. -/
theorem frames_of_inside (h : MachineInv boot m)
    (hframes : m.frames p = .interrupted syscall base c 0 :: rest)
    (hrun : (machineSystem boot).RunsTo (Inside p rest.length) m m')
    (hlength : rest.length < (m'.frames p).length) :
    MachineInv boot m' ∧ ∃ upper n, m'.frames p = upper ++ .interrupted syscall base c n :: rest := by
  have hall := hrun.preserves (I := fun m' => MachineInv boot m' ∧
    (rest.length < (m'.frames p).length →
      ∃ upper n, m'.frames p = upper ++ .interrupted syscall base c n :: rest))
    (fun m₁ e m₂ hI hinside hstep => ?_) ⟨h, fun _ => ⟨[], 0, hframes⟩⟩
  · exact ⟨hall.1, hall.2 hlength⟩
  · obtain ⟨hinv, hunder⟩ := hI
    exact ⟨hinv.step hstep, fun hafter =>
      (frames_step hinv hinside.1 hstep).under hafter (hunder hinside.2)⟩

/-- An interrupt returns with the registers that it found, a system call with another `rax`. -/
theorem cpu_of_inside (h : MachineInv boot m)
    (hinto : MachineStep boot m (.interrupt syscall) m₁)
    (hrun : (machineSystem boot).RunsTo (Inside m.running (m.frames m.running).length) m₁ m₂)
    (hreturn : MachineStep boot m₂ .return m₃) (hrunning : m₂.running = m.running)
    (hlength : (m₃.frames m.running).length = (m.frames m.running).length) :
    (∃ w, m₃.core.cpu = m.core.cpu.set .rax w) ∧
      (syscall = false → m₃.core.cpu = m.core.cpu) := by
  have hsaved : ∃ base, m₁.frames m.running =
      .interrupted syscall base m.core.cpu 0 :: m.frames m.running := by
    cases hinto with
    | interrupt _ _ _ _ => exact ⟨_, Function.update_self _ _ _⟩
  obtain ⟨base, hsaved⟩ := hsaved
  cases hreturn with
  | @«return» syscall' base' c' n' rest' hleaving hframes hcode =>
    have hafter : Function.update m₂.frames m₂.running rest' m.running = rest' := by
      rw [← hrunning]
      exact Function.update_self _ _ _
    have hrest : rest'.length = (m.frames m.running).length := by rwa [← hafter]
    have hbefore : (m₂.frames m.running).length = (m.frames m.running).length + 1 := by
      rw [← hrunning, hframes, List.length_cons, hrest, hrunning]
    obtain ⟨hinv, upper, n, hunder⟩ := frames_of_inside (h.step hinto) hsaved hrun (by omega)
    -- nothing is saved below the frame any more
    have hnil : upper = [] := by
      have hcount := congrArg List.length hunder
      rw [hbefore, List.length_append, List.length_cons] at hcount
      exact List.length_eq_zero_iff.mp (by omega)
    rw [← hrunning, hframes, hnil] at hunder
    obtain ⟨hframe, -⟩ := List.cons.inj hunder
    injection hframe with hsyscall _ hc _
    obtain ⟨-, w, hcpu, hw⟩ := hinv.return hleaving hframes hcode
    rw [hc] at hcpu hw
    refine ⟨⟨w, hcpu⟩, fun hirq => ?_⟩
    rw [hcpu, hw (hsyscall.trans hirq), set_rax_self]

/-! ### Every run -/

/-- In every run switches and interrupts are transparent. -/
theorem transparent_of_reachable (h : (machineSystem boot).Reachable m) : Transparent boot m := by
  have hinv := machineInv_of_reachable h
  exact ⟨hinv.cr3, running_of_none, fun hout hrun hin hback => .of_away hinv hout hrun hin hback,
    fun hinto hrun hreturn hrunning hlength =>
      cpu_of_inside hinv hinto hrun hreturn hrunning hlength⟩

/-- A handler that has come back can go the whole way back. -/
theorem MachineInv.exists_return (h : MachineInv boot m) (hleaving : m.leaving = none)
    (hframes : m.frames m.running = .interrupted false base c n :: rest) (hn : n ≤ 16)
    (hrsp : n = 0 → m.core.cpu.gpr .rsp = base) :
    ∃ m₁ m₂, (machineSystem boot).RunsTo (Inside m.running rest.length) m m₁ ∧
      MachineStep boot m₁ .return m₂ ∧ m₁.running = m.running ∧ m₂.frames m.running = rest := by
  have hlength : (exitCode false).length = 17 := rfl
  obtain ⟨i, hcode⟩ : ∃ i, (exitCode false)[n]? = some i :=
    ⟨_, List.getElem?_eq_getElem (by omega)⟩
  obtain ⟨left, hleft⟩ := Nat.exists_eq_add_of_le hn
  induction left generalizing m n i with
  | zero =>
    obtain rfl : n = 16 := by omega
    obtain rfl : i = .iretq := (Option.some.inj hcode).symm
    exact ⟨m, _, .refl, .return hleaving hframes hcode, rfl, Function.update_self _ _ _⟩
  | succ left ih =>
    have hne : i ≠ .iretq := by
      rcases exitCode_get false hcode with ⟨_, rfl⟩ | ⟨_, rfl⟩ | ⟨_, _, rfl⟩ | ⟨hge, -⟩
      · exact nofun
      · exact nofun
      · exact nofun
      · omega
    obtain ⟨m', hm'⟩ : ∃ m' : Machine, m' = ⟨m.core.exec i, Function.update m.frames m.running
      (.interrupted false base c (n + 1) :: rest), none⟩ := ⟨_, rfl⟩
    have hstep : MachineStep boot m .exit m' := by
      rw [hm']
      exact .exit hleaving hframes hrsp hcode hne
    have hrunning : m'.running = m.running := by
      rw [running_of_none hleaving, hm']
      exact run_currentThread [i] 0 m.core
    have hframes' : m'.frames m'.running = .interrupted false base c (n + 1) :: rest := by
      rw [hrunning, hm']
      exact Function.update_self _ _ _
    obtain ⟨j, hcode'⟩ : ∃ j, (exitCode false)[n + 1]? = some j :=
      ⟨_, List.getElem?_eq_getElem (by omega)⟩
    obtain ⟨m₁, m₂, hrun, hreturn, hsame, hrest⟩ := ih (h.step hstep) (by rw [hm']) hframes'
      (by omega) nofun j hcode' (by omega)
    rw [hrunning] at hrun hsame hrest
    refine ⟨m₁, m₂, .head ⟨.exit, ⟨h.running, ?_⟩, hstep⟩ hrun, hreturn, hsame, hrest⟩
    rw [hframes]
    exact Nat.lt_succ_self _

/-! ### A run -/

/-- The memory that the machine is started with has its stack below `0x9000`. -/
def bootStack : ℕ × ℕ := (0x7000, 0x9000)

/-- The machine after `thread_init`, with interrupts enabled. -/
def bootMachine : Machine :=
  ⟨⟨{ callingCpu with rflags := 0x202 }, bootCore.kernel⟩, fun _ => [], none⟩

theorem init_bootMachine : (machineSystem bootStack).init bootMachine :=
  ⟨⟨bigKernel, 0x1000, 0, rfl, rfl⟩, by decide, fun _ => rfl, rfl, by decide, by decide⟩

/-- A new user thread has the address space that it was created for. -/
theorem CreatesUser.pml4 {sym : Symbols} {k k' : Kernel} {entry pml4 programBreak console t : Word}
    {argv : List (List Byte)} {record kstack : Kmalloc}
    (h : CreatesUser sym entry pml4 programBreak argv console record kstack k t k') (ht : t ≠ 0) :
    (k'.thread t).pml4 = pml4 := by
  cases threadCreateUserspace_end h.ok with
  | noRecord => exact absurd rfl ht
  | noPage => exact absurd rfl ht
  | noStack => exact absurd rfl ht
  | created vmm hblock hstack hmap hvmm hheap hlive hsame hkstack hnew hthread =>
    obtain ⟨next, hnew⟩ := hnew
    rw [hnew]

/-- `schedule` has selected the thread of a program, and CR3 is not loaded yet. -/
theorem exists_selected : ∃ m, (machineSystem bootStack).Reachable m ∧ m.leaving = some 0x1000 ∧
    m.core.kernel.currentThread = 0x2000 ∧
    (m.core.kernel.thread 0x1000).pml4 = 0xFFFF800000001000 ∧
    (m.core.kernel.thread 0x2000).pml4 = 0xFFFF800000002000 := by
  obtain ⟨s, k, u, hcreate, ⟨turns, hschedule⟩, -⟩ := exists_first_switch
  have hcurrent : s.kernel.currentThread = 0x1000 := hcreate.builds.currentThread
  rw [hcurrent] at hschedule
  have hboot : OffBoot bootStack 0x10000 := fun _ => .inl (by decide)
  obtain ⟨m₁, hm₁⟩ : ∃ m₁ : Machine, m₁ = ⟨⟨bootMachine.core.cpu, s.kernel⟩,
    Function.update bootMachine.frames (⟨0x2000, none⟩ : Kmalloc).block [], none⟩ := ⟨_, rfl⟩
  have hstep₁ : MachineStep bootStack bootMachine .create m₁ := by
    rw [hm₁]
    exact .createUser ⟨rfl, id⟩ hcreate hboot
  have hworking : m₁.Working := by
    have hframes : ∀ p, m₁.frames p = [] := by
      intro p
      rw [hm₁]
      exact congrFun (Function.update_eq_self 0x2000 bootMachine.frames) p
    exact ⟨by rw [hm₁], by rw [hframes]; exact id⟩
  have hkernel : ¬ m₁.core.cpu.User := by
    rw [hm₁]
    exact (by decide : ¬ bootMachine.core.cpu.User)
  have hstep₂ : MachineStep bootStack m₁ .schedule ⟨⟨m₁.core.cpu, k⟩, m₁.frames, some 0x1000⟩ :=
    .select hworking hkernel (by rw [hm₁]; exact hschedule)
  have hreach₁ : (machineSystem bootStack).Reachable m₁ :=
    (System.ReachableUnder.init init_bootMachine).step trivial hstep₁
  have hreach := hreach₁.step trivial hstep₂
  -- the records keep their address spaces
  obtain ⟨-, -, k₁, hsearched, -, -, -, hk⟩ := schedule_some hschedule
  have hpml4 : ∀ p, (k.thread p).pml4 = (s.kernel.thread p).pml4 := by
    intro p
    rw [hk, setTssStack_thread, select_fields _ _ _ _ Thread.pml4 fun _ _ => rfl]
    exact hsearched.field Thread.pml4 (fun _ _ => rfl) p
  refine ⟨_, hreach, rfl, ?_, ?_, ?_⟩
  · show k.currentThread = 0x2000
    rw [hk, setTssStack_currentThread, select_currentThread]
  · refine (hpml4 _).trans ?_
    obtain ⟨next, hold⟩ := hcreate.builds.thread 0x1000 (by decide)
    rw [hold]
    exact (by decide : (bootCore.kernel.thread 0x1000).pml4 = 0xFFFF800000001000)
  · exact (hpml4 _).trans (hcreate.pml4 (by decide))

/-- An interrupt of that machine, and its return. -/
theorem exists_interrupted : ∃ m₁ m₂ m₃,
    MachineStep bootStack bootMachine (.interrupt false) m₁ ∧
    (machineSystem bootStack).RunsTo (Inside bootMachine.running 0) m₁ m₂ ∧
    MachineStep bootStack m₂ .return m₃ ∧ m₂.running = bootMachine.running ∧
    m₃.frames bootMachine.running = [] := by
  obtain ⟨base, hbase⟩ : ∃ base, base = bootMachine.core.interruptStack - 176 := ⟨_, rfl⟩
  obtain ⟨core, hcore⟩ : ∃ core, core = run (entryCode 33) 0 bootMachine.core.interrupt :=
    ⟨_, rfl⟩
  obtain ⟨m₁, hm₁⟩ : ∃ m₁ : Machine, m₁ = ⟨core, Function.update bootMachine.frames
      bootMachine.running (.interrupted false base bootMachine.core.cpu 0 ::
        bootMachine.frames bootMachine.running), none⟩ := ⟨_, rfl⟩
  have hinto : MachineStep bootStack bootMachine (.interrupt false) m₁ := by
    rw [hm₁, hcore, hbase]
    exact .interrupt rfl (fun _ => (by decide : (0x202 : Word).getLsbD 9 = true)) nofun
      fun _ => ⟨by decide, by decide⟩
  have hrunning : m₁.running = bootMachine.running := by
    rw [hm₁, hcore]
    exact run_currentThread _ _ _
  have hframes : m₁.frames m₁.running = .interrupted false base bootMachine.core.cpu 0 :: [] := by
    rw [hrunning, hm₁]
    exact Function.update_self bootMachine.running _ bootMachine.frames
  have hrsp : m₁.core.cpu.gpr .rsp = base := by
    rw [hm₁, hcore, hbase]
    exact (run_entryCode bootMachine.core 33).2.1.trans (pushAll_snd _ _ _)
  obtain ⟨m₂, m₃, hrun, hreturn, hsame, hrest⟩ :=
    ((MachineInv.init init_bootMachine).step hinto).exists_return (by rw [hm₁]) hframes
      (Nat.zero_le _) fun _ => hrsp
  rw [hrunning] at hrun hsame hrest
  exact ⟨m₁, m₂, m₃, hinto, hrun, hreturn, hsame, hrest⟩

/-- The interrupted code goes on with all its registers. -/
theorem transparent_interrupted : ∃ m₁ m₂ m₃,
    MachineStep bootStack bootMachine (.interrupt false) m₁ ∧
    (machineSystem bootStack).RunsTo (Inside bootMachine.running 0) m₁ m₂ ∧
    MachineStep bootStack m₂ .return m₃ ∧ m₃.core.cpu = bootMachine.core.cpu := by
  obtain ⟨m₁, m₂, m₃, hinto, hrun, hreturn, hrunning, hframes⟩ := exists_interrupted
  have htransparent := transparent_of_reachable (.init init_bootMachine)
  exact ⟨m₁, m₂, m₃, hinto, hrun, hreturn,
    (htransparent.interrupt hinto hrun hreturn hrunning (congrArg List.length hframes)).2 rfl⟩

/-- `schedule` makes the selected thread the current one before `thread_switch` loads CR3. -/
theorem not_cr3_current : ¬ ∀ (boot : ℕ × ℕ) (m : Machine), (machineSystem boot).Reachable m →
    m.core.kernel.cr3 =
      m.core.kernel.vmm.virtToPhys (m.core.kernel.thread m.core.kernel.currentThread).pml4 := by
  intro hall
  obtain ⟨m, hreach, hleaving, hcurrent, hold, hnew⟩ := exists_selected
  have hcr3 := (machineInv_of_reachable hreach).cr3
  rw [Machine.running, hleaving, Option.getD_some, hold, hall _ m hreach, hcurrent, hnew] at hcr3
  have hsame := congrArg (· + m.core.kernel.vmm.hhdm) hcr3
  simp only [Vmm.virtToPhys, BitVec.sub_add_cancel] at hsame
  exact absurd hsame (by decide)

end

end KyroOS.Context

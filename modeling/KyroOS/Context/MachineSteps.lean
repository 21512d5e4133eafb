import KyroOS.Context.Machine

/-!
# What every step of the machine keeps

## Main results

* `MachineInv.interrupt`, `MachineInv.exit`, `MachineInv.return` — the way into a handler and back
* `MachineInv.select`, `MachineInv.switch` — the way from one thread to another
* `MachineInv.step` — every step keeps the invariant
* `machineInv_of_reachable` — it holds in every run
-/

namespace KyroOS.Context

open KyroOS.Memory KyroOS.Threads Transition

section Step

variable {boot : ℕ × ℕ} {m m' : Machine} {p : Word} {core : Core} {e : MachineEvent}

/-! ### Interrupts -/

/-- On its stack the running thread gets other frames. -/
theorem MachineInv.restack (h : MachineInv boot m) (hleaving : m.leaving = none) {fs : List Frame}
    (hkernel : core.kernel = { m.core.kernel with kstack := core.kernel.kstack })
    (hframes : FramesOn core.kernel.kstack (m.range boot m.running).1 (m.range boot m.running).2 fs)
    (howned : ∀ f ∈ fs, f.User → (m.core.kernel.thread m.running).stack ≠ 0)
    (hothers : ∀ a : Word, core.kernel.kstack a ≠ m.core.kernel.kstack a →
      (m.range boot m.running).1 ≤ a.toNat ∧ a.toNat < (m.range boot m.running).2)
    (huser : core.cpu.User → fs = [] ∧ (m.core.kernel.thread m.running).stack ≠ 0)
    (hlinked : Linked fs) (hcontinues : Continues core.cpu fs) :
    MachineInv boot ⟨core, Function.update m.frames m.running fs, none⟩ := by
  obtain ⟨m', hm'⟩ : ∃ m' : Machine, m' = ⟨core, Function.update m.frames m.running fs, none⟩ :=
    ⟨_, rfl⟩
  obtain ⟨mem, hmem⟩ : ∃ mem, mem = core.kernel.kstack := ⟨_, rfl⟩
  rw [← hmem] at hkernel hframes hothers
  have hk : m'.core.kernel = { m.core.kernel with kstack := mem } := by rw [hm', ← hkernel]
  have hrange : ∀ p, m'.range boot p = m.range boot p := by
    intro p
    rw [Machine.range, hk]
    rfl
  have hrun : m'.running = m.running := by
    rw [Machine.running, hk, hm', running_of_none hleaving]
    rfl
  have hself : m'.frames m.running = fs := by
    rw [hm']
    exact Function.update_self _ _ _
  have hother : ∀ p ≠ m.running, m'.frames p = m.frames p := by
    intro p hp
    rw [hm']
    exact Function.update_of_ne hp _ _
  rw [← hm']
  refine ⟨?_, ?_, ?_, ?_, fun p hp => ?_, fun p hp f hf huserf => ?_, fun p hp hpr => ?_,
    fun hu => ?_, ?_, ?_, fun old hold => ?_, fun p hp => ?_, ?_⟩
  · rw [hrun, hk]
    exact h.running
  · rw [hk]
    exact h.current
  · intro p hp
    rw [hk] at hp
    rw [hrange]
    exact h.fits p hp
  · intro p hp q hq
    rw [hk] at hp hq
    rw [hrange, hrange]
    exact h.apart p hp q hq
  · rw [hk] at hp ⊢
    rw [hrange]
    by_cases hpr : p = m.running
    · subst hpr
      rw [hself]
      exact hframes
    · rw [hother p hpr]
      have hapart := h.apart p hp m.running h.running hpr
      have hfits := h.fits p hp
      have hlimit := (h.frames p hp).le_limit hfits.1
      refine (h.frames p hp).congr hfits.2 fun a hle hlt => ?_
      by_contra hne
      have hin := hothers a hne
      omega
  · rw [hk] at hp ⊢
    by_cases hpr : p = m.running
    · subst hpr
      exact howned f (hself ▸ hf) huserf
    · exact h.owned p hp f (hother p hpr ▸ hf) huserf
  · rw [hk] at hp ⊢
    rw [hrun] at hpr
    rw [hother p hpr]
    exact h.saved p hp hpr
  · rw [hrun, hself, hk]
    obtain ⟨hnil, hzero⟩ := huser (by rwa [hm'] at hu)
    exact ⟨hnil, hzero, by rw [hm']⟩
  · rw [hk]
    exact h.tss
  · rw [hrun, hk]
    exact h.cr3
  · rw [hm'] at hold
    cases hold
  · rw [hk] at hp
    by_cases hpr : p = m.running
    · subst hpr
      rw [hself]
      exact hlinked
    · rw [hother p hpr]
      exact h.linked p hp
  · rw [hrun, hself, hm']
    exact hcontinues

/-- The frame of an interrupt has room below what is saved on the stack. -/
theorem MachineInv.interruptStack (h : MachineInv boot m) (hleaving : m.leaving = none)
    (hroom : ¬ m.core.cpu.User → m.Room boot 191 (m.core.cpu.gpr .rsp).toNat) :
    m.Room boot 176 m.core.interruptStack.toNat := by
  have halign : ∀ sp : Word, (sp &&& ~~~0xF#64).toNat = sp.toNat / 16 * 16 := toNat_alignStack
  rw [Core.interruptStack, Machine.Room, halign]
  by_cases hu : m.core.cpu.User
  · -- user code is interrupted on an empty stack
    obtain ⟨hnil, hzero, -⟩ := h.user hu
    have hfits := h.fits m.running h.running
    have hrange : m.range boot m.running = ((m.core.kernel.thread m.running).stack.toNat,
        (m.core.kernel.thread m.running).stack.toNat + kernelStackSize) := by
      rw [Machine.range, stackRange, if_neg hzero]
    rw [hrange] at hfits ⊢
    have htop := toNat_stackTop hfits.2
    have htss := h.tss
    rw [← running_of_none hleaving] at htss
    rw [if_pos hu, hnil, limit, htss hzero, htop, kernelStackSize]
    omega
  · have hstack := hroom hu
    rw [Machine.Room] at hstack
    rw [if_neg hu]
    omega

theorem set_rax_self (c : Cpu) : c.set .rax (c.gpr .rax) = c := by
  simp [Cpu.set]

theorem MachineInv.interrupt (h : MachineInv boot m) (hleaving : m.leaving = none)
    {syscall : Bool} {number : Word} (hwork : syscall = true → ¬ Exiting (m.frames m.running))
    (hroom : ¬ m.core.cpu.User → m.Room boot 191 (m.core.cpu.gpr .rsp).toNat) :
    MachineInv boot ⟨run (entryCode number) 0 m.core.interrupt,
      Function.update m.frames m.running
        (.interrupted syscall (m.core.interruptStack - 176) m.core.cpu 0 :: m.frames m.running),
      none⟩ := by
  obtain ⟨core, hcore⟩ : ∃ core, core = run (entryCode number) 0 m.core.interrupt := ⟨_, rfl⟩
  obtain ⟨hkernel, -, hcs⟩ := run_entryCode m.core number
  rw [← hcore] at hkernel hcs ⊢
  obtain ⟨hlo, hhi⟩ := h.interruptStack hleaving hroom
  have hframes := h.frames m.running h.running
  have hfits := h.fits m.running h.running
  have hlimit := hframes.limit_le
  have hle : 176 ≤ m.core.interruptStack.toNat := by omega
  obtain ⟨base, hbase⟩ : ∃ base, base = m.core.interruptStack - 176 := ⟨_, rfl⟩
  have hbase' : base.toNat = m.core.interruptStack.toNat - 176 := by
    rw [hbase]
    exact BitVec.toNat_sub_of_le (BitVec.le_def.mpr hle)
  -- the words of the frame are pushed, and no other cell changes
  obtain ⟨ws, hws, hlength⟩ : ∃ ws, ws = (irqFrame number m.core.cpu).reverse ∧ ws.length = 22 :=
    ⟨_, rfl, rfl⟩
  have hmem : core.kernel.kstack =
      (pushAll m.core.kernel.kstack m.core.interruptStack ws).1 := by rw [hws, hkernel]
  have hwords : 8 * ws.length ≤ m.core.interruptStack.toNat := hlength ▸ hle
  have houtside : ∀ a : Word, a.toNat < base.toNat ∨ m.core.interruptStack.toNat ≤ a.toNat →
      core.kernel.kstack a = m.core.kernel.kstack a := by
    intro a ha
    rw [hmem]
    exact pushAll_of_outside hwords (by omega)
  have hstands : Stands core.kernel.kstack base (irqFrame number m.core.cpu) := by
    have hpushed := stands_pushAll m.core.kernel.kstack hwords
    rw [pushAll_snd, hlength, ← hmem, hws, List.reverse_reverse] at hpushed
    rw [hbase]
    exact hpushed
  obtain ⟨f, hf⟩ : ∃ f, f = Frame.interrupted syscall base m.core.cpu 0 := ⟨_, rfl⟩
  have hholds : f.Holds core.kernel.kstack := by
    rw [hf]
    refine ⟨number, m.core.cpu.gpr .rax, fun _ => rfl, ?_⟩
    rw [set_rax_self, taken, if_pos (Nat.zero_le _), Nat.mul_zero, BitVec.add_zero]
    exact hstands
  have hfbase : f.base.toNat = base.toNat := by rw [hf, Frame.base_zero]
  have hfsize : f.size = 176 := by
    rw [hf]
    rfl
  have hfuser : f.User → m.core.cpu.User := by
    rw [hf]
    exact id
  rw [← hbase, ← hf]
  refine h.restack hleaving (by rw [hkernel]) ?_ ?_ (fun a hne => ?_) (fun hu => ?_) ⟨?_, ?_⟩ ?_
  · exact hframes.push hfits.2 hholds (by omega) (by omega) (fun hu => (h.user (hfuser hu)).1)
      fun a hl _ => houtside a (by omega)
  · intro g hg hu
    rcases List.mem_cons.mp hg with rfl | hmem
    · exact (h.user (hfuser hu)).2.1
    · exact h.owned _ h.running g hmem hu
  · by_contra hin
    exact hne (houtside a (by omega))
  · rw [Cpu.User, hcs] at hu
    exact absurd (by decide) hu
  · rw [hf]
    cases syscall with
    | false => exact h.continues
    | true => exact hwork rfl
  · exact h.linked _ h.running
  · rw [hf]
    trivial

/-- The way back goes on. -/
theorem MachineInv.exit (h : MachineInv boot m) (hleaving : m.leaving = none) {syscall : Bool}
    {base : Word} {c : Cpu} {n : ℕ} {rest : List Frame} {i : Instr}
    (hframes : m.frames m.running = .interrupted syscall base c n :: rest)
    (hrsp : n = 0 → m.core.cpu.gpr .rsp = base)
    (hcode : (exitCode syscall)[n]? = some i) (hne : i ≠ .iretq) :
    MachineInv boot ⟨m.core.exec i,
      Function.update m.frames m.running (.interrupted syscall base c (n + 1) :: rest), none⟩ := by
  have hall := h.frames m.running h.running
  have hfits := h.fits m.running h.running
  have hlinked := h.linked m.running h.running
  have hcontinues := h.continues
  rw [hframes] at hall hlinked hcontinues
  have hkernel : ¬ m.core.cpu.User := fun hu =>
    absurd (hframes.symm.trans (h.user hu).1) (List.cons_ne_nil _ _)
  have hmidway := hcontinues.midway hrsp hkernel
  obtain ⟨hnext, hsame⟩ := hmidway.exec hall.1 hcode hne
  refine h.restack hleaving (by rw [hsame]) (hsame ▸ hall.advance hfits.2) ?_
    (fun a hne => absurd (by rw [hsame]) hne) (fun hu => absurd hu hnext.kernel) ⟨?_, hlinked.2⟩ hnext
  · intro f hf hu
    have hmem : ∃ g ∈ m.frames m.running, g.User := by
      rw [hframes]
      rcases List.mem_cons.mp hf with rfl | hmem
      · exact ⟨_, List.mem_cons_self, hu⟩
      · exact ⟨f, List.mem_cons_of_mem _ hmem, hu⟩
    obtain ⟨g, hg, hgu⟩ := hmem
    exact h.owned _ h.running g hg hgu
  · cases syscall <;> exact hlinked.1

/-- The way back ends with the registers of the interrupt. -/
theorem MachineInv.return (h : MachineInv boot m) (hleaving : m.leaving = none) {syscall : Bool}
    {base : Word} {c : Cpu} {n : ℕ} {rest : List Frame}
    (hframes : m.frames m.running = .interrupted syscall base c n :: rest)
    (hcode : (exitCode syscall)[n]? = some .iretq) :
    MachineInv boot ⟨m.core.exec .iretq, Function.update m.frames m.running rest, none⟩ ∧
      ∃ w, (m.core.exec .iretq).cpu = c.set .rax w ∧ (syscall = false → w = c.gpr .rax) := by
  have hall := h.frames m.running h.running
  have hlinked := h.linked m.running h.running
  have hcontinues := h.continues
  rw [hframes] at hall hlinked hcontinues
  have hkernel : ¬ m.core.cpu.User := fun hu =>
    absurd (hframes.symm.trans (h.user hu).1) (List.cons_ne_nil _ _)
  have hzero : n ≠ 0 := by
    rintro rfl
    cases syscall <;> cases hcode
  obtain ⟨hholds, -, -, huser, hrest⟩ := hall
  obtain ⟨hsame, w, hcpu, hw⟩ :=
    (hcontinues.midway (absurd · hzero) hkernel).iretq hholds hcode
  refine ⟨h.restack hleaving (by rw [hsame]) (hsame ▸ hrest) (fun f hf hu => ?_)
    (fun a hne => absurd (by rw [hsame]) hne) (fun hu => ?_) hlinked.2 ?_, w, hcpu, hw⟩
  · exact h.owned _ h.running f (hframes ▸ List.mem_cons_of_mem _ hf) hu
  · have huser' : (Frame.interrupted syscall base c n).User := by
      rw [hcpu] at hu
      exact hu
    exact ⟨huser huser', h.owned _ h.running _ (hframes ▸ List.mem_cons_self) huser'⟩
  · cases syscall with
    | false =>
      rw [hcpu, hw rfl, set_rax_self]
      exact hlinked.1
    | true => exact continues_of_not_exiting hlinked.1

/-! ### Switches -/

/-- `schedule` has selected a thread. CR3 is still that of the thread that leaves. -/
theorem MachineInv.select (h : MachineInv boot m) (hwork : m.Working) (hkernel : ¬ m.core.cpu.User)
    {k : Kernel} {turns : ℕ} {old new : Word}
    (hok : schedule turns m.core.kernel = .ok (k, some (old, new))) :
    MachineInv boot ⟨⟨m.core.cpu, k⟩, m.frames, some old⟩ := by
  obtain ⟨hold, hne, k₁, hsearched, hnew, hcurrent, -, hk⟩ := schedule_some hok
  have hrun := running_of_none hwork.1
  obtain ⟨hvmm, hcr3, -, hkstack⟩ := select_machine k₁ m.core.kernel.currentThread new
  have htss : k.vmm.hhdm = m.core.kernel.vmm.hhdm ∧ k.cr3 = m.core.kernel.cr3 ∧
      k.kstack = m.core.kernel.kstack := by
    have hset : (setTssStack (Threads.select k₁ m.core.kernel.currentThread new) new).vmm =
          k₁.vmm ∧
        (setTssStack (Threads.select k₁ m.core.kernel.currentThread new) new).cr3 = k₁.cr3 ∧
        (setTssStack (Threads.select k₁ m.core.kernel.currentThread new) new).kstack =
          k₁.kstack := by
      unfold setTssStack
      split_ifs
      · exact ⟨hvmm, hcr3, hkstack⟩
      · exact ⟨hvmm, hcr3, hkstack⟩
    rw [hk, hset.1, hset.2.1, hset.2.2]
    exact ⟨hsearched.hhdm, hsearched.cr3, hsearched.kstack⟩
  have hlive : k.live = k₁.live := by rw [hk, setTssStack_live, select_live]
  have hnow : k.currentThread = new := by
    rw [hk, setTssStack_currentThread, select_currentThread]
  have hfield : ∀ {α : Type} (g : Thread → α), (∀ t next, g { t with next } = g t) →
      (∀ t state, g { t with state } = g t) →
        ∀ p, g (k.thread p) = g (m.core.kernel.thread p) := by
    intro α g hnext hstate p
    rw [hk, setTssStack_thread, select_fields _ _ _ _ g hstate, hsearched.field g hnext]
  have hstack := hfield Thread.stack (fun _ _ => rfl) fun _ _ => rfl
  have hpml4 := hfield Thread.pml4 (fun _ _ => rfl) fun _ _ => rfl
  have hrsp := hfield Thread.rsp (fun _ _ => rfl) fun _ _ => rfl
  obtain ⟨m', hm'⟩ : ∃ m' : Machine, m' = ⟨⟨m.core.cpu, k⟩, m.frames, some old⟩ := ⟨_, rfl⟩
  have hrange : ∀ p, m'.range boot p = m.range boot p := by
    intro p
    rw [hm', Machine.range, Machine.range, hstack p]
  have hrunning : m'.running = m.running := by
    rw [hrun, ← hold, hm']
    rfl
  have hsubset : ∀ p ∈ k.live, p ∈ m.core.kernel.live := fun p hp =>
    hsearched.subset (hlive ▸ hp)
  have hk' : m'.core.kernel = k := by rw [hm']
  have hframes : m'.frames = m.frames := by rw [hm']
  have hcpu : m'.core.cpu = m.core.cpu := by rw [hm']
  rw [← hm']
  refine ⟨?_, ?_, fun p hp => ?_, fun p hp q hq => ?_, fun p hp => ?_, fun p hp f hf huser => ?_,
    fun p hp hpr => ?_, fun hu => ?_, fun hzero => ?_, ?_, fun old' hleft => ?_, fun p hp => ?_, ?_⟩
  · rw [hrunning, hrun, hk', hlive]
    exact hcurrent
  · rw [hk', hnow, hlive]
    exact hnew
  · rw [hrange]
    exact h.fits p (hsubset p (hk' ▸ hp))
  · rw [hrange, hrange]
    exact h.apart p (hsubset p (hk' ▸ hp)) q (hsubset q (hk' ▸ hq))
  · rw [hk', hrange, hframes, htss.2.2]
    exact h.frames p (hsubset p (hk' ▸ hp))
  · rw [hk', hstack]
    exact h.owned p (hsubset p (hk' ▸ hp)) f (hframes ▸ hf) huser
  · rw [hframes, hk', hrsp]
    exact h.saved p (hsubset p (hk' ▸ hp)) (hrunning ▸ hpr)
  · rw [hcpu] at hu
    exact absurd hu hkernel
  · -- the stack of the thread that was selected is in the TSS
    rw [hk', hnow] at hzero ⊢
    rw [hk, setTssStack_thread] at hzero
    rw [hk, setTssStack, if_neg hzero]
    rfl
  · rw [hrunning, hk', htss.2.1, Vmm.virtToPhys, htss.1, hpml4]
    exact h.cr3
  · obtain rfl : old = old' := by
      rw [hm'] at hleft
      exact Option.some.inj hleft
    rw [hk', hnow, hframes, hold, ← hrun]
    exact ⟨hrun ▸ hne.symm, hwork.2⟩
  · rw [hframes]
    exact h.linked p (hsubset p (hk' ▸ hp))
  · rw [hcpu, hrunning, hframes]
    exact h.continues

/-- What `thread_switch` leaves alone beside the records. -/
theorem threadSwitch_machine (k : Kernel) (old new rsp : Word) :
    (threadSwitch k old new rsp).vmm = k.vmm ∧
      (threadSwitch k old new rsp).tssRsp0 = k.tssRsp0 := by
  unfold threadSwitch
  dsimp only
  split_ifs <;> exact ⟨rfl, rfl⟩

/-- CR3 is loaded unless it has the right value already. -/
theorem threadSwitch_cr3 {k : Kernel} {old : Word} (new rsp : Word)
    (h : k.cr3 = k.vmm.virtToPhys (k.thread old).pml4) :
    (threadSwitch k old new rsp).cr3 = k.vmm.virtToPhys (k.thread new).pml4 := by
  have hpml4 : ∀ q, ((k.setThread old fun t => { t with rsp }).thread q).pml4 =
      (k.thread q).pml4 := by
    intro q
    by_cases hq : q = old
    · rw [hq, setThread_self]
    · rw [setThread_of_ne _ _ hq]
  unfold threadSwitch
  dsimp only
  rw [hpml4, hpml4]
  split_ifs with hsame
  · exact h.trans (by rw [hsame])
  · rfl

theorem threadSwitch_rsp (k : Kernel) (old new rsp : Word) :
    ((threadSwitch k old new rsp).thread old).rsp = rsp := by
  have hset : (threadSwitch k old new rsp).thread =
      (k.setThread old fun t => { t with rsp }).thread := by
    unfold threadSwitch
    dsimp only
    split_ifs <;> rfl
  rw [hset, setThread_self]

/-- The registers that `thread_switch` pushes stand below its return address. -/
theorem holds_switched (mem : Word → Word) (c : Cpu) (hlow : 48 ≤ (c.gpr .rsp).toNat) :
    (Frame.switched c (mem (c.gpr .rsp))).Holds
      (pushAll mem (c.gpr .rsp) (savedWords c)).1 := by
  have hwords : 8 * (savedWords c).length ≤ (c.gpr .rsp).toNat := hlow
  have hpushed := stands_pushAll mem hwords
  have hback : (pushAll mem (c.gpr .rsp) (savedWords c)).1 (c.gpr .rsp) = mem (c.gpr .rsp) :=
    pushAll_of_outside hwords (.inr le_rfl)
  rw [pushAll_snd] at hpushed
  refine stands_append.mpr ⟨hpushed, ?_, trivial⟩
  have hsp : c.gpr .rsp - 48 + 48#64 = c.gpr .rsp := BitVec.sub_add_cancel ..
  exact (congrArg _ hsp).trans hback

/-- What `thread_switch` pushes is on the stack of the thread that leaves. -/
theorem MachineInv.frames_pushed (h : MachineInv boot m) {c : Cpu} {mem : Word → Word}
    (hown : m.OwnWrites boot mem) (hroom : m.Room boot 56 ((c.gpr .rsp).toNat + 8))
    (hp : p ∈ m.core.kernel.live) (hne : p ≠ m.running) :
    FramesOn (pushAll mem (c.gpr .rsp) (savedWords c)).1 (m.range boot p).1 (m.range boot p).2
      (m.frames p) := by
  obtain ⟨hlo, hhi⟩ := hroom
  have hfits := h.fits p hp
  have hapart := h.apart p hp m.running h.running hne
  have hframes := h.frames_own hown hp
  have hlow := hframes.le_limit hfits.1
  have hlimit := (h.frames m.running h.running).limit_le
  have hwords : (savedWords c).length = 6 := rfl
  exact hframes.congr hfits.2 fun a hle hlt => pushAll_of_outside (by omega) (by omega)

/-- `thread_switch` saves the registers of the thread that leaves and loads CR3, and the other
thread goes on with what it saved. -/
theorem MachineInv.switch (h : MachineInv boot m) {old : Word} {c : Cpu} {mem : Word → Word}
    (hleaving : m.leaving = some old) (hkernel : ¬ c.User) (hrdi : c.gpr .rdi = old)
    (hrsi : c.gpr .rsi = m.core.kernel.currentThread) (hown : m.OwnWrites boot mem)
    (hroom : m.Room boot 56 ((c.gpr .rsp).toNat + 8)) :
    MachineInv boot
      ⟨run threadSwitchCode 0 ⟨c, { m.core.kernel with kstack := mem }⟩,
        Function.update
          (Function.update m.frames old (.switched c (mem (c.gpr .rsp)) :: m.frames old))
          m.core.kernel.currentThread (m.frames m.core.kernel.currentThread).tail,
        none⟩ := by
  obtain ⟨new, hnew⟩ : ∃ new, new = m.core.kernel.currentThread := ⟨_, rfl⟩
  have hrun : m.running = old := by rw [Machine.running, hleaving, Option.getD_some]
  obtain ⟨hne, hexit⟩ := h.leaving old hleaving
  rw [← hnew] at hrsi hne ⊢
  obtain ⟨hcode, hresumed⟩ := run_threadSwitchCode ⟨c, { m.core.kernel with kstack := mem }⟩
    hrdi hrsi hne.symm
  obtain ⟨s, hs⟩ : ∃ s, s = run threadSwitchCode 0 ⟨c, { m.core.kernel with kstack := mem }⟩ :=
    ⟨_, rfl⟩
  rw [← hs] at hcode hresumed ⊢
  obtain ⟨rsp, hrsp⟩ : ∃ rsp, rsp = (pushAll mem (c.gpr .rsp) (savedWords c)).2 := ⟨_, rfl⟩
  obtain ⟨mem', hmem'⟩ : ∃ mem', mem' = (pushAll mem (c.gpr .rsp) (savedWords c)).1 := ⟨_, rfl⟩
  obtain ⟨k, hk⟩ : ∃ k, k = threadSwitch m.core.kernel old new rsp := ⟨_, rfl⟩
  have hkernel' : s.kernel = { k with kstack := mem' } := by
    rw [hk, hrsp, hmem']
    exact hcode.trans (by rw [threadSwitch_kstack])
  obtain ⟨hvmm, htss⟩ := threadSwitch_machine m.core.kernel old new rsp
  have hcr3 := threadSwitch_cr3 new rsp (hrun ▸ h.cr3)
  have hself := threadSwitch_rsp m.core.kernel old new rsp
  obtain ⟨m', hm'⟩ : ∃ m' : Machine, m' = ⟨s, Function.update
      (Function.update m.frames old (.switched c (mem (c.gpr .rsp)) :: m.frames old)) new
        (m.frames new).tail, none⟩ := ⟨_, rfl⟩
  have hk' : m'.core.kernel = { k with kstack := mem' } := by rw [hm', hkernel']
  have hlive : m'.core.kernel.live = m.core.kernel.live := by
    rw [hk', hk]
    exact threadSwitch_live _ _ _ rsp
  have hnow : m'.core.kernel.currentThread = new := by
    rw [hk', hk, hnew]
    exact threadSwitch_currentThread _ _ _ rsp
  have hrunning : m'.running = new := by
    rw [Machine.running, hnow, hm']
    rfl
  have hfield : ∀ {α : Type} (g : Thread → α), (∀ t rsp, g { t with rsp } = g t) →
      ∀ p, g (m'.core.kernel.thread p) = g (m.core.kernel.thread p) := by
    intro α g hg p
    rw [hk', hk]
    exact threadSwitch_fields m.core.kernel old new p rsp g hg
  have hstack := hfield Thread.stack fun _ _ => rfl
  have hpml4 := hfield Thread.pml4 fun _ _ => rfl
  have hrange : ∀ p, m'.range boot p = m.range boot p := by
    intro p
    rw [Machine.range, Machine.range, hstack p]
  have hcpu : ¬ m'.core.cpu.User := by
    rw [hm', Cpu.User, hresumed.cs]
    exact hkernel
  -- the frames of the two threads
  have hpushed : m'.frames old = .switched c (mem (c.gpr .rsp)) :: m.frames old := by
    rw [hm']
    exact (Function.update_of_ne hne _ _).trans (Function.update_self _ _ _)
  have htail : m'.frames new = (m.frames new).tail := by
    rw [hm']
    exact Function.update_self _ _ _
  have hother : ∀ p, p ≠ old → p ≠ new → m'.frames p = m.frames p := by
    intro p hpo hpn
    rw [hm']
    exact (Function.update_of_ne hpn _ _).trans (Function.update_of_ne hpo _ _)
  have hsaved : ∀ p ∈ m.core.kernel.live, p ≠ old → m.frames p = [] ∨
      ∃ c back rest, m.frames p = .switched c back :: rest ∧
        (m.core.kernel.thread p).rsp = c.gpr .rsp - 48 := fun p hp hpo =>
    h.saved p hp (hrun ▸ hpo)
  have hnewlive : new ∈ m.core.kernel.live := hnew ▸ h.current
  have holdlive : old ∈ m.core.kernel.live := hrun ▸ h.running
  have hrest : ∀ p ∈ m.core.kernel.live, p ≠ old →
      FramesOn mem' (m.range boot p).1 (m.range boot p).2 (m.frames p) := fun p hp hpo => by
    rw [hmem']
    exact h.frames_pushed hown hroom hp (hrun ▸ hpo)
  rw [Machine.Room, hrun] at hroom
  obtain ⟨hlo, hhi⟩ := hroom
  have hfits := h.fits old holdlive
  have hold := h.frames_own hown holdlive
  have hlimit := hold.limit_le
  have hlow : 48 ≤ (c.gpr .rsp).toNat := by omega
  have houtside : ∀ a : Word, a.toNat < (c.gpr .rsp).toNat - 48 ∨ (c.gpr .rsp).toNat ≤ a.toNat →
      mem' a = mem a := by
    intro a ha
    have hwords : 8 * (savedWords c).length ≤ (c.gpr .rsp).toNat := hlow
    rw [hmem']
    exact pushAll_of_outside hwords ha
  rw [← hm']
  refine ⟨?_, ?_, fun p hp => ?_, fun p hp q hq => ?_, fun p hp => ?_, fun p hp f hf huser => ?_,
    fun p hp hpr => ?_, fun hu => absurd hu hcpu, ?_, ?_, fun old' hleft => ?_, fun p hp => ?_, ?_⟩
  · rw [hrunning, hlive]
    exact hnewlive
  · rw [hnow, hlive]
    exact hnewlive
  · rw [hrange]
    exact h.fits p (hlive ▸ hp)
  · rw [hrange, hrange]
    exact h.apart p (hlive ▸ hp) q (hlive ▸ hq)
  · rw [hlive] at hp
    rw [hrange, hk']
    show FramesOn mem' _ _ _
    by_cases hpo : p = old
    · subst hpo
      have hbase : (Frame.switched c (mem (c.gpr .rsp))).base.toNat = (c.gpr .rsp).toNat - 48 :=
        BitVec.toNat_sub_of_le (BitVec.le_def.mpr hlow)
      have hsize : (Frame.switched c (mem (c.gpr .rsp))).size = 56 := rfl
      rw [hpushed]
      exact hold.push hfits.2 (hmem' ▸ holds_switched mem c hlow) (by omega) (by omega)
        (by rintro ⟨⟩) fun a hle _ => houtside a (by omega)
    · by_cases hpn : p = new
      · have htails := hrest p hp hpo
        rw [hpn] at htails ⊢
        rw [htail]
        cases hfs : m.frames new with
        | nil => trivial
        | cons f fs =>
          rw [hfs] at htails
          exact htails.2.2.2.2
      · rw [hother p hpo hpn]
        exact hrest p hp hpo
  · rw [hlive] at hp
    rw [hstack]
    by_cases hpo : p = old
    · rw [hpo, hpushed] at hf
      rcases List.mem_cons.mp hf with rfl | hmem
      · exact absurd huser id
      · exact h.owned p hp f (hpo ▸ hmem) huser
    · by_cases hpn : p = new
      · rw [hpn, htail] at hf
        exact h.owned p hp f (hpn ▸ List.mem_of_mem_tail hf) huser
      · exact h.owned p hp f (hother p hpo hpn ▸ hf) huser
  · rw [hlive] at hp
    rw [hrunning] at hpr
    by_cases hpo : p = old
    · refine .inr ⟨c, mem (c.gpr .rsp), m.frames old, hpo ▸ hpushed, ?_⟩
      rw [hpo, hk', hk]
      refine hself.trans ?_
      rw [hrsp, pushAll_snd]
      rfl
    · rw [hother p hpo hpr]
      have hrsp' : (m'.core.kernel.thread p).rsp = (m.core.kernel.thread p).rsp := by
        rw [hk', hk]
        exact congrArg Thread.rsp (threadSwitch_thread_of_ne m.core.kernel new rsp hpo)
      rw [hrsp']
      exact hsaved p hp hpo
  · have htop := h.tss
    rw [← hnew] at htop
    rw [hnow, hstack, hk', hk]
    exact fun hzero => htss.trans (htop hzero)
  · rw [hrunning, hpml4, hk', hk]
    show (threadSwitch m.core.kernel old new rsp).cr3 =
      Vmm.virtToPhys (threadSwitch m.core.kernel old new rsp).vmm _
    rw [hvmm]
    exact hcr3
  · rw [hm'] at hleft
    cases hleft
  · rw [hlive] at hp
    by_cases hpo : p = old
    · rw [hpo, hpushed]
      exact ⟨hexit, h.linked old holdlive⟩
    · by_cases hpn : p = new
      · have hlinked := h.linked p hp
        rw [hpn] at hlinked ⊢
        rw [htail]
        cases hfs : m.frames new with
        | nil => trivial
        | cons f fs =>
          rw [hfs] at hlinked
          exact hlinked.2
      · rw [hother p hpo hpn]
        exact h.linked p hp
  · -- below what was saved by a switch there is no way back
    rw [hrunning, htail]
    rcases hsaved new hnewlive hne.symm with hnil | ⟨c', back, rest, hfs, -⟩
    · rw [hnil]
      trivial
    · have hlinked := h.linked new hnewlive
      rw [hfs] at hlinked ⊢
      exact continues_of_not_exiting hlinked.1

/-! ### Runs -/

theorem Machine.OwnWrites.of_eq {mem : Word → Word} (h : mem = m.core.kernel.kstack) :
    m.OwnWrites boot mem := by
  rw [h]
  exact .refl m

/-- A thread is not in user mode because of code in C. -/
theorem MachineInv.user_frames (h : MachineInv boot m) (hu : m.core.cpu.User) :
    m.frames m.running = [] ∧ (m.core.kernel.thread m.running).stack ≠ 0 :=
  ⟨(h.user hu).1, (h.user hu).2.1⟩

theorem MachineInv.init (h : (machineSystem boot).init m) : MachineInv boot m := by
  obtain ⟨⟨k, block, rsp, hnone, hinit⟩, hkernel, hframes, hleaving, hboot⟩ := h
  rw [threadInit] at hinit
  split_ifs at hinit with hzero
  obtain ⟨k', hk'⟩ : ∃ k', k' = m.core.kernel := ⟨_, rfl⟩
  have hk := (Except.ok.inj hinit).trans hk'.symm
  have hlive : m.core.kernel.live = {block} := by
    rw [← hk', ← hk]
    exact (congrArg (insert block) hnone).trans (insert_empty_eq block)
  have hcurrent : m.core.kernel.currentThread = block := by rw [← hk', ← hk]; rfl
  have hrun : m.running = block := (running_of_none hleaving).trans hcurrent
  obtain ⟨hstack, hpml4⟩ : (m.core.kernel.thread block).stack = 0 ∧
      (m.core.kernel.thread block).pml4 = k.vmm.physToVirt k.cr3 := by
    rw [← hk', ← hk]
    dsimp only
    rw [setThread_self]
    exact ⟨rfl, rfl⟩
  have honly : ∀ p ∈ m.core.kernel.live, p = block := fun p hp =>
    Finset.mem_singleton.mp (hlive ▸ hp)
  have hrange : m.range boot block = boot := by rw [Machine.range, stackRange, if_pos hstack]
  have hcr3 : m.core.kernel.cr3 =
      m.core.kernel.vmm.virtToPhys (m.core.kernel.thread block).pml4 := by
    have hsame : m.core.kernel.cr3 = k.cr3 ∧ m.core.kernel.vmm = k.vmm := by
      rw [← hk', ← hk]
      exact ⟨rfl, rfl⟩
    rw [hpml4, hsame.1, hsame.2, Vmm.virtToPhys, Vmm.physToVirt]
    exact (BitVec.add_sub_cancel _ _).symm
  refine ⟨?_, ?_, fun p hp => ?_, fun p hp q hq hpq => ?_, fun p hp => ?_,
    fun p hp f hf _ => ?_, fun p hp hpr => ?_, fun hu => absurd hu hkernel, fun hne => ?_, ?_,
    fun old hold => ?_, fun p hp => ?_, ?_⟩
  · rw [hrun, hlive]
    exact Finset.mem_singleton_self block
  · rw [hcurrent, hlive]
    exact Finset.mem_singleton_self block
  · rw [honly p hp, hrange]
    exact hboot
  · exact absurd ((honly p hp).trans (honly q hq).symm) hpq
  · rw [hframes]
    trivial
  · rw [hframes] at hf
    exact absurd hf List.not_mem_nil
  · exact absurd ((honly p hp).trans hrun.symm) hpr
  · rw [hcurrent] at hne
    exact absurd hstack hne
  · rw [hrun]
    exact hcr3
  · rw [hleaving] at hold
    cases hold
  · rw [hframes]
    trivial
  · rw [hframes]
    trivial

theorem MachineInv.step (h : MachineInv boot m) (hstep : MachineStep boot m e m') :
    MachineInv boot m' := by
  cases hstep with
  | work hwork hw hhdm hown huser => exact h.sameThreads hwork (hw.sameThreads hhdm) hown huser
  | setState hwork hs =>
    obtain ⟨hsame, hkstack⟩ := hs.sameThreads
    exact h.sameThreads hwork hsame (.of_eq hkstack) h.user_frames
  | createKernel hwork hc hboot =>
    exact h.create hwork.1 hc.builds hc.fresh hc.stack hboot (by decide : 8 * 9 ≤ kernelStackSize)
  | createUser hwork hc hboot =>
    exact h.create hwork.1 hc.builds hc.fresh hc.stack hboot (by decide : 8 * 12 ≤ kernelStackSize)
  | interrupt hleaving _ hwork hroom => exact h.interrupt hleaving hwork hroom
  | exit hleaving hframes hrsp hcode hne => exact h.exit hleaving hframes hrsp hcode hne
  | «return» hleaving hframes hcode => exact (h.return hleaving hframes hcode).1
  | schedule hwork _ hok =>
    obtain ⟨hsame, hkstack⟩ := sameThreads_of_schedule hok
    exact h.sameThreads hwork hsame (.of_eq hkstack) h.user_frames
  | select hwork hkernel hok => exact h.select hwork hkernel hok
  | switch hleaving hkernel hrdi hrsi hown hroom =>
    exact h.switch hleaving hkernel hrdi hrsi hown hroom

theorem machineInv_of_reachable (h : (machineSystem boot).Reachable m) : MachineInv boot m :=
  h.invariant (fun _ hinit => .init hinit) fun _ _ _ hI _ hstep => hI.step hstep

end Step

end KyroOS.Context

import KyroOS.Threads.Create
import KyroOS.Threads.RunQueue

/-!
# Runs of the scheduler

The scheduler from `thread_init` on: threads are added, block, are woken and exit, and the
timer or a thread calls `schedule`. A thread that has exited does nothing but call
`schedule`, with interrupts off.

## Main definitions

* `RingEvent`, `ringStep` — the steps, and `ringSystem` — their runs
* `SearchesEnd` — the condition under which every call of `schedule` goes well

## Main results

* `ringInv_of_reachable` — the ring is in order as long as the searches end
* `settles_iff_of_reachable` — then a call of `schedule` goes well exactly when its search
  ends
* `not_settles_after_exit` — a thread that exits can make the next call of another thread
  run forever
-/

namespace KyroOS.Threads

open KyroOS.Memory CircularList Transition

/-! ### The steps -/

/-- What happens to the scheduler. -/
inductive RingEvent
  /-- A thread is created, with the record `t` at the block `p`, and added to the ring. -/
  | add (p : Word) (t : Thread)
  /-- The timer or the current thread calls `schedule`. -/
  | schedule (turns : ℕ) (rsp : Word)
  /-- The current thread marks itself BLOCKED. -/
  | block
  /-- A thread is marked READY, by `waitqueue_wakeup_one` or by a packet. -/
  | wake (p : Word)
  /-- The current thread enters `thread_exit`. -/
  | exit

/-- A `thread_t` at a new block. -/
def Kernel.place (k : Kernel) (p : Word) (t : Thread) : Kernel :=
  { k with thread := Function.update k.thread p t, live := insert p k.live }

/-- One step, if it can happen. -/
def ringStep (k : Kernel) : RingEvent → Option Kernel
  | .add p t =>
    if k.Runs ∧ p ≠ 0 ∧ p ∉ k.live then (schedulerAddThread (k.place p t) p).toOption else none
  | .schedule turns rsp => (scheduleAndSwitch turns k rsp).toOption
  | .block => if k.Runs then some (k.setState k.currentThread .blocked) else none
  | .wake p =>
    if k.Runs ∧ p ∈ k.live ∧ (k.thread p).state ≠ .dead then some (k.setState p .ready) else none
  | .exit => if k.Runs then some (threadExit k) else none

/-- The runs from `thread_init` on. -/
def ringSystem : System Kernel RingEvent where
  init k := ∃ k₀ block rsp, k₀.live = ∅ ∧ threadInit k₀ block rsp = .ok k
  step k e k' := ringStep k e = some k'

/-- Every search of `schedule` ends. -/
def SearchesEnd (k : Kernel) (e : RingEvent) : Prop :=
  ∀ turns rsp, e = .schedule turns rsp → k.SearchEnds

/-! ### The invariant -/

section Invariant

variable {k k' : Kernel} {p : Word} {t : Thread} {e : RingEvent}

theorem ringInv_init (h : ringSystem.init k) : RingInv k := by
  obtain ⟨k₀, block, rsp, hempty, hinit⟩ := h
  rw [threadInit] at hinit
  split_ifs at hinit with hblock
  obtain rfl := Except.ok.inj hinit
  refine ⟨?_, ?_, .inl rfl⟩
  · exact Finset.mem_insert_self _ _
  · show (0 : Word) ∉ insert block k₀.live
    rw [hempty]
    simpa using Ne.symm hblock

/-- The ring is in the links, and the invariant in three other fields. -/
theorem OnRing.congr {l : List Word} (h : OnRing k l) (hnext : k'.next = k.next)
    (hqueue : k'.readyQueue = k.readyQueue) (hlive : k'.live = k.live) : OnRing k' l where
  ring := hnext ▸ h.ring
  entry := hqueue ▸ h.entry
  live := hlive ▸ h.live

theorem RingInv.congr (h : RingInv k) (hnext : k'.next = k.next)
    (hqueue : k'.readyQueue = k.readyQueue) (hlive : k'.live = k.live)
    (hcurrent : k'.currentThread = k.currentThread) : RingInv k' where
  current := by
    rw [hcurrent, hlive]
    exact h.current
  zero := hlive ▸ h.zero
  ring := by
    rw [hqueue]
    exact h.ring.imp_right fun ⟨l, hl⟩ => ⟨l, hl.congr hnext hqueue hlive⟩

/-- States do not matter for the ring. -/
theorem RingInv.setState (h : RingInv k) (p : Word) (state : ThreadState) :
    RingInv (k.setState p state) :=
  h.congr (setState_next k p state) rfl rfl rfl

theorem place_next_of_ne {q : Word} (h : q ≠ p) : (k.place p t).next q = k.next q := by
  simp [Kernel.next, Kernel.place, h]

/-- A thread that is not on the ring is alone there then, or enters it behind its last thread. No
state changes. -/
theorem RingInv.add_ring (h : RingInv k) (hp : p ≠ 0) (hoff : ∀ l, OnRing k l → p ∉ l)
    (hadd : schedulerAddThread (k.place p t) p = .ok k') :
    k'.live = insert p k.live ∧ k'.currentThread = k.currentThread ∧ k'.readyQueue = p ∧
      (∀ q, (k'.thread q).state = ((k.place p t).thread q).state) ∧
      (k.readyQueue = 0 ∧ OnRing k' [p] ∨
        ∃ l, OnRing k (l ++ [k.readyQueue]) ∧ OnRing k' (l ++ [k.readyQueue] ++ [p])) := by
  unfold schedulerAddThread at hadd
  rw [if_neg hp] at hadd
  rcases h.ring with hqueue | ⟨l, hl⟩
  · -- the ring was empty
    rw [if_pos (show (k.place p t).readyQueue = 0 from hqueue)] at hadd
    obtain rfl := Except.ok.inj hadd
    refine ⟨rfl, rfl, rfl, fun q => setNext_fields _ p q _ Thread.state fun _ _ => rfl,
      .inl ⟨hqueue, ?_, List.mem_singleton_self p, ?_⟩⟩
    · refine ring_singleton.mpr ?_
      show ((k.place p t).setNext p p).next p = p
      rw [setNext_next, Function.update_self]
    · intro q hq
      rw [List.mem_singleton.mp hq]
      exact Finset.mem_insert_self _ _
  · have hqueue : k.readyQueue ≠ 0 := fun h0 => h.zero (h0 ▸ hl.live _ hl.entry)
    have hlive : k.readyQueue ∈ (k.place p t).live :=
      Finset.mem_insert_of_mem (hl.live _ hl.entry)
    rw [if_neg (show (k.place p t).readyQueue ≠ 0 from hqueue),
      if_neg (show ¬ (k.place p t).readyQueue ∉ (k.place p t).live from not_not.mpr hlive)] at hadd
    obtain rfl := Except.ok.inj hadd
    obtain ⟨l, hl, hlast, -⟩ := hl.normal
    obtain ⟨m, rfl⟩ : ∃ m, l = m ++ [k.readyQueue] := by
      rcases List.eq_nil_or_concat l with rfl | ⟨m, q, rfl⟩
      · simp at hlast
      · rw [List.concat_eq_append, List.getLast?_concat] at hlast
        exact ⟨m, by rw [List.concat_eq_append, Option.some.inj hlast]⟩
    have hpl : p ∉ m ++ [k.readyQueue] := hoff _ hl
    have hstate : ∀ q w w', ((((k.place p t).setNext p w).setNext k.readyQueue w').thread q).state =
        ((k.place p t).thread q).state := fun q w w' =>
      (setNext_fields _ k.readyQueue q w' Thread.state fun _ _ => rfl).trans
        (setNext_fields _ p q w Thread.state fun _ _ => rfl)
    refine ⟨rfl, rfl, rfl, fun q => hstate q _ _, .inr ⟨m, hl, ?_, by simp, ?_⟩⟩
    · have hring : Ring (k.place p t).next (m ++ [k.readyQueue]) :=
        hl.ring.congr fun q hq => place_next_of_ne fun heq => hpl (heq ▸ hq)
      have hlink := hring.link hpl
      show Ring (((k.place p t).setNext p _).setNext k.readyQueue p).next _
      rw [setNext_next, setNext_next]
      exact hlink
    · intro q hq
      rcases List.mem_append.mp hq with hq | hq
      · exact Finset.mem_insert_of_mem (hl.live q hq)
      · rw [List.mem_singleton.mp hq]
        exact Finset.mem_insert_self _ _

theorem RingInv.add (h : RingInv k) (hp : p ≠ 0) (hoff : ∀ l, OnRing k l → p ∉ l)
    (hadd : schedulerAddThread (k.place p t) p = .ok k') : RingInv k' := by
  obtain ⟨hlive, hcurrent, -, -, hring⟩ := h.add_ring hp hoff hadd
  refine ⟨?_, ?_, .inr ?_⟩
  · rw [hcurrent, hlive]
    exact Finset.mem_insert_of_mem h.current
  · rw [hlive, Finset.mem_insert, not_or]
    exact ⟨Ne.symm hp, h.zero⟩
  · rcases hring with ⟨-, hnew⟩ | ⟨l, -, hnew⟩
    · exact ⟨_, hnew⟩
    · exact ⟨_, hnew⟩

/-- A thread at a new block is not on the ring. -/
theorem OnRing.notMem_of_fresh {l : List Word} (hfresh : p ∉ k.live) (hl : OnRing k l) : p ∉ l :=
  fun hmem => hfresh (hl.live p hmem)

/-- A call of `schedule` that goes well leaves the ring in order. -/
theorem RingInv.settled (h : RingInv k) (hs : Settled k k') : RingInv k' := by
  refine ⟨hs.current, fun hmem => h.zero (hs.live hmem), ?_⟩
  rcases hs.ring with ⟨hqueue, rfl⟩ | ⟨-, l', -, hl', -⟩
  · exact .inl hqueue
  · exact .inr ⟨l', hl'⟩

/-- `thread_switch` changes neither the links nor the blocks. -/
theorem RingInv.threadSwitch (h : RingInv k) (old new rsp : Word) :
    RingInv (threadSwitch k old new rsp) := by
  apply h.congr
  · exact threadSwitch_next ..
  · exact threadSwitch_readyQueue ..
  · exact threadSwitch_live ..
  · exact threadSwitch_currentThread ..

/-- A call of `schedule` whose search ends leaves the ring in order. -/
theorem RingInv.schedule (h : RingInv k) (hends : k.SearchEnds) {turns : ℕ} {rsp : Word}
    (hok : scheduleAndSwitch turns k rsp = .ok k') : RingInv k' := by
  rw [scheduleAndSwitch, Outcome.bind_eq_ok] at hok
  obtain ⟨⟨k₁, switch⟩, hschedule, hswitch⟩ := hok
  have hinv := h.settled (settled_of_ok h hends hschedule)
  match switch, hswitch with
  | none, hswitch => exact Except.ok.inj hswitch ▸ hinv
  | some (old, new), hswitch => exact Except.ok.inj hswitch ▸ hinv.threadSwitch old new rsp

/-- The step lemma. -/
theorem RingInv.step (h : RingInv k) (hends : SearchesEnd k e) (hstep : ringStep k e = some k') :
    RingInv k' := by
  cases e with
  | add p t =>
    rw [ringStep] at hstep
    split_ifs at hstep with hguard
    exact h.add hguard.2.1 (fun _ => OnRing.notMem_of_fresh hguard.2.2) (by
      cases hadd : schedulerAddThread (k.place p t) p with
      | error e => simp [hadd, Except.toOption] at hstep
      | ok k'' => simpa [hadd, Except.toOption] using hstep)
  | schedule turns rsp =>
    rw [ringStep] at hstep
    exact h.schedule (hends turns rsp rfl) (by
      cases hok : scheduleAndSwitch turns k rsp with
      | error e => simp [hok, Except.toOption] at hstep
      | ok k'' => simpa [hok, Except.toOption] using hstep)
  | block =>
    rw [ringStep] at hstep
    split_ifs at hstep
    exact Option.some.inj hstep ▸ h.setState _ _
  | wake p =>
    rw [ringStep] at hstep
    split_ifs at hstep
    exact Option.some.inj hstep ▸ h.setState _ _
  | exit =>
    rw [ringStep] at hstep
    split_ifs at hstep
    exact Option.some.inj hstep ▸ h.setState _ _

/-- The ring is in order in every run whose searches end. -/
theorem ringInv_of_reachable (h : ringSystem.ReachableUnder SearchesEnd k) : RingInv k :=
  h.invariant (fun _ => ringInv_init) fun _ _ _ hinv hends hstep => hinv.step hends hstep

/-- In every run whose searches end, a call of `schedule` ends with the ring in order, and
it is only the calls whose search does not end that do not. -/
theorem settles_iff_of_reachable (h : ringSystem.ReachableUnder SearchesEnd k) :
    (∃ turns, Settles k (schedule turns k)) ↔ k.SearchEnds :=
  settles_iff_searchEnds (ringInv_of_reachable h)

end Invariant

/-! ### A thread that exits -/

section Exit

/-- The kernel after `thread_init`. -/
def bootKernel : Kernel := (threadInit clearKernel 0x1000 0).toOption.getD clearKernel

theorem init_bootKernel : ringSystem.init bootKernel := ⟨clearKernel, 0x1000, 0, rfl, rfl⟩

/-- The first thread runs, and is the only one on the ring. -/
theorem settles_iff_of_first_switch : ∃ k, ringSystem.ReachableUnder SearchesEnd k ∧
    k.currentThread = 0x2000 ∧ ((∃ turns, Settles k (schedule turns k)) ↔ k.SearchEnds) := by
  obtain ⟨k, hk, hcurrent⟩ := System.exists_reachableUnder (C := SearchesEnd)
    (P := fun k : Kernel => k.currentThread = 0x2000)
    (fun k e => if k.Reapable (k.next k.readyQueue) then none else ringStep k e)
    [.add 0x2000 (readyThread 1), .schedule 1 0]
    (fun k e k' h => by
      split_ifs at h with hstart
      exact ⟨e, fun _ _ _ => .inr (.inl hstart), h⟩)
    init_bootKernel (by decide)
  exact ⟨k, hk, hcurrent, settles_iff_of_reachable hk⟩

theorem onRing_pair {k : Kernel} {a b : Word} (hne : a ≠ b) (hqueue : k.readyQueue = b)
    (hab : k.next a = b) (hba : k.next b = a) (ha : a ∈ k.live) (hb : b ∈ k.live) :
    OnRing k [a, b] := by
  refine ⟨⟨by simpa using hne, ?_⟩, by simp [hqueue], ?_⟩
  · rw [Cycle.chain_coe_cons, List.cons_append, List.isChain_cons_cons]
    exact ⟨hab, List.isChain_pair.mpr hba⟩
  · intro p hp
    rcases List.mem_pair.mp hp with rfl | rfl
    · exact ha
    · exact hb

/-- The shell runs, a second thread is created, runs and exits. The shell is switched to,
and the next call of `schedule` never comes back: it frees the thread it starts at, and the
shell itself is not READY. -/
theorem not_settles_after_exit :
    ¬ ∀ k, ringSystem.Reachable k → ∃ turns, Settles k (schedule turns k) := by
  intro hall
  obtain ⟨k, hk, hqueue, hshell, hchild, hreap, hs, hc, hlive⟩ :=
    System.exists_reachableUnder (S := ringSystem) (C := fun _ _ => True)
      (P := fun k : Kernel => k.readyQueue = 0x2000 ∧ k.next 0x2000 = 0x3000 ∧
        k.next 0x3000 = 0x2000 ∧ k.Reapable 0x3000 ∧ (k.thread 0x2000).state ≠ .ready ∧
        (k.thread 0x3000).state ≠ .ready ∧
        (k.currentThread ∈ k.live ∧ 0 ∉ k.live ∧ 0x2000 ∈ k.live ∧ 0x3000 ∈ k.live))
      ringStep
      [.add 0x2000 (readyThread 1), .schedule 1 0, .add 0x3000 (readyThread 2),
        .schedule 2 0, .exit, .schedule 1 0]
      (fun k e k' h => ⟨e, trivial, h⟩) init_bootKernel (by decide)
  have hring : OnRing k [0x3000, 0x2000] :=
    onRing_pair (by decide) hqueue hchild hshell hlive.2.2.2 hlive.2.2.1
  have hinv : RingInv k := ⟨hlive.1, hlive.2.1, .inr ⟨_, hring⟩⟩
  obtain hends := (settles_iff_searchEnds hinv).mp (hall k hk)
  rcases hends with hzero | hstart | ⟨p, hp, hready⟩
  · rw [hqueue] at hzero
    cases hzero
  · rw [hqueue, hshell] at hstart
    exact hstart hreap
  · -- neither of the two threads on the ring is READY
    have hmem := (hring.ring.reaches_iff hring.entry).mp hp
    rcases List.mem_pair.mp hmem with rfl | rfl
    · exact hc hready
    · exact hs hready

end Exit

end KyroOS.Threads

import KyroOS.Threads.Reaper
import KyroOS.Threads.RingRuns

/-!
# Runnable threads and the ring

`schedule` finds READY threads on the ring only. `thread_init` does not put the first thread on it,
so that nothing finds this thread once it is READY.

## Main definitions

* `Kernel.OnReadyQueue` — the threads that `schedule` can find
* `Kernel.NoneLost` — it can find every READY thread, and panics only when there is none
* `KeepsListed` — no thread becomes READY off the ring

## Main results

* `schedule_states` — what a call of `schedule` that comes back does to the states
* `listed_iff_of_step` — a step loses no thread exactly when it makes none READY off the ring
* `noneLost_of_reachable` — in every run of such steps no thread is lost
-/

namespace KyroOS.Threads

open KyroOS.Memory CircularList Transition

/-! ### What `schedule` does to the states -/

/-- The links from `ready_queue`, unless it is `NULL`, lead to `p`. -/
def Kernel.OnReadyQueue (k : Kernel) (p : Word) : Prop := k.readyQueue ≠ 0 ∧ k.Reaches p

/-- The message of the panic in `schedule`. -/
def noRunnable : Halt := .panic "Scheduler: No runnable threads!"

section Schedule

variable {k k' : Kernel} {l : List Word} {p q rsp : Word} {turns : ℕ}
  {switch : Option (Word × Word)}

theorem OnRing.onReadyQueue_iff (h : OnRing k l) (hinv : RingInv k) : k.OnReadyQueue p ↔ p ∈ l := by
  refine ⟨fun hp => (h.ring.reaches_iff h.entry).mp hp.2, fun hp => ⟨fun hzero => ?_, ?_⟩⟩
  · exact hinv.zero (hzero ▸ h.live _ h.entry)
  · exact (h.ring.reaches_iff h.entry).mpr hp

theorem dispatch_ne_outOfFuel {old new : Word} : dispatch k old new ≠ .error .outOfFuel := by
  unfold dispatch
  split_ifs <;> exact nofun

/-- A call that comes to an end has found its way through the ring: it goes on after the loop with a
READY thread of the ring, or without one. -/
theorem schedule_dispatch (hinv : RingInv k) (hqueue : k.readyQueue ≠ 0)
    {r : Outcome (Kernel × Option (Word × Word))} (hover : schedule turns k = r)
    (hfuel : r ≠ .error .outOfFuel) (hfault : r ≠ .error .fault) :
    ∃ s : Search, r = dispatch s.kernel k.currentThread s.chosen ∧
      s.chosen ∈ s.kernel.live ∧ k.currentThread ∈ s.kernel.live ∧
      s.kernel.currentThread = k.currentThread ∧
      (∀ p, (s.kernel.thread p).state = (k.thread p).state) ∧
      (k.OnReadyQueue s.chosen ∧ (k.thread s.chosen).state = .ready ∨
        (∀ p, k.OnReadyQueue p → (k.thread p).state ≠ .ready) ∧
          (k.thread s.chosen).state ≠ .ready) := by
  have hends : k.SearchEnds := by
    by_contra hnot
    rcases schedule_of_not_searchEnds hinv hnot turns with hnever | hfreed
    · exact hfuel (hover.symm.trans hnever)
    · exact hfault (hover.symm.trans hfreed)
  obtain ⟨l, n, s, done, todo, hl, hwalk, hchosen, hready, hsearch⟩ :=
    exists_searchFrom hinv hends hqueue
  have hended := schedule_of_over hinv hqueue (hl.live _ hl.entry) hsearch
  have hmem : s.chosen ∈ l := by
    rw [hwalk.split]
    rcases List.mem_append.mp hchosen with htodo | hdone
    · exact List.mem_append_right _ htodo
    · exact List.mem_append_left _ (Walk.keep_sublist.subset hdone)
  have hcurrent : k.currentThread ∈ s.kernel.live :=
    (hwalk.live _).mpr ⟨hinv.current, fun hboth => hboth.2.2.2 rfl⟩
  have hsame : r = schedule n k := by
    rw [← hover] at hfuel ⊢
    refine schedule_unique hfuel ?_
    rw [hended]
    exact dispatch_ne_outOfFuel
  refine ⟨s, hsame.trans hended, hwalk.mem_live hchosen, hcurrent, hwalk.current, hwalk.state, ?_⟩
  rcases hready with hready | hnone
  · exact .inl ⟨(hl.onReadyQueue_iff hinv).mpr hmem, hready⟩
  · refine .inr ⟨fun p hp => hnone p ((hl.onReadyQueue_iff hinv).mp hp), hnone _ hmem⟩

/-- What a call that comes back does to the states: it switches to a READY thread of the ring, or
there is none and it does nothing to them. -/
theorem schedule_states (hinv : RingInv k) (hok : schedule turns k = .ok (k', switch)) :
    (∃ new, k.OnReadyQueue new ∧ (k.thread new).state = .ready ∧ k'.currentThread = new ∧
      ∀ p, (k'.thread p).state = if p = new then .running
        else if p = k.currentThread ∧ (k.thread p).state = .running then .ready
        else (k.thread p).state) ∨
    (∀ p, k.OnReadyQueue p → (k.thread p).state ≠ .ready) ∧
      k'.currentThread = k.currentThread ∧ ∀ p, (k'.thread p).state = (k.thread p).state := by
  by_cases hqueue : k.readyQueue = 0
  · rw [schedule, if_pos (.inr hqueue)] at hok
    obtain ⟨rfl, -⟩ := Prod.mk.inj (Except.ok.inj hok)
    exact .inr ⟨fun p hp => absurd hqueue hp.1, rfl, fun p => rfl⟩
  obtain ⟨s, hdispatch, hchosen, hcurrent, hsame, hstate, hcases⟩ :=
    schedule_dispatch hinv hqueue hok (by simp) (by simp)
  rw [dispatch, if_neg (by simp [hchosen, hcurrent]), hstate, hstate] at hdispatch
  rcases hcases with ⟨honqueue, hready⟩ | ⟨hnone, hnot⟩
  · rw [if_neg (not_not.mpr hready)] at hdispatch
    have hselect : k'.currentThread = s.chosen ∧
        k'.thread = (select s.kernel k.currentThread s.chosen).thread := by
      split_ifs at hdispatch
      · obtain ⟨rfl, -⟩ := Prod.mk.inj (Except.ok.inj hdispatch)
        exact ⟨setTssStack_currentThread _ _, setTssStack_thread _ _⟩
      · obtain ⟨rfl, -⟩ := Prod.mk.inj (Except.ok.inj hdispatch)
        exact ⟨rfl, rfl⟩
    refine .inl ⟨s.chosen, honqueue, hready, hselect.1, fun p => ?_⟩
    rw [hselect.2, select_state, hstate]
  · rw [if_pos hnot] at hdispatch
    split_ifs at hdispatch
    obtain ⟨rfl, -⟩ := Prod.mk.inj (Except.ok.inj hdispatch)
    exact .inr ⟨hnone, hsame, hstate⟩

/-- The panic comes only when no thread of the ring is READY. -/
theorem not_ready_of_panic (hinv : RingInv k) (hpanic : schedule turns k = .error noRunnable)
    (hp : k.OnReadyQueue p) : (k.thread p).state ≠ .ready := by
  obtain ⟨s, hdispatch, hchosen, hcurrent, -, hstate, hcases⟩ :=
    schedule_dispatch hinv hp.1 hpanic (by simp [noRunnable]) (by simp [noRunnable])
  rcases hcases with ⟨-, hready⟩ | ⟨hnone, -⟩
  · rw [dispatch, if_neg (by simp [hchosen, hcurrent]), hstate,
      if_neg (not_not.mpr hready)] at hdispatch
    split_ifs at hdispatch <;> cases hdispatch
  · exact hnone p hp

/-- What is on the ring after a call of `schedule`: what was there and is not freed. -/
theorem Settled.onReadyQueue_iff (h : Settled k k') (hinv : RingInv k) (hinv' : RingInv k') :
    k'.OnReadyQueue p ↔ k.OnReadyQueue p ∧ p ∈ k'.live := by
  rcases h.ring with ⟨hqueue, rfl⟩ | ⟨l, l', hl, hl', hrotated⟩
  · exact ⟨fun hp => absurd hqueue hp.1, fun hp => hp.1⟩
  · rw [hl.onReadyQueue_iff hinv, hl'.onReadyQueue_iff hinv', hrotated.mem_iff, List.mem_filter]
    simp

end Schedule

/-! ### What is claimed of a state -/

/-- `schedule` can find every READY thread. -/
def Kernel.Listed (k : Kernel) : Prop :=
  ∀ p ∈ k.live, (k.thread p).state = .ready → k.OnReadyQueue p

/-- Every READY thread is on the ring, and a call of `schedule` panics for want of a runnable thread
only if there is no READY thread. -/
structure Kernel.NoneLost (k : Kernel) : Prop where
  listed : k.Listed
  panics : ∀ turns, schedule turns k = .error noRunnable →
    ∀ p ∈ k.live, (k.thread p).state ≠ .ready

/-- No thread becomes READY off the ring: a thread that is woken is on it, and `schedule` does not
switch away from a RUNNING thread that is not on it. -/
def KeepsListed (k : Kernel) : RingEvent → Prop
  | .schedule _ _ => (k.thread k.currentThread).state = .running →
    ¬ k.OnReadyQueue k.currentThread → ∀ p, k.OnReadyQueue p → (k.thread p).state ≠ .ready
  | .wake p => k.OnReadyQueue p
  | .add _ _ | .block | .exit => True

section Step

variable {k k' : Kernel} {p q rsp : Word} {t : Thread} {turns : ℕ} {e : RingEvent}
  {C : Kernel → RingEvent → Prop}

theorem onReadyQueue_congr (hnext : k'.next = k.next) (hqueue : k'.readyQueue = k.readyQueue) :
    k'.OnReadyQueue p ↔ k.OnReadyQueue p := by
  unfold Kernel.OnReadyQueue Kernel.Reaches
  rw [hnext, hqueue]

theorem state_setState (k : Kernel) (p q : Word) (state : ThreadState) :
    ((k.setState p state).thread q).state = if q = p then state else (k.thread q).state := by
  split_ifs with hqp
  · rw [hqp, Kernel.setState, setThread_self]
  · rw [Kernel.setState, setThread_of_ne _ _ hqp]

/-- The whole call: `thread_switch` changes neither states nor links. -/
theorem schedule_of_scheduleAndSwitch (hok : scheduleAndSwitch turns k rsp = .ok k') :
    ∃ k₁ switch, schedule turns k = .ok (k₁, switch) ∧ k'.live = k₁.live ∧
      k'.currentThread = k₁.currentThread ∧ (∀ p, (k'.thread p).state = (k₁.thread p).state) ∧
      ∀ p, k'.OnReadyQueue p ↔ k₁.OnReadyQueue p := by
  rw [scheduleAndSwitch, Outcome.bind_eq_ok] at hok
  obtain ⟨⟨k₁, switch⟩, hschedule, hswitch⟩ := hok
  refine ⟨k₁, switch, hschedule, ?_⟩
  cases switch with
  | none =>
    obtain rfl := Except.ok.inj hswitch
    exact ⟨rfl, rfl, fun p => rfl, fun p => Iff.rfl⟩
  | some pair =>
    obtain ⟨old, new⟩ := pair
    obtain rfl := Except.ok.inj hswitch
    refine ⟨threadSwitch_live k₁ old new rsp, threadSwitch_currentThread k₁ old new rsp,
      fun p => ?_, fun p => ?_⟩
    · exact threadSwitch_fields k₁ old new p rsp Thread.state fun _ _ => rfl
    · exact onReadyQueue_congr (threadSwitch_next k₁ old new rsp)
        (threadSwitch_readyQueue k₁ old new rsp)

theorem ok_of_ringStep (h : ringStep k (.schedule turns rsp) = some k') :
    scheduleAndSwitch turns k rsp = .ok k' := Outcome.toOption_eq_some.mp h

/-- A call that comes back found its way through the ring. -/
theorem searchesEnd_of_step (hinv : RingInv k) (hstep : ringStep k e = some k') :
    SearchesEnd k e := by
  rintro turns rsp rfl
  obtain ⟨k₁, switch, hschedule, -⟩ := schedule_of_scheduleAndSwitch (ok_of_ringStep hstep)
  by_contra hnot
  rcases schedule_of_not_searchEnds hinv hnot turns with hnever | hfreed
  · cases hnever.symm.trans hschedule
  · cases hfreed.symm.trans hschedule

/-- The ring is in order in every state of every run: a run ends with a call that does not come
back. -/
theorem ringInv_of_run (h : ringSystem.ReachableUnder C k) : RingInv k :=
  h.invariant (fun _ => ringInv_init) fun _ _ _ hinv _ hstep =>
    hinv.step (searchesEnd_of_step hinv hstep) hstep

/-- A call of `schedule` loses the thread it switches away from, or none. -/
theorem listed_iff_of_schedule (hinv : RingInv k) (hlisted : k.Listed)
    (hok : scheduleAndSwitch turns k rsp = .ok k') :
    k'.Listed ↔ KeepsListed k (.schedule turns rsp) := by
  have hstep : ringStep k (.schedule turns rsp) = some k' := Outcome.toOption_eq_some.mpr hok
  have hends := searchesEnd_of_step hinv hstep turns rsp rfl
  have hinv' := hinv.schedule hends hok
  obtain ⟨k₁, switch, hschedule, hlive, -, hstate, hqueue⟩ := schedule_of_scheduleAndSwitch hok
  have hsettled := settled_of_ok hinv hends hschedule
  have hring : ∀ p, k'.OnReadyQueue p ↔ k.OnReadyQueue p ∧ p ∈ k'.live := by
    intro p
    rw [hqueue, hlive]
    exact hsettled.onReadyQueue_iff hinv (hinv.settled hsettled)
  have hcurrent : k.currentThread ∈ k'.live := by
    rw [hlive]
    by_contra hgone
    exact (hsettled.freed _ hinv.current hgone).2.2.2 rfl
  rcases schedule_states hinv hschedule with
    ⟨new, honqueue, hready, -, hstates⟩ | ⟨hnone, -, hsame⟩
  · constructor
    · intro hafter hrunning hoff
      -- the thread that is switched away from is READY now
      have hne : k.currentThread ≠ new := fun heq => hoff (heq ▸ honqueue)
      have hold : (k'.thread k.currentThread).state = .ready := by
        rw [hstate, hstates, if_neg hne, if_pos ⟨rfl, hrunning⟩]
      exact absurd ((hring _).mp (hafter _ hcurrent hold)).1 hoff
    · intro hkeeps p hp hpready
      refine (hring p).mpr ⟨?_, hp⟩
      rw [hstate, hstates] at hpready
      split_ifs at hpready with hnew hold
      · obtain ⟨rfl, hrunning⟩ := hold
        by_contra hoff
        exact hkeeps hrunning hoff new honqueue hready
      · exact hlisted p (hsettled.live (hlive ▸ hp)) hpready
  · refine iff_of_true (fun p hp hpready => (hring p).mpr ⟨?_, hp⟩) fun _ _ => hnone
    rw [hstate, hsame] at hpready
    exact hlisted p (hsettled.live (hlive ▸ hp)) hpready

/-- A new thread is on the ring, and every other one stays on it. -/
theorem Kernel.Listed.add (hlisted : k.Listed) (hinv : RingInv k) (hp : p ≠ 0)
    (hfresh : p ∉ k.live) (hadd : schedulerAddThread (k.place p t) p = .ok k') : k'.Listed := by
  have hoff : ∀ l, OnRing k l → p ∉ l := fun _ => OnRing.notMem_of_fresh hfresh
  have hinv' := hinv.add hp hoff hadd
  obtain ⟨hlive, -, -, hstate, hring⟩ := hinv.add_ring hp hoff hadd
  intro q hq hready
  have hother : q ≠ p → k.OnReadyQueue q := by
    intro hqp
    have hplace : (k.place p t).thread q = k.thread q := Function.update_of_ne hqp _ _
    have hold : (k'.thread q).state = (k.thread q).state := by rw [hstate, hplace]
    rw [hlive, Finset.mem_insert] at hq
    exact hlisted q (hq.resolve_left hqp) (hold ▸ hready)
  rcases hring with ⟨hempty, hnew⟩ | ⟨l, hl, hnew⟩
  · rw [hnew.onReadyQueue_iff hinv', List.mem_singleton]
    by_contra hqp
    exact (hother hqp).1 hempty
  · rw [hnew.onReadyQueue_iff hinv', List.mem_append, List.mem_singleton]
    by_cases hqp : q = p
    · exact .inr hqp
    · exact .inl ((hl.onReadyQueue_iff hinv).mp (hother hqp))

/-- What becomes READY by a change of one state. -/
theorem listed_setState_iff {state : ThreadState} (hlisted : k.Listed) (hp : p ∈ k.live) :
    (k.setState p state).Listed ↔ (state = .ready → k.OnReadyQueue p) := by
  have hqueue : ∀ q, (k.setState p state).OnReadyQueue q ↔ k.OnReadyQueue q := fun q =>
    onReadyQueue_congr (setState_next k p state) rfl
  constructor
  · intro hafter hstate
    refine (hqueue p).mp (hafter p hp ?_)
    rw [state_setState, if_pos rfl, hstate]
  · intro hready q hq hqready
    rw [hqueue]
    rw [state_setState] at hqready
    split_ifs at hqready with hqp
    · rw [hqp]
      exact hready hqready
    · exact hlisted q hq hqready

/-- A step loses no thread exactly when it makes none READY off the ring. -/
theorem listed_iff_of_step (hinv : RingInv k) (hlisted : k.Listed)
    (hstep : ringStep k e = some k') : k'.Listed ↔ KeepsListed k e := by
  cases e with
  | add p t =>
    rw [ringStep] at hstep
    split_ifs at hstep with hguard
    refine iff_of_true ?_ trivial
    exact hlisted.add hinv hguard.2.1 hguard.2.2 (Outcome.toOption_eq_some.mp hstep)
  | schedule turns rsp => exact listed_iff_of_schedule hinv hlisted (ok_of_ringStep hstep)
  | block =>
    rw [ringStep] at hstep
    split_ifs at hstep
    rw [← Option.some.inj hstep, listed_setState_iff hlisted hinv.current]
    exact iff_of_true (by rintro ⟨⟩) trivial
  | wake p =>
    rw [ringStep] at hstep
    split_ifs at hstep with hguard
    rw [← Option.some.inj hstep, listed_setState_iff hlisted hguard.2.1]
    exact ⟨fun h => h rfl, fun h _ => h⟩
  | exit =>
    rw [ringStep] at hstep
    split_ifs at hstep
    rw [← Option.some.inj hstep, threadExit, listed_setState_iff hlisted hinv.current]
    exact iff_of_true (by rintro ⟨⟩) trivial

/-- With every READY thread on the ring, the panic is right. -/
theorem noneLost_iff (hinv : RingInv k) : k.NoneLost ↔ k.Listed := by
  refine ⟨fun h => h.listed, fun hlisted => ⟨hlisted, fun turns hpanic p hp hready => ?_⟩⟩
  exact not_ready_of_panic hinv hpanic (hlisted p hp hready) hready

/-- After `thread_init` one thread is there, and it is RUNNING. -/
theorem listed_init (h : ringSystem.init k) : k.Listed := by
  obtain ⟨k₀, block, rsp, hempty, hinit⟩ := h
  rw [threadInit] at hinit
  split_ifs at hinit with hblock
  obtain rfl := Except.ok.inj hinit
  intro p hp hready
  obtain rfl : p = block := by
    have hmem : p ∈ insert block k₀.live := hp
    rwa [hempty, Finset.mem_insert, or_iff_left (Finset.notMem_empty p)] at hmem
  simp at hready

/-- In every run in which no thread becomes READY off the ring, none is lost; and a step of such a
run loses none exactly when it makes none READY off the ring. -/
theorem noneLost_of_reachable (h : ringSystem.ReachableUnder KeepsListed k) :
    k.NoneLost ∧ ∀ e k', ringSystem.step k e k' → (k'.NoneLost ↔ KeepsListed k e) := by
  have hinv := ringInv_of_run h
  have hlisted : k.Listed := h.invariant₂ (fun _ => ringInv_of_run) (fun _ => listed_init)
    fun _ _ _ hinv hlisted hkeeps hstep => (listed_iff_of_step hinv hlisted hstep).mpr hkeeps
  refine ⟨(noneLost_iff hinv).mpr hlisted, fun e k' hstep => ?_⟩
  rw [noneLost_iff (hinv.step (searchesEnd_of_step hinv hstep) hstep)]
  exact listed_iff_of_step hinv hlisted hstep

end Step

/-! ### The first switch -/

/-- A step that keeps the READY threads listed whatever the ring is. -/
def keepingNext (k : Kernel) : RingEvent → Option Kernel
  | .schedule turns rsp =>
    if (k.thread k.currentThread).state = .running then none else ringStep k (.schedule turns rsp)
  | .wake _ => none
  | e => ringStep k e

theorem allowed_of_keepingNext (k : Kernel) (e : RingEvent) (k' : Kernel)
    (h : keepingNext k e = some k') : ringSystem.Allowed KeepsListed k k' := by
  refine ⟨e, ?_, ?_⟩
  · cases e with
    | schedule turns rsp =>
      intro hrunning
      rw [keepingNext, if_pos hrunning] at h
      cases h
    | wake p => cases h
    | add p t => trivial
    | block => trivial
    | exit => trivial
  · cases e with
    | schedule turns rsp =>
      rw [keepingNext] at h
      split_ifs at h
      exact h
    | wake p => cases h
    | add p t => exact h
    | block => exact h
    | exit => exact h

/-- The first thread blocks, and the shell is switched to. -/
theorem noneLost_of_blocked : ∃ k : Kernel, k.currentThread = 0x2000 ∧ k.NoneLost ∧
    ∀ e k', ringSystem.step k e k' → (k'.NoneLost ↔ KeepsListed k e) := by
  obtain ⟨k, hk, hcurrent⟩ := System.exists_reachableUnder (P := fun k : Kernel =>
    k.currentThread = 0x2000) keepingNext
    [.add 0x2000 (readyThread 1), .block, .schedule 1 0] allowed_of_keepingNext init_bootKernel
    (by decide)
  exact ⟨k, hcurrent, noneLost_of_reachable hk⟩

/-- The timer switches from the first thread to the shell. -/
theorem not_noneLost : ¬ ∀ k, ringSystem.Reachable k → k.NoneLost := by
  intro hall
  obtain ⟨k, hk, hqueue, hnext, hready, hlive, hshell, hcurrent, hzero⟩ :=
    System.exists_reachableUnder (S := ringSystem) (C := fun _ _ => True)
      (P := fun k : Kernel => k.readyQueue = 0x2000 ∧ k.next 0x2000 = 0x2000 ∧
        (k.thread 0x1000).state = .ready ∧ 0x1000 ∈ k.live ∧ 0x2000 ∈ k.live ∧
        k.currentThread ∈ k.live ∧ 0 ∉ k.live)
      ringStep [.add 0x2000 (readyThread 1), .schedule 1 0]
      (fun k e k' h => ⟨e, trivial, h⟩) init_bootKernel (by decide)
  have hring : OnRing k [0x2000] := by
    refine ⟨ring_singleton.mpr hnext, by simp [hqueue], fun p hp => ?_⟩
    rw [List.mem_singleton.mp hp]
    exact hshell
  have hlisted := (hall k hk).listed 0x1000 hlive hready
  rw [hring.onReadyQueue_iff ⟨hcurrent, hzero, .inr ⟨_, hring⟩⟩] at hlisted
  exact absurd (List.mem_singleton.mp hlisted) (by decide)

end KyroOS.Threads

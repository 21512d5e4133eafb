import KyroOS.Lib.RoundRobin
import KyroOS.Threads.Runnable

/-!
# Round robin

While no thread blocks or exits, the threads on the ring take turns. `schedule` moves `ready_queue`
to the thread that it switches to, and `scheduler_add_thread` to the new thread, so that the threads
added since the last switch lie between the current thread and `ready_queue`.

## Main definitions

* `RunnableRing` — every thread on the ring can run
* `QueueStep`, `queueSystem` — the calls of the scheduler from such a ring on
* `Kernel.pick` — the thread that a call of `schedule` switches to
* `InRound` — the ring is a `Round`
* `Kernel.TakesTurns` — what round robin promises

## Main results

* `schedule_first` — `schedule` switches to the first READY thread behind `ready_queue`
* `InRound.step` — the calls of the scheduler are steps of a `Round`
* `takesTurns_of_reachable` — the threads take turns
-/

namespace KyroOS.Threads

open KyroOS.Memory CircularList Transition RoundRobin

/-! ### The calls -/

/-- Every thread on the ring is READY or RUNNING, the current thread is on the ring, and no other
one is RUNNING. -/
structure RunnableRing (k : Kernel) : Prop where
  inv : RingInv k
  current : k.OnReadyQueue k.currentThread
  runnable : ∀ p, k.OnReadyQueue p → (k.thread p).state = .ready ∨ (k.thread p).state = .running
  running : ∀ p, k.OnReadyQueue p → (k.thread p).state = .running → p = k.currentThread

/-- A call of the scheduler: of `schedule`, or of `scheduler_add_thread` with the thread `p`, whose
record is `t`. -/
inductive QueueCall
  | schedule (turns : ℕ) (rsp : Word)
  | add (p : Word) (t : Thread)

/-- What a call does. A thread that is added is READY, and is not on the ring. -/
inductive QueueStep (k : Kernel) : QueueCall → Kernel → Prop
  | schedule {turns : ℕ} {rsp : Word} {k' : Kernel} (hok : scheduleAndSwitch turns k rsp = .ok k') :
    QueueStep k (.schedule turns rsp) k'
  | add {p : Word} {t : Thread} {k' : Kernel} (hp : p ≠ 0) (hoff : ¬ k.OnReadyQueue p)
    (hready : t.state = .ready) (hok : schedulerAddThread (k.place p t) p = .ok k') :
    QueueStep k (.add p t) k'
  | addNull {t : Thread} {k' : Kernel} (hok : schedulerAddThread k 0 = .ok k') :
    QueueStep k (.add 0 t) k'

/-- The calls of the scheduler, from a ring of threads that can run. -/
def queueSystem : System Kernel QueueCall where
  init := RunnableRing
  step := QueueStep

/-- The thread that a call of `schedule` switches to: the one the loop chose, if it is READY. -/
def Kernel.pick (k : Kernel) (turns : ℕ) : Option Word :=
  if k.currentThread = 0 ∨ k.readyQueue = 0 then none
  else
    let s := (searchFrom k turns).1
    if (s.kernel.thread s.chosen).state = .ready then some s.chosen else none

/-- The thread that a call dispatches. -/
def dispatched (k : Kernel) : QueueCall → Option Word
  | .schedule turns _ => k.pick turns
  | .add _ _ => none

/-- `schedule` comes back with one thread or another; when it dispatches a thread and does so again
later, every other thread on the ring is dispatched exactly once in between; and a thread that is
added changes nothing about the order of the others. -/
structure Kernel.TakesTurns (k : Kernel) : Prop where
  returns : ∃ turns k' switch, schedule turns k = .ok (k', switch)
  turns : ∀ {c c' t k₁ k₂ k₃ ds}, queueSystem.step k c k₁ → dispatched k c = some t →
    queueSystem.Outputs dispatched k₁ ds k₂ → queueSystem.step k₂ c' k₃ →
    dispatched k₂ c' = some t → t ∉ ds → ∀ p, k.OnReadyQueue p → p ≠ t → ds.count p = 1
  order : ∀ {p t k₁ l l'}, queueSystem.step k (.add p t) k₁ → OnRing k l → OnRing k₁ l' →
    l'.filter (fun q => q ∈ l) ~r l

/-! ### A call of `schedule` -/

section Schedule

variable {k k' : Kernel} {l before after : List Word} {x p rsp : Word} {turns : ℕ}

/-- Searches that come to an end do so alike. -/
theorem searchFrom_unique {n m : ℕ} {s s' : Search} (hn : searchFrom k n = (s, .ended))
    (hm : searchFrom k m = (s', .ended)) : s = s' := by
  have hn' : searchFrom k (n + m) = (s, .ended) := search_mono (by simp) hn m
  have hm' : searchFrom k (m + n) = (s', .ended) := search_mono (by simp) hm n
  rw [Nat.add_comm, hn'] at hm'
  exact congrArg Prod.fst hm'

/-- Calls that come back do so alike. -/
theorem schedule_ok_unique {n m : ℕ} {r r' : Kernel × Option (Word × Word)}
    (hn : schedule n k = .ok r) (hm : schedule m k = .ok r') : r = r' := by
  have hsame : schedule n k = schedule m k := schedule_unique (by simp [hn]) (by simp [hm])
  exact Except.ok.inj (hn.symm.trans (hsame.trans hm))

/-- A call that comes back has ended its search. -/
theorem exists_searchFrom_of_ok (hcurrent : k.currentThread ≠ 0) (hqueue : k.readyQueue ≠ 0)
    {r : Kernel × Option (Word × Word)} (hok : schedule turns k = .ok r) :
    ∃ s, searchFrom k turns = (s, .ended) := by
  rw [schedule, if_neg (not_or.mpr ⟨hcurrent, hqueue⟩)] at hok
  split_ifs at hok
  cases hsearch : searchFrom k turns with
  | mk s e =>
    rw [hsearch] at hok
    cases e with
    | running => cases hok
    | fault => cases hok
    | ended => exact ⟨s, rfl⟩

/-- The thread that a call switches to, whatever the number of turns. -/
theorem pick_of_searchFrom (hinv : RingInv k) (hqueue : k.readyQueue ≠ 0) {n : ℕ} {s : Search}
    (hn : searchFrom k n = (s, .ended)) {r : Kernel × Option (Word × Word)}
    (hok : schedule turns k = .ok r) :
    k.pick turns = if (s.kernel.thread s.chosen).state = .ready then some s.chosen else none := by
  have hcurrent : k.currentThread ≠ 0 := fun hzero => hinv.zero (hzero ▸ hinv.current)
  obtain ⟨s', hsearch⟩ := exists_searchFrom_of_ok hcurrent hqueue hok
  obtain rfl := searchFrom_unique hn hsearch
  rw [Kernel.pick, if_neg (not_or.mpr ⟨hcurrent, hqueue⟩), hsearch]

/-- The ring from the thread behind `ready_queue` on. -/
theorem OnRing.head (hl : OnRing k l) (hlast : l.getLast? = some k.readyQueue) :
    l.head? = some (k.next k.readyQueue) := by
  obtain ⟨m, rfl⟩ := List.getLast?_eq_some_iff.mp hlast
  exact hl.ring.next_last

/-- The part after the loop, for a READY thread. -/
theorem dispatch_ready {old new : Word} (hnew : new ∈ k.live) (hold : old ∈ k.live)
    (hready : (k.thread new).state = .ready) : ∃ k' switch, dispatch k old new = .ok (k', switch) ∧
      k'.next = k.next ∧ k'.live = k.live ∧ k'.readyQueue = new ∧ k'.currentThread = new ∧
      ∀ p, (k'.thread p).state = if p = new then .running
        else if p = old ∧ (k.thread p).state = .running then .ready else (k.thread p).state := by
  unfold dispatch
  rw [if_neg (by simp [hnew, hold]), if_neg (not_not.mpr hready)]
  split_ifs
  · exact ⟨_, _, rfl, by simp, by simp, by simp, by simp, fun p => by
      rw [setTssStack_thread, select_state]⟩
  · exact ⟨_, _, rfl, by simp, by simp, by simp, by simp, fun p => select_state k old new p⟩

/-- `schedule` switches to the first READY thread behind `ready_queue`, and to no other one. -/
theorem schedule_first (hinv : RingInv k) (hl : OnRing k (before ++ x :: after))
    (hlast : (before ++ x :: after).getLast? = some k.readyQueue)
    (hdead : ∀ p ∈ before, (k.thread p).state ≠ .dead)
    (hbefore : ∀ p ∈ before, (k.thread p).state ≠ .ready) (hx : (k.thread x).state = .ready) :
    ∃ n s k₁ switch, searchFrom k n = (s, .ended) ∧ schedule n k = .ok (k₁, switch) ∧
      s.chosen = x ∧ (s.kernel.thread x).state = .ready ∧
      OnRing k₁ (x :: (after ++ before)) ∧ k₁.readyQueue = x ∧ k₁.currentThread = x ∧
      ∀ p, (k₁.thread p).state = if p = x then .running
        else if p = k.currentThread ∧ (k.thread p).state = .running then .ready
        else (k.thread p).state := by
  have hqueue : k.readyQueue ≠ 0 := fun hzero => hinv.zero (hzero ▸ hl.live _ hl.entry)
  have hwalk := Walk.begin hl.ring hl.live hinv.zero hlast (hl.head hlast)
  obtain ⟨s, hwalk', hchosen, hsearch⟩ := hwalk.search_finds (hl.head hlast) hbefore hx
  -- no thread is freed on the way
  have hkeep : keep k before = before := by
    refine List.filter_eq_self.mpr fun p hp => ?_
    simpa using fun hreap : k.Reapable p => hdead p hp hreap.1
  rw [List.nil_append] at hwalk'
  have hring := hwalk'.ring
  rw [hkeep] at hring
  have hlive : ∀ p ∈ x :: (after ++ before), p ∈ s.kernel.live := by
    intro p hp
    exact hwalk'.mem_live (by rw [hkeep]; exact hp)
  have hcurrent : k.currentThread ∈ s.kernel.live :=
    (hwalk'.live _).mpr ⟨hinv.current, fun hboth => hboth.2.2.2 rfl⟩
  have hxready : (s.kernel.thread x).state = .ready := (hwalk'.state x).trans hx
  obtain ⟨k₁, switch, hok, hnext, hlive', hqueue', hcurrent', hstate⟩ :=
    dispatch_ready (hlive x List.mem_cons_self) hcurrent hxready
  refine ⟨_, s, k₁, switch, hsearch, ?_, hchosen, hxready, ⟨?_, ?_, ?_⟩, hqueue', hcurrent', ?_⟩
  · rw [schedule_of_over hinv hqueue (hl.live _ hl.entry) hsearch, hchosen, hok]
  · rw [hnext]
    exact hring
  · rw [hqueue']
    exact List.mem_cons_self
  · rw [hlive']
    exact hlive
  · intro p
    rw [hstate, hwalk'.state]

/-- The same for the whole call, with any number of turns. -/
theorem scheduleAndSwitch_first (hinv : RingInv k) (hl : OnRing k (before ++ x :: after))
    (hlast : (before ++ x :: after).getLast? = some k.readyQueue)
    (hdead : ∀ p ∈ before, (k.thread p).state ≠ .dead)
    (hbefore : ∀ p ∈ before, (k.thread p).state ≠ .ready) (hx : (k.thread x).state = .ready)
    (hok : scheduleAndSwitch turns k rsp = .ok k') :
    k.pick turns = some x ∧ OnRing k' (x :: (after ++ before)) ∧ k'.readyQueue = x ∧
      k'.currentThread = x ∧ ∀ p, (k'.thread p).state = if p = x then .running
        else if p = k.currentThread ∧ (k.thread p).state = .running then .ready
        else (k.thread p).state := by
  have hqueue : k.readyQueue ≠ 0 := fun hzero => hinv.zero (hzero ▸ hl.live _ hl.entry)
  obtain ⟨n, s, k₁, switch, hsearch, hsched, rfl, hready, hring, hqueue', hcurrent, hstate⟩ :=
    schedule_first hinv hl hlast hdead hbefore hx
  rw [scheduleAndSwitch, Outcome.bind_eq_ok] at hok
  obtain ⟨⟨k₂, switch'⟩, hsched', hrest⟩ := hok
  obtain ⟨rfl, rfl⟩ := Prod.mk.inj (schedule_ok_unique hsched hsched')
  refine ⟨?_, ?_⟩
  · rw [pick_of_searchFrom hinv hqueue hsearch hsched', if_pos hready]
  cases switch with
  | none =>
    obtain rfl := Except.ok.inj hrest
    exact ⟨hring, hqueue', hcurrent, hstate⟩
  | some pair =>
    obtain ⟨old, new⟩ := pair
    obtain rfl := Except.ok.inj hrest
    refine ⟨⟨?_, ?_, ?_⟩, ?_, ?_, fun p => ?_⟩
    · rw [threadSwitch_next]
      exact hring.ring
    · rw [threadSwitch_readyQueue]
      exact hring.entry
    · rw [threadSwitch_live]
      exact hring.live
    · rw [threadSwitch_readyQueue, hqueue']
    · rw [threadSwitch_currentThread, hcurrent]
    · rw [threadSwitch_fields k₁ old new p rsp Thread.state fun _ _ => rfl, hstate]

/-- A thread alone on the ring goes on. -/
theorem schedule_alone (hinv : RingInv k) (hl : OnRing k [k.currentThread])
    (hrunning : (k.thread k.currentThread).state = .running) :
    ∃ n s, searchFrom k n = (s, .ended) ∧ schedule n k = .ok (k, none) ∧
      (s.kernel.thread s.chosen).state ≠ .ready := by
  have hqueue : k.readyQueue = k.currentThread := List.mem_singleton.mp hl.entry
  have hnext : k.next k.currentThread = k.currentThread := ring_singleton.mp hl.ring
  have hzero : k.readyQueue ≠ 0 := fun hzero => hinv.zero (hzero ▸ hl.live _ hl.entry)
  obtain ⟨s, hs⟩ : ∃ s : Search, s = ⟨k, k.currentThread, k.currentThread, k.currentThread⟩ :=
    ⟨_, rfl⟩
  have hstart : searchStart k = s := by
    rw [searchStart, hqueue, hnext, hs]
  have hturn : turn k.currentThread s = (s, .test) := by
    have hskip := turn_skip (s := s) k.currentThread (by rw [hs]; exact hinv.current)
      (by simp [hs, hrunning]) (by simp [hs, hrunning])
    rw [hskip, hs]
    exact congrArg (fun w => (Search.mk k k.currentThread w k.currentThread, TurnEnd.test)) hnext
  have hsearch : searchFrom k 1 = (s, .ended) := by
    rw [searchFrom, hqueue, hnext, hstart]
    exact search_start hturn (by rw [hs])
  refine ⟨1, s, hsearch, ?_, ?_⟩
  · rw [schedule_of_over hinv hzero (hl.live _ hl.entry) hsearch, hs, dispatch,
      if_neg (by simp [hinv.current]), if_pos (by simp [hrunning]), if_pos hrunning]
    rfl
  · rw [hs]
    simp [hrunning]

end Schedule

/-! ### The ring as a round -/

/-- The ring is the one of `r`: `ready_queue` is at the last thread that was added since the switch to
the current one, which is RUNNING, and the others are READY. -/
structure InRound (k : Kernel) (r : Round Word) : Prop where
  inv : RingInv k
  ring : OnRing k r.ring
  tail : (r.current :: r.joined).getLast? = some k.readyQueue
  current : k.currentThread = r.current
  running : (k.thread r.current).state = .running
  ready : ∀ p ∈ r.joined ++ r.waiting, (k.thread p).state = .ready

section Round

variable {k k' : Kernel} {l m before after : List Word} {x p rsp : Word} {t : Thread} {turns : ℕ}
  {r r' : Round Word} {c : QueueCall}

theorem OnRing.rotate (h : OnRing k (l ++ m)) : OnRing k (m ++ l) := by
  refine ⟨h.ring.rotate, ?_, fun p hp => h.live p ?_⟩
  · rw [List.mem_append, or_comm, ← List.mem_append]
    exact h.entry
  · rwa [List.mem_append, or_comm, ← List.mem_append]

/-- The current thread and the threads behind it can run. -/
theorem InRound.runnableRing (h : InRound k r) : RunnableRing k := by
  have hstate : ∀ p, k.OnReadyQueue p → p = r.current ∨ (k.thread p).state = .ready := by
    intro p hp
    rw [h.ring.onReadyQueue_iff h.inv] at hp
    exact (List.mem_cons.mp hp).imp_right (h.ready p)
  refine ⟨h.inv, ?_, fun p hp => ?_, fun p hp hrunning => ?_⟩
  · rw [h.ring.onReadyQueue_iff h.inv, h.current]
    exact List.mem_cons_self
  · rcases hstate p hp with rfl | hready
    · exact .inr h.running
    · exact .inl hready
  · rcases hstate p hp with rfl | hready
    · exact h.current.symm
    · exact nomatch hready.symm.trans hrunning

theorem RunnableRing.not_dead (h : RunnableRing k) (hp : k.OnReadyQueue p) :
    (k.thread p).state ≠ .dead := by
  intro hdead
  have hrun := h.runnable p hp
  rw [hdead] at hrun
  exact hrun.elim nofun nofun

/-- A switch begins a round with the thread that is switched to. -/
theorem RunnableRing.dispatch (h : RunnableRing k) (before : List Word)
    (hl : OnRing k (before ++ x :: after))
    (hlast : (before ++ x :: after).getLast? = some k.readyQueue)
    (hbefore : ∀ p ∈ before, (k.thread p).state ≠ .ready) (hx : (k.thread x).state = .ready)
    (hok : scheduleAndSwitch turns k rsp = .ok k') :
    k.pick turns = some x ∧ InRound k' ⟨x, [], after ++ before⟩ := by
  have honqueue : ∀ p ∈ before ++ x :: after, k.OnReadyQueue p :=
    fun p hp => (hl.onReadyQueue_iff h.inv).mpr hp
  have hdead : ∀ p ∈ before, (k.thread p).state ≠ .dead :=
    fun p hp => h.not_dead (honqueue p (List.mem_append_left _ hp))
  obtain ⟨hpick, hring, hqueue, hcurrent, hstate⟩ :=
    scheduleAndSwitch_first h.inv hl hlast hdead hbefore hx hok
  have hends : k.SearchEnds :=
    .inr (.inr ⟨x, (honqueue x (List.mem_append_right _ List.mem_cons_self)).2, hx⟩)
  refine ⟨hpick, h.inv.schedule hends hok, hring, ?_, hcurrent, ?_, fun p hp => ?_⟩
  · rw [hqueue]
    rfl
  · rw [hstate, if_pos rfl]
  · have hpx : p ≠ x := by
      rintro rfl
      exact (List.nodup_cons.mp hring.ring.nodup).1 hp
    have hmem : p ∈ before ++ x :: after := by
      rw [List.nil_append, List.mem_append] at hp
      exact List.mem_append.mpr (hp.symm.imp_right (List.mem_cons_of_mem x))
    rw [hstate, if_neg hpx]
    split_ifs with hold
    · rfl
    · refine (h.runnable p (honqueue p hmem)).resolve_right fun hrunning => hold ⟨?_, hrunning⟩
      exact h.running p (honqueue p hmem) hrunning

/-- A thread alone on the ring is not switched to. -/
theorem RingInv.alone (hinv : RingInv k) (hl : OnRing k [k.currentThread])
    (hrunning : (k.thread k.currentThread).state = .running)
    (hok : scheduleAndSwitch turns k rsp = .ok k') : k.pick turns = none ∧ k' = k := by
  have hqueue : k.readyQueue ≠ 0 := fun hzero => hinv.zero (hzero ▸ hl.live _ hl.entry)
  obtain ⟨n, s, hsearch, hsched, hready⟩ := schedule_alone hinv hl hrunning
  rw [scheduleAndSwitch, Outcome.bind_eq_ok] at hok
  obtain ⟨⟨k₁, switch⟩, hsched', hrest⟩ := hok
  obtain ⟨rfl, rfl⟩ := Prod.mk.inj (schedule_ok_unique hsched hsched')
  refine ⟨?_, (Except.ok.inj hrest).symm⟩
  rw [pick_of_searchFrom hinv hqueue hsearch hsched', if_neg hready]

/-- `schedule` passes the turn on. -/
theorem InRound.schedule (h : InRound k r) (hok : scheduleAndSwitch turns k rsp = .ok k') :
    (∃ r', r.turn = some r' ∧ k.pick turns = some r'.current ∧ InRound k' r') ∨
      r.turn = none ∧ k.pick turns = none ∧ k' = k := by
  obtain ⟨c, joined, waiting⟩ := r
  have hring : OnRing k (waiting ++ c :: joined) := OnRing.rotate (l := c :: joined) h.ring
  have hlast : (waiting ++ c :: joined).getLast? = some k.readyQueue := by
    rw [List.getLast?_append_of_ne_nil _ (List.cons_ne_nil c joined)]
    exact h.tail
  cases waiting with
  | cons d waiting =>
    obtain ⟨hpick, hround⟩ := h.runnableRing.dispatch [] hring hlast
      (fun p hp => absurd hp List.not_mem_nil) (h.ready d (by simp)) hok
    rw [List.append_nil] at hround
    exact .inl ⟨_, rfl, hpick, hround⟩
  | nil =>
    cases joined with
    | cons d joined =>
      -- the current thread is passed
      obtain ⟨hpick, hround⟩ := h.runnableRing.dispatch [c] hring hlast
        (fun p hp => by rw [List.mem_singleton.mp hp, h.running]; exact nofun)
        (h.ready d (by simp)) hok
      exact .inl ⟨_, rfl, hpick, hround⟩
    | nil =>
      have hcurrent : k.currentThread = c := h.current
      obtain ⟨hpick, rfl⟩ := h.inv.alone (hcurrent ▸ hring) (hcurrent ▸ h.running) hok
      exact .inr ⟨rfl, hpick, rfl⟩

/-- What `scheduler_add_thread` does to a ring that has a thread. -/
theorem RingInv.add_behind (hinv : RingInv k) (hl : OnRing k l)
    (hlast : l.getLast? = some k.readyQueue) (hp : p ≠ 0) (hoff : ¬ k.OnReadyQueue p)
    (hok : schedulerAddThread (k.place p t) p = .ok k') :
    RingInv k' ∧ OnRing k' (l ++ [p]) ∧ k'.readyQueue = p ∧
      k'.currentThread = k.currentThread ∧
      ∀ q, (k'.thread q).state = if q = p then t.state else (k.thread q).state := by
  have hnot : ∀ m, OnRing k m → p ∉ m := fun m hm hmem =>
    hoff ((hm.onReadyQueue_iff hinv).mpr hmem)
  obtain ⟨-, hcurrent, hqueue, hstate, hring⟩ := hinv.add_ring hp hnot hok
  refine ⟨hinv.add hp hnot hok, ?_, hqueue, hcurrent, fun q => ?_⟩
  · rcases hring with ⟨hzero, -⟩ | ⟨m, hm, hnew⟩
    · exact absurd (hzero ▸ hl.live _ hl.entry) hinv.zero
    · obtain ⟨n, rfl⟩ := List.getLast?_eq_some_iff.mp hlast
      rwa [hl.ring.eq_of_concat hm.ring]
  · have hplace : (k.place p t).thread q = if q = p then t else k.thread q :=
      Function.update_apply k.thread p t q
    rw [hstate, hplace, apply_ite Thread.state]

/-- A thread that is added joins the round. -/
theorem InRound.add (h : InRound k r) (hp : p ≠ 0) (hoff : ¬ k.OnReadyQueue p)
    (hready : t.state = .ready) (hok : schedulerAddThread (k.place p t) p = .ok k') :
    InRound k' (r.join p) := by
  have hring : OnRing k (r.waiting ++ r.current :: r.joined) :=
    OnRing.rotate (l := r.current :: r.joined) h.ring
  have hlast : (r.waiting ++ r.current :: r.joined).getLast? = some k.readyQueue := by
    rw [List.getLast?_append_of_ne_nil _ (List.cons_ne_nil _ _)]
    exact h.tail
  have hne : r.current ≠ p := by
    rintro rfl
    exact hoff ((h.ring.onReadyQueue_iff h.inv).mpr List.mem_cons_self)
  obtain ⟨hinv, hring', hqueue, hcurrent, hstate⟩ := h.inv.add_behind hring hlast hp hoff hok
  rw [List.append_assoc] at hring'
  refine ⟨hinv, ?_, ?_, hcurrent.trans h.current, ?_, fun q hq => ?_⟩
  · have hrot := hring'.rotate
    rw [List.cons_append, List.cons_append] at hrot
    exact hrot
  · rw [hqueue]
    exact List.getLast?_concat (l := r.current :: r.joined)
  · rw [hstate, if_neg (show (r.join p).current ≠ p from hne)]
    exact h.running
  · rw [hstate]
    split_ifs with hqp
    · exact hready
    · refine h.ready q ?_
      have hmem : q ∈ r.joined ++ [p] ++ r.waiting := hq
      simpa [hqp] using hmem

/-- The step lemma: the calls of the scheduler are steps of a round, and dispatch who gets the
turn. -/
theorem InRound.step (h : InRound k r) (hstep : queueSystem.step k c k') :
    ∃ e r', roundSystem.step r e r' ∧ InRound k' r' ∧ dispatched k c = turnOf r e := by
  cases hstep with
  | schedule hok =>
    rcases h.schedule hok with ⟨r', hturn, hpick, hround⟩ | ⟨-, hpick, rfl⟩
    · exact ⟨.turn, r', hturn, hround, by rw [dispatched, hpick, turnOf, hturn]; rfl⟩
    · exact ⟨.idle, r, rfl, h, hpick⟩
  | @add p _ _ hp hoff hready hok => exact ⟨.join p, r.join p, rfl, h.add hp hoff hready hok, rfl⟩
  | addNull hok =>
    obtain rfl := Except.ok.inj hok
    exact ⟨.idle, r, rfl, h, rfl⟩

/-! ### Round robin -/

/-- The ring from the thread behind `ready_queue` on: it has a READY thread, or one that runs
alone. -/
theorem RunnableRing.cases (h : RunnableRing k) :
    (∃ before x after, OnRing k (before ++ x :: after) ∧
      (before ++ x :: after).getLast? = some k.readyQueue ∧ (k.thread x).state = .ready ∧
      ∀ p ∈ before, (k.thread p).state ≠ .ready) ∨
    OnRing k [k.currentThread] ∧ (k.thread k.currentThread).state = .running := by
  obtain ⟨l₀, hl₀⟩ := h.inv.ring.resolve_left h.current.1
  obtain ⟨l, hl, hlast, -⟩ := hl₀.normal
  by_cases hready : ∃ p ∈ l, (k.thread p).state = .ready
  · obtain ⟨before, x, after, rfl, hx, hbefore⟩ := exists_first_ready hready
    exact .inl ⟨before, x, after, hl, hlast, hx, hbefore⟩
  · have hrunning : ∀ p ∈ l, (k.thread p).state = .running := by
      intro p hp
      refine (h.runnable p ((hl.onReadyQueue_iff h.inv).mpr hp)).resolve_left fun hpr => ?_
      exact hready ⟨p, hp, hpr⟩
    -- every thread of the ring is the current one
    have hsame : ∀ p ∈ l, p = k.currentThread := fun p hp =>
      h.running p ((hl.onReadyQueue_iff h.inv).mpr hp) (hrunning p hp)
    have hmem : k.currentThread ∈ l := (hl.onReadyQueue_iff h.inv).mp h.current
    have hsingle : l = [k.currentThread] := by
      refine List.eq_replicate_iff.mpr ⟨?_, hsame⟩ |>.trans (List.replicate_one ..)
      have hle := List.nodup_iff_count_le_one.mp hl.ring.nodup k.currentThread
      rw [List.count_eq_length.mpr fun p hp => (hsame p hp).symm] at hle
      exact le_antisymm hle (List.length_pos_of_mem hmem)
    exact .inr ⟨hsingle ▸ hl, hrunning _ hmem⟩

/-- A call that dispatches a thread begins a round with it. -/
theorem RunnableRing.begin (h : RunnableRing k) (hstep : queueSystem.step k c k')
    (hpick : dispatched k c = some x) : ∃ others, InRound k' ⟨x, [], others⟩ ∧
      ∀ p, k.OnReadyQueue p ↔ p = x ∨ p ∈ others := by
  cases hstep with
  | add => cases hpick
  | addNull => cases hpick
  | schedule hok =>
    rcases h.cases with ⟨before, y, after, hl, hlast, hy, hbefore⟩ | ⟨hl, hrunning⟩
    · obtain ⟨hpick', hround⟩ := h.dispatch before hl hlast hbefore hy hok
      obtain rfl : x = y := Option.some.inj (hpick.symm.trans hpick')
      refine ⟨after ++ before, hround, fun p => ?_⟩
      rw [hl.onReadyQueue_iff h.inv]
      simp only [List.mem_append, List.mem_cons]
      tauto
    · exact nomatch hpick.symm.trans (h.inv.alone hl hrunning hok).1

/-- Every call keeps a ring of threads that can run. -/
theorem RunnableRing.step (h : RunnableRing k) (hstep : queueSystem.step k c k') :
    RunnableRing k' := by
  cases hstep with
  | schedule hok =>
    rcases h.cases with ⟨before, y, after, hl, hlast, hy, hbefore⟩ | ⟨hl, hrunning⟩
    · exact (h.dispatch before hl hlast hbefore hy hok).2.runnableRing
    · rw [(h.inv.alone hl hrunning hok).2]
      exact h
  | addNull hok =>
    obtain rfl := Except.ok.inj hok
    exact h
  | @add p t _ hp hoff hready hok =>
    obtain ⟨l₀, hl₀⟩ := h.inv.ring.resolve_left h.current.1
    obtain ⟨l, hl, hlast, -⟩ := hl₀.normal
    obtain ⟨hinv, hring, -, hcurrent, hstate⟩ := h.inv.add_behind hl hlast hp hoff hok
    have hmem : ∀ q, k'.OnReadyQueue q → q ≠ p → k.OnReadyQueue q := by
      intro q hq hqp
      rw [hring.onReadyQueue_iff hinv, List.mem_append, List.mem_singleton] at hq
      exact (hl.onReadyQueue_iff h.inv).mpr (hq.resolve_right hqp)
    refine ⟨hinv, ?_, fun q hq => ?_, fun q hq hrunning => ?_⟩
    · rw [hcurrent, hring.onReadyQueue_iff hinv]
      exact List.mem_append_left _ ((hl.onReadyQueue_iff h.inv).mp h.current)
    · rw [hstate]
      split_ifs with hqp
      · exact .inl hready
      · exact h.runnable q (hmem q hq hqp)
    · rw [hstate] at hrunning
      split_ifs at hrunning with hqp
      · exact nomatch hready.symm.trans hrunning
      · rw [hcurrent]
        exact h.running q (hmem q hq hqp) hrunning

/-- Between two dispatches of a thread every other thread is dispatched exactly once. -/
theorem RunnableRing.count_dispatched (h : RunnableRing k) {c' : QueueCall} {k₁ k₂ k₃ : Kernel}
    {ds : List Word} (hstep : queueSystem.step k c k₁) (hpick : dispatched k c = some x)
    (hrun : queueSystem.Outputs dispatched k₁ ds k₂) (hstep' : queueSystem.step k₂ c' k₃)
    (hagain : dispatched k₂ c' = some x) (hds : x ∉ ds) (hp : k.OnReadyQueue p) (hne : p ≠ x) :
    ds.count p = 1 := by
  obtain ⟨others, hround, hmem⟩ := h.begin hstep hpick
  have hothers : p ∈ others := ((hmem p).mp hp).resolve_left hne
  obtain ⟨hx, hnodup⟩ := List.nodup_cons.mp hround.ring.ring.nodup
  obtain ⟨r, hrun', hround'⟩ := hrun.simulate hround fun _ _ _ _ hround hstep => by
    obtain ⟨e, r', hfollow, hround', hout⟩ := hround.step hstep
    exact ⟨e, r', hfollow, hround', hout⟩
  obtain ⟨e, r', hfollow, -, hout⟩ := hround'.step hstep'
  rw [hagain] at hout
  cases e with
  | turn =>
    have hturn : r.turn = some r' := hfollow
    rw [turnOf, hturn] at hout
    have hall := outputs_between hrun' hds hturn (Option.some.inj hout).symm hx
      (List.ne_nil_of_mem hothers)
    rw [hall]
    exact List.count_eq_one_of_mem hnodup hothers
  | join => cases hout
  | idle => cases hout

/-- A thread that is added changes nothing about the order of the others. -/
theorem RunnableRing.order (h : RunnableRing k) (hstep : queueSystem.step k (.add p t) k')
    (hl : OnRing k l) (hm : OnRing k' m) : m.filter (fun q => q ∈ l) ~r l := by
  have hall : l.filter (fun q => q ∈ l) = l := List.filter_eq_self.mpr fun q hq => by simpa using hq
  cases hstep with
  | addNull hok =>
    obtain rfl := Except.ok.inj hok
    have hrotated := isRotated_filter (fun q => q ∈ l) (hm.ring.isRotated hl.ring hm.entry hl.entry)
    rwa [hall] at hrotated
  | add hp hoff hready hok =>
    obtain ⟨n, hn, hlast, -⟩ := hl.normal
    obtain ⟨hinv, hring, hqueue, -, -⟩ := h.inv.add_behind hn hlast hp hoff hok
    have hlive : ∀ q, q ∈ l ↔ q ∈ n := fun q => by
      rw [← hl.onReadyQueue_iff h.inv, hn.onReadyQueue_iff h.inv]
    have hpl : p ∉ l := fun hmem => hoff ((hl.onReadyQueue_iff h.inv).mpr hmem)
    have hrotated := isRotated_filter (fun q => q ∈ l)
      (hm.ring.isRotated hring.ring hm.entry hring.entry)
    have hn' : (n ++ [p]).filter (fun q => q ∈ l) = n := by
      rw [List.filter_append, List.filter_eq_self.mpr fun q hq => by simpa [hlive] using hq]
      simp [hpl]
    rw [hn'] at hrotated
    exact hrotated.trans (hn.ring.isRotated hl.ring hn.entry hl.entry)

/-- A call of `schedule` comes back. -/
theorem RunnableRing.returns (h : RunnableRing k) :
    ∃ turns k' switch, Threads.schedule turns k = .ok (k', switch) := by
  rcases h.cases with ⟨before, x, after, hl, hlast, hx, hbefore⟩ | ⟨hl, hrunning⟩
  · have hdead : ∀ p ∈ before, (k.thread p).state ≠ .dead := fun p hp =>
      h.not_dead ((hl.onReadyQueue_iff h.inv).mpr (List.mem_append_left _ hp))
    obtain ⟨n, -, k', switch, -, hok, -⟩ := schedule_first h.inv hl hlast hdead hbefore hx
    exact ⟨n, k', switch, hok⟩
  · obtain ⟨n, -, -, hok, -⟩ := schedule_alone h.inv hl hrunning
    exact ⟨n, k, none, hok⟩

/-- From a ring of threads that can run, the threads take turns. -/
theorem takesTurns_of_reachable (h : queueSystem.Reachable k) : k.TakesTurns := by
  have hrunnable : RunnableRing k :=
    h.invariant (fun _ hinit => hinit) fun _ _ _ hrunnable _ hstep => hrunnable.step hstep
  exact {
    returns := hrunnable.returns
    turns := fun hstep hpick hrun hstep' hagain hds _ =>
      hrunnable.count_dispatched hstep hpick hrun hstep' hagain hds
    order := hrunnable.order }

end Round

/-! ### Runs of the kernel -/

/-- A thread that is added is READY, as `thread_create` and `thread_create_userspace` leave it. -/
def AddsReady (_ : Kernel) (e : RingEvent) : Prop :=
  ∀ p t, e = .add p t → t.state = .ready

/-- In every run of the kernel only the current thread is RUNNING, as it is on a ring of threads that
can run. -/
theorem eq_currentThread_of_running {k : Kernel} (h : ringSystem.ReachableUnder AddsReady k) :
    ∀ p ∈ k.live, (k.thread p).state = .running → p = k.currentThread := by
  refine h.invariant₂ (I := fun k => ∀ p ∈ k.live, (k.thread p).state = .running →
    p = k.currentThread) (fun _ => ringInv_of_run) ?_ ?_
  · rintro k ⟨k₀, block, rsp, hempty, hinit⟩ p hp -
    rw [threadInit] at hinit
    split_ifs at hinit
    obtain rfl := Except.ok.inj hinit
    have hmem : p ∈ insert block k₀.live := hp
    rwa [hempty, Finset.mem_insert, or_iff_left (Finset.notMem_empty p)] at hmem
  · intro k e k' hinv hsame hadds hstep p hp hrunning
    have hstep : ringStep k e = some k' := hstep
    -- a state that is written is RUNNING for the thread that `schedule` switches to only
    have hset : ∀ (q : Word) (state : ThreadState), state ≠ .running → q ∈ k.live →
        some (k.setState q state) = some k' → p = k'.currentThread := by
      intro q state hstate hq heq
      obtain rfl := Option.some.inj heq
      rw [state_setState] at hrunning
      split_ifs at hrunning with hpq
      · exact absurd hrunning hstate
      · exact hsame p hp hrunning
    cases e with
    | add q t =>
      rw [ringStep] at hstep
      split_ifs at hstep with hguard
      obtain ⟨hlive, hcurrent, -, hstate, -⟩ := hinv.add_ring hguard.2.1
        (fun _ => OnRing.notMem_of_fresh hguard.2.2) (Outcome.toOption_eq_some.mp hstep)
      rw [hstate] at hrunning
      rw [hlive, Finset.mem_insert] at hp
      rw [hcurrent]
      by_cases hpq : p = q
      · have hplace : (k.place q t).thread p = t := hpq ▸ Function.update_self ..
        rw [hplace, hadds q t rfl] at hrunning
        cases hrunning
      · have hplace : (k.place q t).thread p = k.thread p := Function.update_of_ne hpq _ _
        exact hsame p (hp.resolve_left hpq) (hplace ▸ hrunning)
    | schedule turns rsp =>
      have hends := searchesEnd_of_step hinv hstep turns rsp rfl
      obtain ⟨k₁, switch, hschedule, hlive, hcurrent, hstate, -⟩ :=
        schedule_of_scheduleAndSwitch (ok_of_ringStep hstep)
      have hsub := (settled_of_ok hinv hends hschedule).live
      rw [hlive] at hp
      rw [hcurrent]
      rcases schedule_states hinv hschedule with
        ⟨new, -, -, hnew, hstates⟩ | ⟨-, hold, hstates⟩
      · rw [hstate, hstates] at hrunning
        split_ifs at hrunning with hpn hpc
        · exact hpn.trans hnew.symm
        · exact absurd ⟨hsame p (hsub hp) hrunning, hrunning⟩ hpc
      · rw [hold]
        exact hsame p (hsub hp) (by rw [← hstates, ← hstate, hrunning])
    | block =>
      rw [ringStep] at hstep
      split_ifs at hstep
      exact hset _ _ (by decide) hinv.current hstep
    | wake q =>
      rw [ringStep] at hstep
      split_ifs at hstep with hguard
      exact hset _ _ (by decide) hguard.2.1 hstep
    | exit =>
      rw [ringStep] at hstep
      split_ifs at hstep
      exact hset _ _ (by decide) hinv.current hstep

/-- The shell and a second thread take turns, once the shell runs. -/
theorem takesTurns_of_shell : ∃ k : Kernel, k.currentThread = 0x2000 ∧ k.OnReadyQueue 0x3000 ∧
    k.TakesTurns := by
  obtain ⟨k, -, hcurrent, hqueue, hnext, hnext', hshell, hchild, hlive, hlive', hzero⟩ :=
    System.exists_reachableUnder (S := ringSystem) (C := fun _ _ => True)
      (P := fun k : Kernel => k.currentThread = 0x2000 ∧ k.readyQueue = 0x2000 ∧
        k.next 0x2000 = 0x3000 ∧ k.next 0x3000 = 0x2000 ∧ (k.thread 0x2000).state = .running ∧
        (k.thread 0x3000).state = .ready ∧ 0x2000 ∈ k.live ∧ 0x3000 ∈ k.live ∧ 0 ∉ k.live)
      ringStep [.add 0x2000 (readyThread 1), .add 0x3000 (readyThread 2), .schedule 1 0]
      (fun k e k' h => ⟨e, trivial, h⟩) init_bootKernel (by decide)
  have hring : OnRing k [0x3000, 0x2000] :=
    onRing_pair (by decide) hqueue hnext' hnext hlive' hlive
  have hinv : RingInv k := ⟨hcurrent ▸ hlive, hzero, .inr ⟨_, hring⟩⟩
  have hmem : ∀ p, k.OnReadyQueue p ↔ p = 0x3000 ∨ p = 0x2000 := fun p => by
    rw [hring.onReadyQueue_iff hinv, List.mem_pair]
  refine ⟨k, hcurrent, (hmem _).mpr (.inl rfl), takesTurns_of_reachable (.init ?_)⟩
  refine ⟨hinv, (hmem _).mpr (.inr hcurrent), fun p hp => ?_, fun p hp hrunning => ?_⟩
  · rcases (hmem p).mp hp with rfl | rfl
    · exact .inl hchild
    · exact .inr hshell
  · rcases (hmem p).mp hp with rfl | rfl
    · exact nomatch hchild.symm.trans hrunning
    · exact hcurrent.symm

end KyroOS.Threads

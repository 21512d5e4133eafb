import KyroOS.Net.RecvBuffer

/-!
# Waiting for data

A thread in `sock_recv` tests `recv_data_len`, stores itself in `waiting_thread`, becomes BLOCKED and
calls `schedule()`, one after the other. Datagrams come in the receive interrupt, which makes the
waiting thread READY and clears `waiting_thread`.

A system call starts with interrupts disabled, and `schedule()` enables them; while another thread
runs, datagrams come in any case.

## Main definitions

* `Receiving` — a thread that calls `sock_recv`, and its host
* `Receiving.take` — a statement of the thread, a datagram, or a switch of threads
* `Receiving.Lost` — the thread sleeps on data and nobody knows
* `Receiving.Undisturbed` — no datagram comes before the thread becomes BLOCKED

## Main results

* `Receiving.not_lost_of_undisturbed` — no wake-up is lost over every run of such steps
-/

namespace KyroOS.Net

/-! ### The thread and its host -/

/-- The statement of `sock_recv` that is executed next. -/
inductive RecvPc
  /-- Outside of `sock_recv`. -/
  | outside
  /-- `while (recv_data_len == 0)` -/
  | test
  /-- `sock->waiting_thread = get_current_thread()` -/
  | setWaiting
  /-- `get_current_thread()->state = THREAD_BLOCKED` -/
  | setBlocked
  /-- `schedule()` -/
  | schedule
  /-- `sock->waiting_thread = NULL` -/
  | clearWaiting
  /-- The copy behind the loop. -/
  | copy
  deriving DecidableEq, Repr

/-- A thread that calls `sock_recv`, and its host. -/
structure Receiving where
  host : Host
  pc : RecvPc
  onCpu : Bool
  interrupts : Bool

/-- A change of the state of a thread. -/
def Host.setThreadState (h : Host) (thread : Word) (state : ThreadState) : Host :=
  { h with threadState := Function.update h.threadState thread state }

namespace Receiving

/-- What happens next. -/
inductive Event
  /-- A datagram comes to a socket of the host. -/
  | arrival (alloc : ℕ → Bool) (m : Memory) (udpHdr data : ℕ) (len : Word)
  /-- The thread calls `sock_recv`, with interrupts enabled or disabled. -/
  | call (interrupts : Bool)
  /-- The next statement of the thread. -/
  | statement
  /-- The copy of up to `len` bytes, and the return from `sock_recv`. -/
  | copy (len : ℕ)
  /-- The timer interrupt calls `schedule()`. -/
  | preempt
  /-- A call of `schedule()` comes back. -/
  | resume

section

variable (address thread : Word) (w : Receiving)

/-- Another thread gets the CPU. -/
def switchAway : Receiving :=
  { w with
    host := if w.host.threadState thread = .running then w.host.setThreadState thread .ready
      else w.host
    onCpu := false }

/-- The statements of the loop. -/
def loop : Option Receiving :=
  match w.pc with
  | .test =>
    match w.host.socketAt address with
    | none => none
    | some s => some { w with pc := if s.udpData.recvDataLen = 0 then .setWaiting else .copy }
  | .setWaiting =>
    some { w with
      host := w.host.setSocket address fun s => { s with waitingThread := thread }
      pc := .setBlocked }
  | .setBlocked =>
    some { w with host := w.host.setThreadState thread .blocked, pc := .schedule }
  | .schedule => some { w.switchAway thread with pc := .clearWaiting }
  | .clearWaiting =>
    some { w with
      host := w.host.setSocket address fun s => { s with waitingThread := 0 }
      pc := .test }
  | .outside | .copy => none

/-- A step of the thread at the socket at an address. -/
def take : Event → Option Receiving
  | .arrival alloc m udpHdr data len =>
    if w.interrupts ∨ ¬ w.onCpu then
      some { w with host := (sockUdpReceivePacketHandler alloc w.host m udpHdr data len).value }
    else none
  | .call interrupts =>
    if w.onCpu ∧ w.pc = .outside then some { w with pc := .test, interrupts } else none
  | .statement => if w.onCpu then w.loop address thread else none
  | .copy len =>
    if w.onCpu ∧ w.pc = .copy then
      some { w with host := (sockRecv w.host address len).1, pc := .outside }
    else none
  | .preempt => if w.onCpu ∧ w.interrupts then some (w.switchAway thread) else none
  | .resume =>
    if ¬ w.onCpu ∧ w.host.threadState thread = .ready then
      some { w with
        host := w.host.setThreadState thread .running
        onCpu := true
        interrupts := true }
    else none

/-- The runs of a thread that has not yet called `sock_recv`. -/
def system : Transition.System Receiving Event where
  init w := thread ≠ 0 ∧ w.pc = .outside ∧ w.onCpu = true ∧ w.host.threadState thread = .running ∧
    ∃ s, SocketIs w.host address s
  step w e w' := w.take address thread e = some w'

/-- The thread is BLOCKED, there is data, and `waiting_thread` does not refer to the thread. -/
def Lost : Prop :=
  w.host.threadState thread = .blocked ∧
    ∃ s ∈ w.host.socketAt address, 0 < s.udpData.recvDataLen ∧ s.waitingThread ≠ thread

instance : DecidablePred (Lost address thread) := fun _ => inferInstanceAs (Decidable (_ ∧ _))

/-- No datagram comes to the socket between the stores to `waiting_thread` and to the state. -/
def Undisturbed : Event → Prop
  | .arrival _ m udpHdr _ len => w.pc = .setBlocked → ¬ Takes w.host address m udpHdr len
  | _ => True

end

end Receiving

/-! ### The states of threads -/

section

variable {alloc : ℕ → Bool} {h : Host} {address thread : Word} {s : Socket} {m : Memory}
  {udpHdr data : ℕ} {len : Word} {bytes : List Byte}

theorem threadState_deliver : (h.deliver s bytes).threadState thread =
    if thread = s.waitingThread ∧ s.waitingThread ≠ 0 then .ready else h.threadState thread := by
  have hwake : (h.deliver s bytes).threadState = (h.wake s.waitingThread).threadState := rfl
  rw [hwake, Host.wake]
  by_cases hwaiting : s.waitingThread = 0
  · rw [if_neg (not_not.mpr hwaiting), if_neg fun hboth => hboth.2 hwaiting]
  · rw [if_pos hwaiting]
    refine (Function.update_apply ..).trans ?_
    exact if_congr (and_iff_left hwaiting).symm rfl rfl

/-- A datagram makes no thread BLOCKED. -/
theorem blocked_of_handler
    (hblocked : (sockUdpReceivePacketHandler alloc h m udpHdr data len).value.threadState thread =
      .blocked) : h.threadState thread = .blocked := by
  rw [sockUdpReceivePacketHandler_value] at hblocked
  dsimp only at hblocked
  split at hblocked
  · rwa [dhcpHandlePacket_keeps Host.threadState fun _ _ _ _ _ _ => rfl] at hblocked
  · split at hblocked
    · exact hblocked
    · split at hblocked
      · exact hblocked
      · rw [threadState_deliver] at hblocked
        split at hblocked
        · exact absurd hblocked (by decide)
        · exact hblocked

/-- A datagram that comes to a socket wakes the thread that waits there. -/
theorem ready_of_takes (alloc : ℕ → Bool) (data : ℕ) (hs : SocketIs h address s)
    (htakes : Takes h address m udpHdr len) (hne : s.waitingThread ≠ 0) :
    (sockUdpReceivePacketHandler alloc h m udpHdr data len).value.threadState s.waitingThread =
      .ready := by
  obtain ⟨hdhcp, s', hfound, haddress, hroom⟩ := htakes
  have hsame := hs.unique s' (bound_of_findBound h hfound).1 haddress
  subst hsame
  rw [sockUdpReceivePacketHandler_value]
  simp only [hdhcp, if_false, hfound, not_lt.mpr hroom]
  rw [threadState_deliver, if_pos ⟨rfl, hne⟩]

@[simp] theorem setThreadState_self (state : ThreadState) :
    (h.setThreadState thread state).threadState thread = state :=
  Function.update_self ..

theorem sockRecv_threadState (n : ℕ) : (sockRecv h address n).1.threadState = h.threadState := by
  unfold sockRecv
  cases h.socketAt address with
  | none => rfl
  | some s =>
    dsimp only
    split
    · rfl
    · split
      · split <;> rfl
      · rfl

theorem SocketIs.setThreadState (hs : SocketIs h address s) (state : ThreadState) :
    SocketIs (h.setThreadState thread state) address s :=
  hs.congr rfl

end

namespace Receiving

/-! ### The invariant -/

/-- A thread that is BLOCKED, or about to be, is in `waiting_thread`, and it is BLOCKED only around
the call of `schedule()`. -/
structure WaitInv (address thread : Word) (w : Receiving) : Prop where
  thread_ne : thread ≠ 0
  socket : ∃ s, SocketIs w.host address s ∧
    (w.pc = .setBlocked ∨ w.host.threadState thread = .blocked → s.waitingThread = thread)
  blocked : w.host.threadState thread = .blocked →
    w.pc = .schedule ∨ (w.pc = .clearWaiting ∧ w.onCpu = false)

section

variable {address thread : Word} {w w' : Receiving} {e : Event}

theorem blocked_of_switchAway
    (hblocked : (w.switchAway thread).host.threadState thread = .blocked) :
    w.host.threadState thread = .blocked := by
  unfold switchAway at hblocked
  dsimp only at hblocked
  split at hblocked
  · rw [setThreadState_self] at hblocked
    exact absurd hblocked (by decide)
  · exact hblocked

theorem socketIs_switchAway {s : Socket} (hs : SocketIs w.host address s) :
    SocketIs (w.switchAway thread).host address s := by
  unfold Receiving.switchAway
  dsimp only
  split
  · exact hs.setThreadState _
  · exact hs

/-- The thread is not BLOCKED while it executes other statements. -/
theorem WaitInv.not_blocked (h : WaitInv address thread w) (hschedule : w.pc ≠ .schedule)
    (hcpu : w.onCpu = true) : w.host.threadState thread ≠ .blocked := by
  intro hblocked
  obtain hpc | ⟨-, hoff⟩ := h.blocked hblocked
  · exact hschedule hpc
  · exact absurd (hcpu.symm.trans hoff) (by decide)

/-- A statement of the loop keeps the invariant. -/
theorem WaitInv.loop (h : WaitInv address thread w) (hcpu : w.onCpu = true)
    (hstep : w.loop address thread = some w') : WaitInv address thread w' := by
  obtain ⟨s, hs, hwaiting⟩ := h.socket
  unfold Receiving.loop at hstep
  cases hpc : w.pc with
  | test =>
    have hrunning := h.not_blocked (by rw [hpc]; decide) hcpu
    rw [hpc, hs.socketAt] at hstep
    obtain rfl := Option.some.inj hstep
    refine ⟨h.thread_ne, ⟨s, hs, ?_⟩, fun hblocked => absurd hblocked hrunning⟩
    rintro (hnext | hblocked)
    · dsimp only at hnext
      split at hnext <;> exact absurd hnext (by decide)
    · exact absurd hblocked hrunning
  | setWaiting =>
    have hrunning := h.not_blocked (by rw [hpc]; decide) hcpu
    rw [hpc] at hstep
    obtain rfl := Option.some.inj hstep
    have hstored := hs.setSocket address
      (fun s => { s with waitingThread := thread }) fun _ => rfl
    rw [if_pos hs.address_eq] at hstored
    exact ⟨h.thread_ne, ⟨_, hstored, fun _ => rfl⟩, fun hblocked => absurd hblocked hrunning⟩
  | setBlocked =>
    rw [hpc] at hstep
    obtain rfl := Option.some.inj hstep
    exact ⟨h.thread_ne, ⟨s, hs.setThreadState _, fun _ => hwaiting (.inl hpc)⟩, fun _ => .inl rfl⟩
  | schedule =>
    rw [hpc] at hstep
    obtain rfl := Option.some.inj hstep
    refine ⟨h.thread_ne, ⟨s, socketIs_switchAway hs, ?_⟩, fun _ => .inr ⟨rfl, rfl⟩⟩
    rintro (hnext | hblocked)
    · cases hnext
    · exact hwaiting (.inr (blocked_of_switchAway hblocked))
  | clearWaiting =>
    have hrunning := h.not_blocked (by rw [hpc]; decide) hcpu
    rw [hpc] at hstep
    obtain rfl := Option.some.inj hstep
    have hstored := hs.setSocket address
      (fun s => { s with waitingThread := 0 }) fun _ => rfl
    refine ⟨h.thread_ne, ⟨_, hstored, ?_⟩, fun hblocked => absurd hblocked hrunning⟩
    rintro (hnext | hblocked)
    · cases hnext
    · exact absurd hblocked hrunning
  | outside | copy =>
    rw [hpc] at hstep
    exact absurd hstep (by simp)

/-- A datagram keeps the invariant, unless the thread is about to become BLOCKED. -/
theorem WaitInv.arrival (h : WaitInv address thread w) {alloc : ℕ → Bool} {m : Memory}
    {udpHdr data : ℕ} {len : Word}
    (hundisturbed : w.pc = .setBlocked → ¬ Takes w.host address m udpHdr len) :
    WaitInv address thread
      { w with host := (sockUdpReceivePacketHandler alloc w.host m udpHdr data len).value } := by
  obtain ⟨s, hs, hwaiting⟩ := h.socket
  by_cases htakes : Takes w.host address m udpHdr len
  · -- whoever waited is READY, and `waiting_thread` is NULL
    have hawake : (sockUdpReceivePacketHandler alloc w.host m udpHdr data len).value.threadState
        thread ≠ .blocked := by
      intro hblocked
      have hthread := hwaiting (.inr (blocked_of_handler hblocked))
      have hready := ready_of_takes alloc data hs htakes (by rw [hthread]; exact h.thread_ne)
      rw [hthread, hblocked] at hready
      exact absurd hready (by decide)
    refine ⟨h.thread_ne, ⟨_, hs.handler_of_takes htakes, ?_⟩, fun hblocked => absurd hblocked hawake⟩
    rintro (hpc | hblocked)
    · exact absurd htakes (hundisturbed hpc)
    · exact absurd hblocked hawake
  · refine ⟨h.thread_ne, ⟨s, hs.handler_of_not_takes htakes, ?_⟩, ?_⟩
    · rintro (hpc | hblocked)
      · exact hwaiting (.inl hpc)
      · exact hwaiting (.inr (blocked_of_handler hblocked))
    · exact fun hblocked => h.blocked (blocked_of_handler hblocked)

theorem WaitInv.step (h : WaitInv address thread w) (hundisturbed : w.Undisturbed address e)
    (hstep : w.take address thread e = some w') : WaitInv address thread w' := by
  obtain ⟨s, hs, hwaiting⟩ := h.socket
  cases e with
  | arrival alloc m udpHdr data len =>
    obtain ⟨-, rfl⟩ := Option.ite_some_none_eq_some.mp hstep
    exact h.arrival hundisturbed
  | call interrupts =>
    obtain ⟨⟨hcpu, hpc⟩, rfl⟩ := Option.ite_some_none_eq_some.mp hstep
    have hrunning := h.not_blocked (by rw [hpc]; decide) hcpu
    refine ⟨h.thread_ne, ⟨s, hs, ?_⟩, fun hblocked => absurd hblocked hrunning⟩
    rintro (hnext | hblocked)
    · cases hnext
    · exact absurd hblocked hrunning
  | statement =>
    simp only [take] at hstep
    split at hstep
    · next hcpu => exact h.loop hcpu hstep
    · exact absurd hstep (by simp)
  | copy len =>
    obtain ⟨⟨hcpu, hpc⟩, rfl⟩ := Option.ite_some_none_eq_some.mp hstep
    have hrunning := h.not_blocked (by rw [hpc]; decide) hcpu
    rw [← sockRecv_threadState len] at hrunning
    obtain ⟨s', hs'⟩ : ∃ s', SocketIs (sockRecv w.host address len).1 address s' :=
      (sockRecv_cases hs len).elim (fun hrefused => ⟨s, hrefused.2⟩) fun htaken => ⟨_, htaken.2⟩
    refine ⟨h.thread_ne, ⟨s', hs', ?_⟩, fun hblocked => absurd hblocked hrunning⟩
    rintro (hnext | hblocked)
    · cases hnext
    · exact absurd hblocked hrunning
  | preempt =>
    obtain ⟨⟨hcpu, -⟩, rfl⟩ := Option.ite_some_none_eq_some.mp hstep
    refine ⟨h.thread_ne, ⟨s, socketIs_switchAway hs, ?_⟩, ?_⟩
    · rintro (hnext | hblocked)
      · exact hwaiting (.inl hnext)
      · exact hwaiting (.inr (blocked_of_switchAway hblocked))
    · intro hblocked
      obtain hpc | ⟨-, hoff⟩ := h.blocked (blocked_of_switchAway hblocked)
      · exact .inl hpc
      · exact absurd (hcpu.symm.trans hoff) (by decide)
  | resume =>
    obtain ⟨⟨-, hready⟩, rfl⟩ := Option.ite_some_none_eq_some.mp hstep
    have hrunning : (w.host.setThreadState thread .running).threadState thread ≠ .blocked := by
      rw [setThreadState_self]
      decide
    refine ⟨h.thread_ne, ⟨s, hs.setThreadState _, ?_⟩, fun hblocked => absurd hblocked hrunning⟩
    rintro (hnext | hblocked)
    · exact hwaiting (.inl hnext)
    · exact absurd hblocked hrunning

/-- No wake-up is lost over every run in which no datagram comes before the thread becomes
BLOCKED. -/
theorem not_lost_of_undisturbed
    (h : (system address thread).ReachableUnder (Undisturbed address) w) :
    ¬ w.Lost address thread := by
  have hinv : WaitInv address thread w := by
    refine h.invariant ?_ fun _ _ _ hinv hundisturbed hstep => hinv.step hundisturbed hstep
    rintro w₀ ⟨hne, hpc, -, hrunning, s, hs⟩
    refine ⟨hne, ⟨s, hs, ?_⟩, ?_⟩
    · rintro (hnext | hblocked)
      · exact absurd (hpc.symm.trans hnext) (by decide)
      · exact absurd (hrunning.symm.trans hblocked) (by decide)
    · exact fun hblocked => absurd (hrunning.symm.trans hblocked) (by decide)
  rintro ⟨hblocked, s, hs, -, hlost⟩
  obtain ⟨s', hs', hwaiting⟩ := hinv.socket
  obtain rfl := Option.some.inj (hs'.socketAt.symm.trans hs)
  exact hlost (hwaiting (.inr hblocked))

end

/-! ### A thread that waits for a datagram to port 7 -/

/-- A thread that runs on a host with a socket for the port. -/
def idle : Receiving :=
  ⟨History.start.host.setThreadState 0x3000#64 .running, .outside, true, false⟩

theorem init_idle : (system 0x1000#64 0x3000#64).init idle := by
  obtain ⟨-, -, s, hs, -⟩ := History.init_start
  exact ⟨by decide, rfl, rfl, by decide, s, hs.setThreadState _⟩

/-- A datagram for the port. -/
def letter (data : List Byte) : Event :=
  .arrival (fun _ => true) (History.letter data) 0 8 (BitVec.ofNat 64 data.length)

/-- The call and the statements up to the call of `schedule()`, a datagram and the next turn. -/
def untilWoken : List Event :=
  [.call false, .statement, .statement, .statement, .statement, letter [1], .resume, .statement]

/-- A datagram without data wakes the thread, and the next one comes before the thread becomes
BLOCKED again. -/
def untilLost : List Event :=
  [.call false, .statement, .statement, .statement, .statement, letter [], .resume, .statement,
    .statement, .statement, letter [1], .statement]

theorem undisturbed_of_ne {address : Word} {w : Receiving} {e : Event} (hpc : w.pc ≠ .setBlocked) :
    w.Undisturbed address e := by
  cases e with
  | arrival => exact fun h => absurd h hpc
  | _ => trivial

/-- A datagram that finds the thread asleep. -/
theorem not_lost_of_undisturbed_untilWoken :
    ∃ w : Receiving, (w.pc = .test ∧ w.host.threadState 0x3000#64 = .running) ∧
      ¬ w.Lost 0x1000#64 0x3000#64 := by
  obtain ⟨w, hreached, hwoken⟩ := Transition.System.exists_reachableUnder
    (S := system 0x1000#64 0x3000#64) (C := Undisturbed 0x1000#64)
    (P := fun w : Receiving => w.pc = .test ∧ w.host.threadState 0x3000#64 = .running)
    (fun w e => if w.pc = .setBlocked then w.take 0x1000#64 0x3000#64 .statement
      else w.take 0x1000#64 0x3000#64 e) untilWoken
    (fun w e w' hstep => by
      by_cases hpc : w.pc = .setBlocked
      · exact ⟨.statement, trivial, by rwa [if_pos hpc] at hstep⟩
      · exact ⟨e, undisturbed_of_ne hpc, by rwa [if_neg hpc] at hstep⟩)
    init_idle (by decide)
  exact ⟨w, hwoken, not_lost_of_undisturbed hreached⟩

/-- The second datagram finds the thread in `waiting_thread` and makes it READY, and then the thread
becomes BLOCKED. -/
theorem exists_lost : ∃ w, (system 0x1000#64 0x3000#64).Reachable w ∧
    w.Lost 0x1000#64 0x3000#64 :=
  Transition.System.exists_reachableUnder (take 0x1000#64 0x3000#64) untilLost
    (fun _ e _ hstep => ⟨e, trivial, hstep⟩) init_idle (by decide)

end Receiving

end KyroOS.Net

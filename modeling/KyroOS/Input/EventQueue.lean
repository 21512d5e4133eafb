import KyroOS.Lib.BoundedFifo
import KyroOS.Lib.RingBuffer

/-!
# The event queue

The handlers of the keyboard and of the mouse push events, and threads pop them. A call masks
interrupts around its body, and takes effect as one step.

## Main definitions

* `EventQueue`, `eventPush`, `eventPop` — the queue and its calls
* `EventQueue.run` — calls that take effect one after the other, with their results
* `Waits` — the events that wait in the ring

## Main results

* `Waits.exec` — a call does to them what a bounded queue does
* `eventQueue_fifo` — the queue is a bounded queue
-/

namespace KyroOS.Input

open BoundedFifo RingBuffer

/-- `event_type_t` -/
inductive EventType
  | none
  | keyDown
  | keyUp
  | mouseMove
  | mouseDown
  | mouseUp
  deriving DecidableEq, Repr

/-- `event_t` -/
structure Event where
  type : EventType
  data1 : BitVec 32
  data2 : BitVec 32
  data3 : BitVec 32
  deriving DecidableEq, Repr

/-- `EVENT_QUEUE_SIZE` -/
def eventQueueSize : ℕ := 256

/-- `event_queue`, `queue_head`, `queue_tail` and `event_count`. -/
structure EventQueue where
  eventQueue : ℤ → Event
  queueHead : ℤ
  queueTail : ℤ
  eventCount : ℤ

namespace EventQueue

variable (q : EventQueue)

/-- `event_push`, with the warning that it logs. -/
def eventPush (event : Event) : EventQueue × Option String :=
  if q.eventCount < eventQueueSize then
    ({ q with
        eventQueue := Function.update q.eventQueue q.queueTail event
        queueTail := (q.queueTail + 1).tmod eventQueueSize
        eventCount := q.eventCount + 1 },
      none)
  else (q, some "Event queue full, event dropped.")

/-- `event_pop`: the event, when the call returns 1. -/
def eventPop : EventQueue × Option Event :=
  if q.eventCount > 0 then
    ({ q with
        queueHead := (q.queueHead + 1).tmod eventQueueSize
        eventCount := q.eventCount - 1 },
      some (q.eventQueue q.queueHead))
  else (q, none)

/-- A call with its result. An event is dropped with a warning. -/
def exec : Call Event → EventQueue × Result Event
  | .push event => ((q.eventPush event).1, (q.eventPush event).2.elim (.accepted event) fun _ => .dropped)
  | .pop => (q.eventPop.1, q.eventPop.2.elim .empty .popped)

/-- The queue before the first call. What is in the ring does not matter. -/
def Fresh : Prop := q.queueHead = 0 ∧ q.queueTail = 0 ∧ q.eventCount = 0

end EventQueue

/-- Calls from any number of clients, in the order in which they take effect. -/
def EventQueue.run : EventQueue → List (Call Event) → EventQueue × List (Result Event)
  | q, [] => (q, [])
  | q, c :: calls => (((q.exec c).1.run calls).1, (q.exec c).2 :: ((q.exec c).1.run calls).2)

/-! ### The events that wait -/

variable {q : EventQueue} {waiting : List Event}

/-- The ring holds these events from its head on, and its indices say so. -/
structure Waits (q : EventQueue) (waiting : List Event) : Prop where
  count : q.eventCount = waiting.length
  room : waiting.length ≤ eventQueueSize
  head : 0 ≤ q.queueHead ∧ q.queueHead < eventQueueSize
  tail : q.queueTail = (q.queueHead + q.eventCount) % eventQueueSize
  contents : contents eventQueueSize (fun i => q.eventQueue i) q.queueHead.toNat waiting.length = waiting

theorem EventQueue.Fresh.waits (h : q.Fresh) : Waits q [] := by
  obtain ⟨hhead, htail, hcount⟩ := h
  exact ⟨hcount, Nat.zero_le _, by simp [hhead, eventQueueSize], by simp [hhead, htail, hcount], rfl⟩

/-- An event that fits is the last to wait. -/
theorem Waits.push (h : Waits q waiting) (event : Event) (hroom : waiting.length < eventQueueSize) :
    Waits (q.eventPush event).1 (waiting ++ [event]) := by
  obtain ⟨head, hhead⟩ := Int.eq_ofNat_of_zero_le h.head.1
  have hlt : head < eventQueueSize := by
    have := h.head.2
    omega
  have htail : q.queueTail = ((head + waiting.length) % eventQueueSize : ℕ) := by
    rw [h.tail, hhead, h.count]
    push_cast
    rfl
  have hcontents := h.contents
  rw [hhead, Int.toNat_natCast] at hcontents
  have hcall : q.eventPush event =
      ({ q with
          eventQueue := Function.update q.eventQueue q.queueTail event
          queueTail := (q.queueTail + 1).tmod eventQueueSize
          eventCount := q.eventCount + 1 }, none) :=
    if_pos (by rw [h.count]; exact_mod_cast hroom)
  rw [hcall]
  refine ⟨?_, by simpa using hroom, h.head, ?_, ?_⟩
  · show q.eventCount + 1 = ((waiting ++ [event]).length : ℕ)
    rw [h.count, List.length_append, List.length_singleton]
    push_cast
    rfl
  · show (q.queueTail + 1).tmod eventQueueSize = (q.queueHead + (q.eventCount + 1)) % eventQueueSize
    rw [htail, hhead, h.count]
    have hpush : ((head + waiting.length) % eventQueueSize + 1) % eventQueueSize =
        (head + (waiting.length + 1)) % eventQueueSize := tail_push
    rw [Int.tmod_eq_emod_of_nonneg (by positivity)]
    exact_mod_cast hpush
  · show RingBuffer.contents eventQueueSize
      (fun i : ℕ => Function.update q.eventQueue q.queueTail event i) q.queueHead.toNat _ = _
    have hupdate : (fun i : ℕ => Function.update q.eventQueue q.queueTail event (i : ℤ)) =
        Function.update (fun i : ℕ => q.eventQueue i)
          ((head + waiting.length) % eventQueueSize) event := by
      funext i
      rw [htail, Function.update_apply, Function.update_apply]
      simp only [Nat.cast_inj]
    rw [hupdate, hhead, Int.toNat_natCast, List.length_append, List.length_singleton,
      contents_push hroom, hcontents]

/-- The first event leaves the ring. -/
theorem Waits.pop {event : Event} (h : Waits q (event :: waiting)) :
    q.eventPop.2 = some event ∧ Waits q.eventPop.1 waiting := by
  obtain ⟨head, hhead⟩ := Int.eq_ofNat_of_zero_le h.head.1
  have hlt : head < eventQueueSize := by
    have := h.head.2
    omega
  have hcontents := h.contents
  rw [hhead, Int.toNat_natCast, List.length_cons, contents_pop hlt, List.cons.injEq] at hcontents
  have hnext : (q.queueHead + 1).tmod eventQueueSize = ((head + 1) % eventQueueSize : ℕ) := by
    rw [hhead, Int.tmod_eq_emod_of_nonneg (by positivity)]
    push_cast
    rfl
  have hcount : q.eventCount = waiting.length + 1 := h.count
  have hcall : q.eventPop =
      ({ q with
          queueHead := (q.queueHead + 1).tmod eventQueueSize
          eventCount := q.eventCount - 1 }, some (q.eventQueue q.queueHead)) :=
    if_pos (by omega)
  rw [hcall]
  refine ⟨congrArg some (by rw [hhead]; exact hcontents.1), ?_, ?_, ?_, ?_, ?_⟩
  · show q.eventCount - 1 = waiting.length
    omega
  · exact (Nat.le_succ _).trans h.room
  · show 0 ≤ (q.queueHead + 1).tmod eventQueueSize ∧ (q.queueHead + 1).tmod eventQueueSize < _
    rw [hnext]
    exact ⟨by positivity, by exact_mod_cast Nat.mod_lt _ (by decide)⟩
  · show q.queueTail = ((q.queueHead + 1).tmod eventQueueSize + (q.eventCount - 1)) % eventQueueSize
    rw [hnext, h.tail, hhead, hcount]
    have hpop : ((head + 1) % eventQueueSize + waiting.length) % eventQueueSize =
        (head + (waiting.length + 1)) % eventQueueSize := tail_pop
    rw [add_sub_cancel_right]
    exact_mod_cast hpop.symm
  · show RingBuffer.contents eventQueueSize _ ((q.queueHead + 1).tmod eventQueueSize).toNat _ = _
    rw [hnext, Int.toNat_natCast]
    exact hcontents.2

/-- A call does to the events that wait what a bounded queue does, with the same result. -/
theorem Waits.exec (h : Waits q waiting) (c : Call Event) :
    (q.exec c).2 = (BoundedFifo.exec eventQueueSize waiting c).2 ∧
      Waits (q.exec c).1 (BoundedFifo.exec eventQueueSize waiting c).1 := by
  have hcount := h.count
  cases c with
  | push event =>
    by_cases hroom : waiting.length < eventQueueSize
    · have hcall : (q.eventPush event).2 = none := by
        rw [EventQueue.eventPush, if_pos (by omega)]
      rw [EventQueue.exec, BoundedFifo.exec, if_pos hroom, hcall]
      exact ⟨rfl, h.push event hroom⟩
    · have hcall : q.eventPush event = (q, some "Event queue full, event dropped.") :=
        if_neg (by omega)
      rw [EventQueue.exec, BoundedFifo.exec, if_neg hroom, hcall]
      exact ⟨rfl, h⟩
  | pop =>
    cases waiting with
    | nil =>
      have hcall : q.eventPop = (q, none) := if_neg (by simp [hcount])
      rw [EventQueue.exec, hcall]
      exact ⟨rfl, h⟩
    | cons event waiting =>
      obtain ⟨hresult, hwaits⟩ := h.pop
      rw [EventQueue.exec, hresult]
      exact ⟨rfl, hwaits⟩

/-- Calls do to the queue what they do to a bounded queue. -/
theorem Waits.run (h : Waits q waiting) (calls : List (Call Event)) :
    (q.run calls).2 = (BoundedFifo.run eventQueueSize waiting calls).2 ∧
      Waits (q.run calls).1 (BoundedFifo.run eventQueueSize waiting calls).1 := by
  induction calls generalizing q waiting with
  | nil => exact ⟨rfl, h⟩
  | cons c calls ih =>
    obtain ⟨hresult, hnext⟩ := h.exec c
    obtain ⟨hresults, hlast⟩ := ih hnext
    rw [run_cons, EventQueue.run, hresult, hresults]
    exact ⟨rfl, hlast⟩

/-- The queue is a bounded queue. After any calls its indices are consistent; the events that were
popped are the first of the accepted ones; and a further event is dropped when 256 accepted events
wait, and only then. -/
theorem eventQueue_fifo (hq : q.Fresh) (calls : List (Call Event)) :
    let s := (q.run calls).1
    let results := (q.run calls).2
    results = (BoundedFifo.run eventQueueSize [] calls).2 ∧
      (0 ≤ s.eventCount ∧ s.eventCount ≤ 256) ∧
      s.queueTail = (s.queueHead + s.eventCount) % 256 ∧
      (∃ waiting : List Event, waiting.length = s.eventCount ∧
        accepted results = popped results ++ waiting) ∧
      ∀ event, (s.exec (.push event)).2 = .dropped ↔
        (accepted results).length = (popped results).length + 256 := by
  obtain ⟨hresults, hwaits⟩ := hq.waits.run calls
  have haccepted := accepted_run eventQueueSize [] calls
  rw [List.nil_append, ← hresults] at haccepted
  have hcount := hwaits.count
  have hroom := hwaits.room
  have hsize : eventQueueSize = 256 := rfl
  refine ⟨hresults, ⟨by omega, by omega⟩, hwaits.tail, ⟨_, hcount.symm, haccepted⟩, fun event => ?_⟩
  obtain ⟨hpush, -⟩ := hwaits.exec (.push event)
  rw [hpush, haccepted, List.length_append, BoundedFifo.exec]
  split
  · next hlt =>
    constructor
    · rintro ⟨⟩
    · omega
  · next hge =>
    constructor
    · omega
    · exact fun _ => rfl

/-- A queue before the first call, and a key. -/
def emptyQueue : EventQueue := ⟨fun _ => ⟨.none, 0, 0, 0⟩, 0, 0, 0⟩

def keyA : Event := ⟨.keyDown, 0x61, 0x1E, 0⟩

theorem eventQueue_keyA :
    (emptyQueue.run [.push keyA, .pop, .pop]).2 = [.accepted keyA, .popped keyA, .empty] :=
  (eventQueue_fifo ⟨rfl, rfl, rfl⟩ [.push keyA, .pop, .pop]).1

end KyroOS.Input

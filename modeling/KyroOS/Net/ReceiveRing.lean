import KyroOS.Lib.RingBuffer
import KyroOS.Lib.Transition
import KyroOS.Net.Bytes

/-!
# The receive ring of the network card

The card fills the descriptors from its head on and stops at the tail. The interrupt handler takes
the packets of the descriptors that are done, clears them, and writes its index, which it has
already moved on, less one to the tail.

## Main definitions

* `ReceiveRing`, `rxSystem` — the ring with the handler and the card, and its runs
* `ReceiveRing.take`, `ReceiveRing.turn` — one turn of the loop of the handler
* `ReceiveRing.InOrder` — every packet was handled once and in order, or waits to be
* `ReceiveRing.NotLast` — the handler does not take a packet from the last descriptor

## Main results

* `ReceiveRing.RingInv.step` — what a step keeps
* `ReceiveRing.InOrder.handled_eq` — no packet waits where the handler comes back
* `inOrder_iff_notLast` — the packets are in order and the tail is right until the first packet is
  taken from the last descriptor
* `not_inOrder` — the tail after 32 packets
-/

namespace KyroOS.Net

open RingBuffer Transition

/-- `E1000_NUM_RX_DESC` -/
def numRxDesc : ℕ := 32

/-- The status of a `struct e1000_rx_desc`, and the first `length` bytes of its buffer. -/
structure RxDesc where
  status : Byte
  packet : List Byte

/-- The DD bit. -/
def RxDesc.dd (desc : RxDesc) : Prop := desc.status &&& 1#8 ≠ 0#8

instance RxDesc.decidableDd (desc : RxDesc) : Decidable desc.dd := inferInstanceAs (Decidable (_ ≠ _))

theorem RxDesc.dd_or_one (status : Byte) (packet : List Byte) : (⟨status ||| 1#8, packet⟩ : RxDesc).dd := by
  intro hzero
  have hbit : (status ||| 1#8 : Byte) &&& 1#8 = 1#8 := by
    ext i hi
    rw [BitVec.getElem_and, BitVec.getElem_or]
    cases (1#8 : Byte)[i] <;> simp
  rw [hbit] at hzero
  cases hzero

/-! ### The handler and the card -/

/-- The receive side of an `e1000_device_t`, with the registers `RDH` and `RDT`, and whether the
handler is in its loop. The packets that the card stored and those that the handler took are
recorded. -/
structure ReceiveRing where
  rxDescs : ℕ → RxDesc
  rxCur : BitVec 16
  rdh : ℕ
  rdt : BitVec 32
  handling : Bool
  filled : List (List Byte)
  handled : List (List Byte)

/-- What happens at the ring. The handler is not entered again before it has come back. -/
inductive RxEvent
  /-- A packet arrives. -/
  | arrive (packet : List Byte) (status : Byte)
  /-- The card interrupts, with the value of `ICR`. -/
  | interrupt (icr : BitVec 32)
  /-- The handler makes a turn of its loop. -/
  | turn

namespace ReceiveRing

variable (s : ReceiveRing)

/-- The card stores a packet, and sets the DD bit. -/
def fill (packet : List Byte) (status : Byte) : ReceiveRing :=
  { s with
    rxDescs := Function.update s.rxDescs s.rdh ⟨status ||| 1#8, packet⟩
    rdh := (s.rdh + 1) % numRxDesc
    filled := s.filled ++ [packet] }

/-- The handler takes the packet at `rx_cur`, and gives the descriptor back. -/
def take : ReceiveRing :=
  let desc := s.rxDescs s.rxCur.toNat
  let rxCur := BitVec.ofNat 16 ((s.rxCur.toNat + 1) % numRxDesc)
  { s with
    rxDescs := Function.update s.rxDescs s.rxCur.toNat { desc with status := 0 }
    rxCur
    -- the index is promoted to `int` before the subtraction
    rdt := rxCur.setWidth 32 - 1
    handled := s.handled ++ [desc.packet] }

/-- A turn of the loop of `e1000_interrupt_handler`. -/
def turn : ReceiveRing :=
  if (s.rxDescs s.rxCur.toNat).dd then s.take else { s with handling := false }

/-- The state after an event that can happen. -/
def next : RxEvent → Option ReceiveRing
  | .arrive packet status => if s.rdh = s.rdt.toNat then some s else some (s.fill packet status)
  | .interrupt icr => if s.handling then none else some { s with handling := icr ≠ 0 }
  | .turn => if s.handling then some s.turn else none

/-- The ring as `e1000_attach` leaves it. -/
def Attached : Prop :=
  (∀ slot, (s.rxDescs slot).status = 0) ∧ s.rxCur = 0 ∧ s.rdh = 0 ∧ s.rdt = 31 ∧
    s.handling = false ∧ s.filled = [] ∧ s.handled = []

/-- The number of packets that wait for the handler. -/
def waiting : ℕ := s.filled.length - s.handled.length

/-- The packets that were stored are those that were taken, once each and in their order, and
behind them those of the descriptors from `rx_cur` on that are done; and the tail is the descriptor
in front of `rx_cur`. -/
structure InOrder : Prop where
  packets : s.filled = s.handled ++
    contents numRxDesc (fun slot => (s.rxDescs slot).packet) s.rxCur.toNat s.waiting
  done : ∀ i < numRxDesc,
    (s.rxDescs ((s.rxCur.toNat + i) % numRxDesc)).dd ↔ i < s.waiting
  tail : s.rdt.toNat = (s.rxCur.toNat + 31) % numRxDesc

/-- The handler does not take a packet from the last descriptor. -/
def NotLast : RxEvent → Prop
  | .turn => (s.rxDescs s.rxCur.toNat).dd → s.rxCur ≠ 31
  | .arrive _ _ | .interrupt _ => True

end ReceiveRing

/-- The runs of the ring after it was attached. -/
def rxSystem : System ReceiveRing RxEvent where
  init := ReceiveRing.Attached
  step s e s' := s.next e = some s'

namespace ReceiveRing

variable {s s' : ReceiveRing} {e : RxEvent} {packet : List Byte} {status : Byte}

/-! ### Steps -/

/-- The packets are in order, and the head is behind those that wait. -/
structure RingInv (s : ReceiveRing) : Prop extends InOrder s where
  cur : s.rxCur.toNat < numRxDesc
  room : s.waiting < numRxDesc
  head : s.rdh = (s.rxCur.toNat + s.waiting) % numRxDesc

theorem RingInv.length_filled (h : RingInv s) :
    s.filled.length = s.handled.length + s.waiting := by
  have hlength := congrArg List.length h.packets
  rw [List.length_append, length_contents] at hlength
  exact hlength

/-- Slots of the ring are told apart by their distance from one of them. -/
theorem slot_inj {cur i j : ℕ} (hi : i < numRxDesc) (hj : j < numRxDesc) :
    (cur + i) % numRxDesc = (cur + j) % numRxDesc ↔ i = j := by
  constructor
  · intro heq
    by_contra hne
    rcases Nat.lt_or_gt_of_ne hne with hlt | hgt
    · exact slot_ne hlt hj heq
    · exact slot_ne hgt hi heq.symm
  · intro heq
    rw [heq]

/-- A packet that arrives where the head is off the tail is the last to wait. -/
theorem RingInv.fill (h : RingInv s) (hroom : s.rdh ≠ s.rdt.toNat) :
    RingInv (s.fill packet status) := by
  have hlt : s.waiting + 1 < numRxDesc := by
    have hne : s.waiting ≠ 31 := by
      intro hfull
      rw [h.head, h.tail, hfull] at hroom
      exact hroom rfl
    have hroom := h.room
    show s.waiting + 1 < 32
    rw [show numRxDesc = 32 from rfl] at hroom
    omega
  have hlength := h.length_filled
  have hwaiting : (s.fill packet status).waiting = s.waiting + 1 := by
    show (s.filled ++ [packet]).length - s.handled.length = _
    rw [List.length_append, List.length_singleton]
    omega
  have hpacket : (fun slot => ((s.fill packet status).rxDescs slot).packet) =
      Function.update (fun slot => (s.rxDescs slot).packet)
        ((s.rxCur.toNat + s.waiting) % numRxDesc) packet := by
    funext slot
    show (Function.update s.rxDescs s.rdh ⟨status ||| 1#8, packet⟩ slot).packet = _
    rw [h.head, Function.update_apply, Function.update_apply]
    split_ifs <;> rfl
  exact {
    packets := by
      show s.filled ++ [packet] = s.handled ++ contents numRxDesc _ s.rxCur.toNat _
      rw [hwaiting, hpacket, contents_push h.room, ← List.append_assoc, ← h.packets]
    done := by
      intro i hi
      show (Function.update s.rxDescs s.rdh ⟨status ||| 1#8, packet⟩
        ((s.rxCur.toNat + i) % numRxDesc)).dd ↔ _
      rw [hwaiting, h.head]
      by_cases hslot : i = s.waiting
      · rw [hslot, Function.update_self]
        exact iff_of_true (RxDesc.dd_or_one status packet) (Nat.lt_succ_self _)
      · rw [Function.update_of_ne fun heq => hslot ((slot_inj hi h.room).mp heq), h.done i hi]
        omega
    tail := h.tail
    cur := h.cur
    room := by rw [hwaiting]; exact hlt
    head := by
      show (s.rdh + 1) % numRxDesc = (s.rxCur.toNat + _) % numRxDesc
      rw [hwaiting, h.head, tail_push] }

/-- The index that the handler moves on to. -/
theorem toNat_rxCur_take : s.take.rxCur.toNat = (s.rxCur.toNat + 1) % numRxDesc := by
  have hmod : (s.rxCur.toNat + 1) % numRxDesc < numRxDesc := Nat.mod_lt _ (by decide)
  show (BitVec.ofNat 16 ((s.rxCur.toNat + 1) % numRxDesc)).toNat = _
  rw [BitVec.toNat_ofNat]
  exact Nat.mod_eq_of_lt (hmod.trans (by decide))

theorem packet_take : (fun slot => (s.take.rxDescs slot).packet) =
    fun slot => (s.rxDescs slot).packet := by
  funext slot
  show (Function.update s.rxDescs s.rxCur.toNat _ slot).packet = _
  by_cases hslot : slot = s.rxCur.toNat
  · rw [hslot, Function.update_self]
  · rw [Function.update_of_ne hslot]

/-- The tail that is written is the descriptor just taken, unless that is the last. -/
theorem toNat_rdt_take (hcur : s.rxCur.toNat < numRxDesc) (hlast : s.rxCur ≠ 31) :
    s.take.rdt.toNat = s.rxCur.toNat := by
  have hne : s.rxCur.toNat ≠ 31 := fun h => hlast (BitVec.eq_of_toNat_eq h)
  have hcur' : s.rxCur.toNat < 32 := hcur
  have hnext : s.take.rxCur.toNat = s.rxCur.toNat + 1 := by
    rw [toNat_rxCur_take]
    exact Nat.mod_eq_of_lt (by show s.rxCur.toNat + 1 < 32; omega)
  show (s.take.rxCur.setWidth 32 - 1).toNat = _
  rw [BitVec.toNat_sub, BitVec.toNat_setWidth, hnext]
  show (2 ^ 32 - 1 + (s.rxCur.toNat + 1) % 2 ^ 32) % 2 ^ 32 = _
  omega

/-- Behind the last descriptor the tail wraps in 32 bits. -/
theorem rdt_take_last (hlast : s.rxCur = 31) : s.take.rdt = 0xFFFFFFFF := by
  have hnext : s.take.rxCur = 0 := by
    apply BitVec.eq_of_toNat_eq
    rw [toNat_rxCur_take, hlast]
    rfl
  show s.take.rxCur.setWidth 32 - 1 = _
  rw [hnext]
  rfl

/-- The packet at `rx_cur` is the first that waits. -/
theorem RingInv.take (h : RingInv s) (hdd : (s.rxDescs s.rxCur.toNat).dd) (hlast : s.rxCur ≠ 31) :
    RingInv s.take := by
  have hcur : (s.rxCur.toNat + 0) % numRxDesc = s.rxCur.toNat := Nat.mod_eq_of_lt h.cur
  obtain ⟨w, hw⟩ : ∃ w, s.waiting = w + 1 := by
    refine Nat.exists_eq_add_one.mpr ?_
    rw [← h.done 0 (by decide), hcur]
    exact hdd
  have hlength := h.length_filled
  have hroom : w + 1 < 32 := hw ▸ h.room
  have hwaiting : s.take.waiting = w := by
    show s.filled.length - (s.handled ++ [(s.rxDescs s.rxCur.toNat).packet]).length = w
    rw [List.length_append, List.length_singleton]
    omega
  exact {
    packets := by
      have hpackets := h.packets
      rw [hw, contents_pop h.cur] at hpackets
      rw [hwaiting, packet_take, toNat_rxCur_take]
      show s.filled = s.handled ++ [(s.rxDescs s.rxCur.toNat).packet] ++ _
      rw [List.append_assoc]
      exact hpackets
    done := by
      intro i hi
      rw [hwaiting, toNat_rxCur_take, tail_pop]
      show (Function.update s.rxDescs s.rxCur.toNat _ _).dd ↔ _
      have hi32 : i < 32 := hi
      by_cases hi' : i + 1 < numRxDesc
      · rw [Function.update_of_ne, h.done (i + 1) hi', hw]
        · omega
        · intro heq
          have hinj := (slot_inj hi' (by decide)).mp (heq.trans hcur.symm)
          omega
      · -- once around the ring is the descriptor that was cleared
        have hturn : (s.rxCur.toNat + (i + 1)) % numRxDesc = s.rxCur.toNat := by
          rw [show i + 1 = numRxDesc by have h32 : ¬ i + 1 < 32 := hi'; show i + 1 = 32; omega,
            Nat.add_mod_right]
          exact Nat.mod_eq_of_lt h.cur
        rw [hturn, Function.update_self]
        refine iff_of_false (fun hdd => ?_) (by have h32 : ¬ i + 1 < 32 := hi'; omega)
        exact hdd (BitVec.zero_and ..)
    tail := by
      rw [toNat_rdt_take h.cur hlast, toNat_rxCur_take, Nat.mod_add_mod,
        show s.rxCur.toNat + 1 + 31 = s.rxCur.toNat + numRxDesc from rfl, Nat.add_mod_right]
      exact (Nat.mod_eq_of_lt h.cur).symm
    cur := by
      rw [toNat_rxCur_take]
      exact Nat.mod_lt _ (by decide)
    room := by
      rw [hwaiting]
      show w < 32
      omega
    head := by
      rw [hwaiting, toNat_rxCur_take, tail_pop, ← hw]
      exact h.head }

/-- The handler comes to the end of its loop, or was not called for. -/
theorem RingInv.setHandling (h : RingInv s) (handling : Bool) : RingInv { s with handling } :=
  ⟨⟨h.packets, h.done, h.tail⟩, h.cur, h.room, h.head⟩

/-- What a step keeps. -/
theorem RingInv.step (h : RingInv s) (hlast : s.NotLast e) (hstep : s.next e = some s') :
    RingInv s' := by
  cases e with
  | arrive packet status =>
    rw [next] at hstep
    split_ifs at hstep with hfull
    · obtain rfl := Option.some.inj hstep
      exact h
    · obtain rfl := Option.some.inj hstep
      exact h.fill hfull
  | interrupt icr =>
    rw [next] at hstep
    split_ifs at hstep
    obtain rfl := Option.some.inj hstep
    exact h.setHandling _
  | turn =>
    rw [next] at hstep
    split_ifs at hstep
    obtain rfl := Option.some.inj hstep
    rw [turn]
    split_ifs with hdd
    · exact h.take hdd (hlast hdd)
    · exact h.setHandling false

/-- Where the loop of the handler ends, every packet was taken. -/
theorem InOrder.handled_eq (h : s.InOrder) (hcur : s.rxCur.toNat < numRxDesc)
    (hdd : ¬ (s.rxDescs s.rxCur.toNat).dd) : s.handled = s.filled := by
  have hfirst : (s.rxCur.toNat + 0) % numRxDesc = s.rxCur.toNat := Nat.mod_eq_of_lt hcur
  have hnone : s.waiting = 0 := by
    by_contra hpos
    rw [← hfirst] at hdd
    exact hdd ((h.done 0 (by decide)).mpr (Nat.pos_of_ne_zero hpos))
  rw [h.packets, hnone, contents_zero, List.append_nil]

/-- A step that leaves the packets in order and the tail right takes no packet from the last
descriptor. -/
theorem InOrder.notLast (h : s'.InOrder) (hstep : s.next e = some s') : s.NotLast e := by
  cases e with
  | arrive packet status => exact trivial
  | interrupt icr => exact trivial
  | turn =>
    intro hdd hlast
    rw [next] at hstep
    split_ifs at hstep
    obtain rfl := Option.some.inj hstep
    have htail := h.tail
    rw [turn, if_pos hdd, rdt_take_last hlast] at htail
    have hlt : (s.take.rxCur.toNat + 31) % numRxDesc < 32 := Nat.mod_lt _ (by decide)
    rw [← htail] at hlt
    exact absurd hlt (by decide)

theorem ringInv_attached (h : s.Attached) : RingInv s := by
  obtain ⟨hstatus, hcur, hhead, htail, -, hfilled, hhandled⟩ := h
  have hwaiting : s.waiting = 0 := by
    rw [waiting, hfilled, hhandled]
    rfl
  exact {
    packets := by
      rw [hfilled, hhandled, hwaiting]
      rfl
    done := by
      intro i _
      rw [hwaiting]
      refine iff_of_false (fun hdd => hdd ?_) (Nat.not_lt_zero i)
      rw [hstatus]
      rfl
    tail := by
      rw [htail, hcur]
      rfl
    cur := by
      rw [hcur]
      decide
    room := by
      rw [hwaiting]
      decide
    head := by
      rw [hhead, hcur, hwaiting]
      rfl }

end ReceiveRing

/-- In every run in which the handler takes no packet from the last descriptor, the packets are
handled once and in their order and the tail is right; and in any state of such a run, a step keeps
that exactly when it takes none from the last descriptor either. -/
theorem inOrder_iff_notLast {s : ReceiveRing} (h : rxSystem.ReachableUnder ReceiveRing.NotLast s) :
    s.InOrder ∧ ∀ e s', rxSystem.step s e s' → (s'.InOrder ↔ s.NotLast e) := by
  have hinv : s.RingInv := h.invariant (I := ReceiveRing.RingInv) (fun _ => ReceiveRing.ringInv_attached)
    fun _ _ _ hs hlast hstep => hs.step hlast hstep
  refine ⟨hinv.toInOrder, fun e s' hstep => ⟨fun hafter => ?_, fun hlast => ?_⟩⟩
  · exact hafter.notLast hstep
  · exact (hinv.step hlast hstep).toInOrder

/-! ### Runs -/

/-- A ring that was attached. -/
def attachedReceiveRing : ReceiveRing := ⟨fun _ => ⟨0, []⟩, 0, 0, 31, false, [], []⟩

theorem init_attachedReceiveRing : rxSystem.init attachedReceiveRing :=
  ⟨fun _ => rfl, rfl, rfl, rfl, rfl, rfl, rfl⟩

/-- A packet arrives first. -/
theorem inOrder_iff_notLast_filled : (attachedReceiveRing.fill [1#8] 0).InOrder ∧
    ∀ e s', rxSystem.step (attachedReceiveRing.fill [1#8] 0) e s' →
      (s'.InOrder ↔ (attachedReceiveRing.fill [1#8] 0).NotLast e) := by
  apply inOrder_iff_notLast
  have hattached : rxSystem.ReachableUnder ReceiveRing.NotLast attachedReceiveRing :=
    .init init_attachedReceiveRing
  exact hattached.step (a := .arrive [1#8] 0) trivial rfl

/-- The handler takes 32 packets, each as it arrives, and writes 2³² − 1 to the tail. -/
theorem not_inOrder : ¬ ∀ s, rxSystem.Reachable s → s.InOrder := by
  intro hall
  have hrun : ∃ s, rxSystem.Reachable s ∧ s.rdt = 0xFFFFFFFF := by
    apply System.exists_reachableUnder ReceiveRing.next
      (.interrupt 0x80 :: (List.replicate 32 [.arrive [1#8] 0, .turn]).flatten)
      (fun _ e _ h => ⟨e, trivial, h⟩) init_attachedReceiveRing
    decide +kernel
  obtain ⟨s, hreachable, hrdt⟩ := hrun
  have htail := (hall s hreachable).tail
  have hlt : (s.rxCur.toNat + 31) % numRxDesc < 32 := Nat.mod_lt _ (by decide)
  rw [← htail, hrdt] at hlt
  exact absurd hlt (by decide)

end KyroOS.Net

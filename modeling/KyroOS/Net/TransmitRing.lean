import KyroOS.Lib.Transition
import KyroOS.Net.Bytes
import Mathlib.Data.List.FinRange
import Mathlib.Data.Fintype.Basic

/-!
# The transmit ring of the network card

A call that sends a packet reads the tail of the ring, yields until the descriptor there is done,
fills it, and writes the tail that it read plus one. The card takes the descriptors from the head to
the tail; when they are equal it sees an empty ring.

## Main definitions

* `E1000`, `E1000.fill` — the ring and its registers, and the end of a call
* `Transmitter`, `txSystem` — the ring with the calls of any number of threads, and its runs
* `Transmitter.Transmits` — every accepted packet was sent once or is still to be sent once
* `Transmitter.Room` — a packet is put where the tail is, and the tail stays off the head

## Main results

* `Transmitter.next_cases` — what a step can do
* `transmits_iff_room` — with room at each step every packet is transmitted, and the first step
  without room breaks that
-/

namespace KyroOS.Net

open Transition

/-- `E1000_NUM_TX_DESC` -/
def numTxDesc : ℕ := 8

/-- An index of a transmit descriptor, modulo `E1000_NUM_TX_DESC`. -/
abbrev TxSlot := Fin numTxDesc

instance : NeZero numTxDesc := ⟨by decide⟩

/-! ### The ring -/

/-- The fields of `struct e1000_tx_desc` that the driver writes. -/
structure TxDesc where
  length : BitVec 16
  cmd : Byte
  status : Byte

/-- The DD bit. -/
def TxDesc.dd (desc : TxDesc) : Prop := desc.status &&& 1#8 ≠ 0#8

instance (desc : TxDesc) : Decidable desc.dd := inferInstanceAs (Decidable (_ ≠ _))

/-- `E1000_TXD_CMD_EOP | E1000_TXD_CMD_RS` -/
def txCmd : Byte := 1#8 ||| 8#8

/-- The transmit side of an `e1000_device_t` with the registers `TDH` and `TDT`. -/
structure E1000 where
  txDescs : TxSlot → TxDesc
  txBuffers : TxSlot → List Byte
  tdh : TxSlot
  tdt : TxSlot

namespace E1000

variable (dev : E1000)

/-- The ring as `e1000_attach` leaves it. -/
def Attached : Prop :=
  (∀ slot, dev.txDescs slot = ⟨0, txCmd, 1⟩) ∧ dev.tdh = 0 ∧ dev.tdt = 0

/-- What the card sends for a descriptor. -/
def content (slot : TxSlot) : List Byte :=
  (dev.txBuffers slot).take (dev.txDescs slot).length.toNat

/-- The descriptors from the head to the tail. -/
def visible : List TxSlot :=
  (List.finRange numTxDesc).filter fun slot => slot - dev.tdh < dev.tdt - dev.tdh

/-- The end of `e1000_send_packet`: the copy, the descriptor, and the tail. -/
def fill (slot : TxSlot) (packet : List Byte) : E1000 :=
  { dev with
    txBuffers := Function.update dev.txBuffers slot
      (packet ++ (dev.txBuffers slot).drop packet.length)
    txDescs := Function.update dev.txDescs slot ⟨.ofNat 16 packet.length, txCmd, 0⟩
    tdt := slot + 1 }

/-- The card sets the DD bit. -/
def setDone (slot : TxSlot) : E1000 :=
  { dev with
    txDescs := Function.update dev.txDescs slot
      { dev.txDescs slot with status := (dev.txDescs slot).status ||| 1#8 } }

variable {dev} {slot other : TxSlot} {packet : List Byte}

theorem content_fill (hlength : packet.length ≤ 2048) :
    (dev.fill slot packet).content slot = packet := by
  have hsize : packet.length % 65536 = packet.length := Nat.mod_eq_of_lt (by omega)
  simp [content, fill, hsize]

theorem content_fill_of_ne (h : other ≠ slot) :
    (dev.fill slot packet).content other = dev.content other := by
  simp [content, fill, h]

theorem dd_fill : ¬ ((dev.fill slot packet).txDescs slot).dd := by
  simp [fill, TxDesc.dd]

theorem dd_fill_of_ne (h : other ≠ slot) :
    ((dev.fill slot packet).txDescs other).dd ↔ (dev.txDescs other).dd := by
  simp [fill, h]

@[simp] theorem content_setDone : (dev.setDone slot).content other = dev.content other := by
  by_cases h : other = slot
  · simp [content, setDone, h]
  · simp [content, setDone, h]

theorem dd_setDone_of_ne (h : other ≠ slot) :
    ((dev.setDone slot).txDescs other).dd ↔ (dev.txDescs other).dd := by
  simp [setDone, h]

end E1000

/-! ### Slots between the head and the tail -/

section

variable {dev : E1000} {slot : TxSlot} {packet : List Byte}

theorem length_visible : dev.visible.length = (dev.tdt - dev.tdh).val := by
  have hcount : ∀ head tail : TxSlot, ((List.finRange numTxDesc).filter fun slot =>
      slot - head < tail - head).length = (tail - head).val := by decide
  exact hcount dev.tdh dev.tdt

/-- A packet at the tail becomes visible, unless the tail comes to the head. -/
theorem visible_fill (h : dev.tdt + 1 ≠ dev.tdh) :
    (dev.fill dev.tdt packet).visible.Perm (dev.visible ++ [dev.tdt]) := by
  have hperm : ∀ head tail : TxSlot, tail + 1 ≠ head →
      ((List.finRange numTxDesc).filter fun slot => slot - head < tail + 1 - head).Perm
        (((List.finRange numTxDesc).filter fun slot => slot - head < tail - head) ++ [tail]) := by
    decide
  exact hperm dev.tdh dev.tdt h

/-- No other slot, and no other tail, makes one more packet visible. -/
theorem eq_tdt_of_length_visible
    (h : (dev.fill slot packet).visible.length = dev.visible.length + 1) :
    slot = dev.tdt ∧ dev.tdt + 1 ≠ dev.tdh := by
  have hslot : ∀ head tail slot : TxSlot, (slot + 1 - head).val = (tail - head).val + 1 →
      slot = tail ∧ tail + 1 ≠ head := by decide
  rw [length_visible, length_visible] at h
  exact hslot dev.tdh dev.tdt slot h

/-- The card takes the descriptor at the head. -/
theorem visible_head (h : dev.tdh ≠ dev.tdt) :
    dev.visible.Perm (dev.tdh :: { dev with tdh := dev.tdh + 1 }.visible) := by
  have hperm : ∀ head tail : TxSlot, head ≠ tail →
      ((List.finRange numTxDesc).filter fun slot => slot - head < tail - head).Perm
        (head :: (List.finRange numTxDesc).filter fun slot =>
          slot - (head + 1) < tail - (head + 1)) := by
    decide
  exact hperm dev.tdh dev.tdt h

end

/-! ### Calls and runs -/

/-- A packet that a call has accepted for the slot it read from the tail. -/
structure TxCall where
  slot : TxSlot
  packet : List Byte
  small : packet.length ≤ 2048

/-- The ring, the calls that yield in `schedule()` by their threads, and the slots that the card has
taken but not reported. The packets that calls put into slots, and those that the card sent from
slots, are recorded. -/
structure Transmitter where
  dev : E1000
  calls : ℕ → Option TxCall
  taken : List TxSlot
  accepted : List (TxSlot × List Byte)
  sent : List (TxSlot × List Byte)

/-- What happens between two switches. -/
inductive TxEvent
  /-- A thread calls `e1000_send_packet`. -/
  | call (thread : ℕ) (packet : List Byte)
  /-- A thread comes back from `schedule()`. -/
  | resume (thread : ℕ)
  /-- The card takes the descriptor at the head. -/
  | take
  /-- The card has sent the packet of a descriptor it took, and sets its DD bit. -/
  | complete (slot : TxSlot)

namespace Transmitter

variable (s : Transmitter)

/-- A call after it has read the tail, or after it has yielded: it yields until the DD bit is
set. -/
def proceed (thread : ℕ) (call : TxCall) : Transmitter :=
  if (s.dev.txDescs call.slot).dd then
    { s with
      dev := s.dev.fill call.slot call.packet
      calls := Function.update s.calls thread none
      accepted := s.accepted ++ [(call.slot, call.packet)] }
  else { s with calls := Function.update s.calls thread (some call) }

/-- The state after an event that can happen. -/
def next : TxEvent → Option Transmitter
  | .call thread packet =>
    if (s.calls thread).isSome then none
    else if h : packet.length > 2048 then some s
    else some (s.proceed thread ⟨s.dev.tdt, packet, not_lt.mp h⟩)
  | .resume thread => (s.calls thread).map (s.proceed thread)
  | .take =>
    if s.dev.tdh = s.dev.tdt then none
    else some
      { s with dev := { s.dev with tdh := s.dev.tdh + 1 }, taken := s.taken ++ [s.dev.tdh] }
  | .complete slot =>
    if slot ∈ s.taken then
      some
        { s with
          dev := s.dev.setDone slot
          taken := s.taken.erase slot
          sent := s.sent ++ [(slot, s.dev.content slot)] }
    else none

/-- The call that runs at an event. -/
def running : TxEvent → Option TxCall
  | .call _ packet => if h : packet.length ≤ 2048 then some ⟨s.dev.tdt, packet, h⟩ else none
  | .resume thread => s.calls thread
  | .take | .complete _ => none

/-- The slots whose packets the card has still to send. -/
def unsentSlots : List TxSlot := s.taken ++ s.dev.visible

/-- The packets that the card will send for them. -/
def unsent : List (TxSlot × List Byte) := s.unsentSlots.map fun slot => (slot, s.dev.content slot)

/-- Every packet that a call put into a slot was sent from there once, with its own bytes, or is to
be sent from there once, with its own bytes; and no two packets to be sent share a slot. -/
structure Transmits : Prop where
  packets : s.accepted.Perm (s.sent ++ s.unsent)
  slots : s.unsentSlots.Nodup

/-- A call whose slot is done has read a tail that still stands, and the tail that it is about to
write is not the head. -/
def Room (e : TxEvent) : Prop :=
  ∀ call ∈ s.running e, (s.dev.txDescs call.slot).dd →
    call.slot = s.dev.tdt ∧ s.dev.tdt + 1 ≠ s.dev.tdh

/-- The slots whose packets are to be sent are not done. -/
def Busy : Prop := ∀ slot ∈ s.unsentSlots, ¬ (s.dev.txDescs slot).dd

end Transmitter

/-- The runs of a ring that has been attached, without calls. -/
def txSystem : System Transmitter TxEvent where
  init s := s.dev.Attached ∧ s.calls = (fun _ => none) ∧ s.taken = [] ∧ s.accepted = [] ∧ s.sent = []
  step s e s' := s.next e = some s'

namespace Transmitter

variable {s s' : Transmitter} {e : TxEvent} {thread : ℕ} {call : TxCall}

/-- A step does nothing to the ring, or puts a packet into it, or takes one, or has sent one. -/
theorem next_cases (h : s.next e = some s') :
    ((∀ call ∈ s.running e, ¬ (s.dev.txDescs call.slot).dd) ∧ ∃ calls, s' = { s with calls }) ∨
    (∃ call ∈ s.running e, (s.dev.txDescs call.slot).dd ∧ ∃ calls, s' =
      { s with
        dev := s.dev.fill call.slot call.packet
        calls
        accepted := s.accepted ++ [(call.slot, call.packet)] }) ∨
    (s.running e = none ∧ s.dev.tdh ≠ s.dev.tdt ∧ s' =
      { s with dev := { s.dev with tdh := s.dev.tdh + 1 }, taken := s.taken ++ [s.dev.tdh] }) ∨
    (s.running e = none ∧ ∃ slot ∈ s.taken, s' =
      { s with
        dev := s.dev.setDone slot
        taken := s.taken.erase slot
        sent := s.sent ++ [(slot, s.dev.content slot)] }) := by
  have hproceed : ∀ thread call, s.running e = some call → s' = s.proceed thread call →
      ((∀ call ∈ s.running e, ¬ (s.dev.txDescs call.slot).dd) ∧ ∃ calls, s' = { s with calls }) ∨
      (∃ call ∈ s.running e, (s.dev.txDescs call.slot).dd ∧ ∃ calls, s' =
        { s with
          dev := s.dev.fill call.slot call.packet
          calls
          accepted := s.accepted ++ [(call.slot, call.packet)] }) := by
    intro thread call hrunning hs'
    rw [proceed] at hs'
    split at hs'
    · next hdone => exact .inr ⟨call, hrunning, hdone, _, hs'⟩
    · next hbusy =>
      refine .inl ⟨fun call' hcall' => ?_, _, hs'⟩
      obtain rfl := Option.some.inj (hrunning.symm.trans hcall')
      exact hbusy
  cases e with
  | call thread packet =>
    rw [next] at h
    split at h
    · cases h
    · split at h
      · next hlarge =>
        have hnone : s.running (.call thread packet) = none := dif_neg (not_le.mpr hlarge)
        refine .inl ⟨fun call hcall => ?_, s.calls, (Option.some.inj h).symm⟩
        rw [hnone] at hcall
        cases hcall
      · next hsmall =>
        have hrunning : s.running (.call thread packet) = some ⟨s.dev.tdt, packet, not_lt.mp hsmall⟩ :=
          dif_pos (not_lt.mp hsmall)
        rcases hproceed thread _ hrunning (Option.some.inj h).symm with hquiet | hfill
        · exact .inl hquiet
        · exact .inr (.inl hfill)
  | resume thread =>
    obtain ⟨call, hcall, hs'⟩ := Option.map_eq_some_iff.mp h
    rcases hproceed thread call hcall hs'.symm with hquiet | hfill
    · exact .inl hquiet
    · exact .inr (.inl hfill)
  | take =>
    rw [next] at h
    split at h
    · cases h
    · next hne => exact .inr (.inr (.inl ⟨rfl, hne, (Option.some.inj h).symm⟩))
  | complete slot =>
    rw [next] at h
    split at h
    · next hmem => exact .inr (.inr (.inr ⟨rfl, slot, hmem, (Option.some.inj h).symm⟩))
    · cases h

theorem length_unsent : s.unsent.length = s.taken.length + s.dev.visible.length := by
  rw [unsent, List.length_map, unsentSlots, List.length_append]

theorem map_content_congr {dev : E1000} {slots : List TxSlot}
    (h : ∀ slot ∈ slots, dev.content slot = s.dev.content slot) :
    slots.map (fun slot => (slot, dev.content slot)) =
      slots.map fun slot => (slot, s.dev.content slot) := by
  apply List.map_congr_left
  intro slot hslot
  rw [h slot hslot]

/-- What is to be sent once more when a packet is put at the tail. -/
theorem Transmits.fill (htransmits : s.Transmits) (hbusy : s.Busy) {calls : ℕ → Option TxCall}
    (hdone : (s.dev.txDescs call.slot).dd) (hslot : call.slot = s.dev.tdt)
    (hroom : s.dev.tdt + 1 ≠ s.dev.tdh)
    (hs' : s' =
      { s with
        dev := s.dev.fill call.slot call.packet
        calls
        accepted := s.accepted ++ [(call.slot, call.packet)] }) : s'.Transmits ∧ s'.Busy := by
  obtain ⟨slot, packet, hsmall⟩ := call
  obtain rfl : slot = s.dev.tdt := hslot
  have hfresh : s.dev.tdt ∉ s.unsentSlots := fun hmem => hbusy _ hmem hdone
  have hslots : s'.unsentSlots.Perm (s.unsentSlots ++ [s.dev.tdt]) := by
    rw [hs', unsentSlots, unsentSlots, List.append_assoc]
    exact (visible_fill hroom).append_left _
  have hother : ∀ slot ∈ s.unsentSlots, slot ≠ s.dev.tdt := fun slot hmem heq => hfresh (heq ▸ hmem)
  have hunsent : s'.unsent.Perm (s.unsent ++ [(s.dev.tdt, packet)]) := by
    have hmapped := hslots.map fun slot => (slot, s'.dev.content slot)
    have hold := @map_content_congr s s'.dev s.unsentSlots fun slot hmem => by
      rw [hs']
      exact E1000.content_fill_of_ne (hother slot hmem)
    have hnew : s'.dev.content s.dev.tdt = packet := by
      rw [hs']
      exact E1000.content_fill hsmall
    rw [List.map_append, hold, List.map_singleton, hnew] at hmapped
    exact hmapped
  refine ⟨⟨?_, ?_⟩, ?_⟩
  · have haccepted : s'.accepted = s.accepted ++ [(s.dev.tdt, packet)] := by rw [hs']
    have hsent : s'.sent = s.sent := by rw [hs']
    rw [haccepted, hsent]
    have hbefore := htransmits.packets.append_right [(s.dev.tdt, packet)]
    rw [List.append_assoc] at hbefore
    exact hbefore.trans (hunsent.symm.append_left _)
  · apply hslots.nodup_iff.mpr
    exact htransmits.slots.append (List.nodup_singleton _) (List.disjoint_singleton.mpr hfresh)
  · intro slot hmem
    rw [hs']
    rcases List.mem_append.mp (hslots.mem_iff.mp hmem) with hold | hnew
    · have hkept := @E1000.dd_fill_of_ne s.dev s.dev.tdt slot packet (hother slot hold)
      exact fun hdd => hbusy slot hold (hkept.mp hdd)
    · obtain rfl := List.mem_singleton.mp hnew
      exact E1000.dd_fill

/-- The card takes a descriptor. -/
theorem Transmits.take (htransmits : s.Transmits) (hbusy : s.Busy) (hne : s.dev.tdh ≠ s.dev.tdt)
    (hs' : s' =
      { s with dev := { s.dev with tdh := s.dev.tdh + 1 }, taken := s.taken ++ [s.dev.tdh] }) :
    s'.Transmits ∧ s'.Busy := by
  have hslots : s.unsentSlots.Perm s'.unsentSlots := by
    rw [hs', unsentSlots, unsentSlots, List.append_assoc]
    exact (visible_head hne).append_left _
  have hunsent : s.unsent.Perm s'.unsent := by
    have hmapped := hslots.map fun slot => (slot, s.dev.content slot)
    rw [hs'] at hmapped ⊢
    exact hmapped
  refine ⟨⟨?_, hslots.nodup_iff.mp htransmits.slots⟩, fun slot hmem => ?_⟩
  · have hpackets := htransmits.packets.trans (hunsent.append_left _)
    rw [hs'] at hpackets ⊢
    exact hpackets
  · have hdesc := hbusy slot (hslots.mem_iff.mpr hmem)
    rw [hs']
    exact hdesc

/-- The card has sent a packet. -/
theorem Transmits.complete (htransmits : s.Transmits) (hbusy : s.Busy) {slot : TxSlot}
    (hmem : slot ∈ s.taken)
    (hs' : s' =
      { s with
        dev := s.dev.setDone slot
        taken := s.taken.erase slot
        sent := s.sent ++ [(slot, s.dev.content slot)] }) : s'.Transmits ∧ s'.Busy := by
  have hslots : s.unsentSlots.Perm (slot :: s'.unsentSlots) := by
    rw [hs', unsentSlots, unsentSlots, ← List.cons_append]
    exact (List.perm_cons_erase hmem).append_right _
  have hnodup := hslots.nodup_iff.mp htransmits.slots
  have hunsent : s.unsent.Perm ((slot, s.dev.content slot) :: s'.unsent) := by
    have hmapped := hslots.map fun slot => (slot, s.dev.content slot)
    have hold := @map_content_congr s s'.dev s'.unsentSlots fun other _ => by
      rw [hs']
      exact E1000.content_setDone
    rw [List.map_cons, ← hold] at hmapped
    exact hmapped
  refine ⟨⟨?_, (List.nodup_cons.mp hnodup).2⟩, fun other hother => ?_⟩
  · have hpackets := htransmits.packets.trans (hunsent.append_left _)
    rw [List.append_cons] at hpackets
    have hsent : s'.sent = s.sent ++ [(slot, s.dev.content slot)] := by rw [hs']
    have haccepted : s'.accepted = s.accepted := by rw [hs']
    rw [haccepted, hsent]
    exact hpackets
  · have hne : other ≠ slot := fun heq => (List.nodup_cons.mp hnodup).1 (heq ▸ hother)
    have hdesc := hbusy other (hslots.mem_iff.mpr (List.mem_cons_of_mem _ hother))
    rw [hs']
    exact fun hdd => hdesc ((E1000.dd_setDone_of_ne hne).mp hdd)

/-- The step lemma. -/
theorem Transmits.step (htransmits : s.Transmits) (hbusy : s.Busy) (hroom : s.Room e)
    (hstep : s.next e = some s') : s'.Transmits ∧ s'.Busy := by
  rcases next_cases hstep with ⟨-, calls, rfl⟩ | ⟨call, hcall, hdone, calls, hs'⟩ |
    ⟨-, hne, hs'⟩ | ⟨-, slot, hmem, hs'⟩
  · exact ⟨⟨htransmits.packets, htransmits.slots⟩, hbusy⟩
  · obtain ⟨hslot, hne⟩ := hroom call hcall hdone
    exact htransmits.fill hbusy hdone hslot hne hs'
  · exact htransmits.take hbusy hne hs'
  · exact htransmits.complete hbusy hmem hs'

/-- A step that loses nothing has room: it makes one more packet visible. -/
theorem Transmits.room (htransmits : s.Transmits) (hstep : s.next e = some s')
    (hafter : s'.Transmits) : s.Room e := by
  intro call hcall hdone
  rcases next_cases hstep with ⟨hbusy, -⟩ | ⟨call', hcall', -, calls, hs'⟩ | ⟨hnone, -⟩ |
    ⟨hnone, -⟩
  · exact absurd hdone (hbusy call hcall)
  · obtain rfl := Option.some.inj (hcall.symm.trans hcall')
    refine @eq_tdt_of_length_visible s.dev call.slot call.packet ?_
    have hbefore := htransmits.packets.length_eq
    have hnow := hafter.packets.length_eq
    rw [List.length_append, length_unsent] at hbefore hnow
    rw [hs'] at hnow
    dsimp only at hnow
    rw [List.length_append, List.length_singleton] at hnow
    omega
  · rw [hnone] at hcall
    cases hcall
  · rw [hnone] at hcall
    cases hcall

/-- The run lemma. -/
theorem transmits_busy_of_reachableUnder (h : txSystem.ReachableUnder Room s) :
    s.Transmits ∧ s.Busy := by
  apply h.invariant
  · rintro s₀ ⟨⟨-, hhead, htail⟩, -, htaken, haccepted, hsent⟩
    have hvisible : s₀.dev.visible = [] := by
      apply List.eq_nil_of_length_eq_zero
      rw [length_visible, hhead, htail]
      rfl
    have hslots : s₀.unsentSlots = [] := by rw [unsentSlots, htaken, hvisible, List.append_nil]
    refine ⟨⟨?_, ?_⟩, ?_⟩
    · rw [haccepted, hsent, unsent, hslots]
      rfl
    · rw [hslots]
      exact List.nodup_nil
    · intro slot hmem
      rw [hslots] at hmem
      cases hmem
  · rintro s₀ e s₁ ⟨htransmits, hbusy⟩ hroom hstep
    exact htransmits.step hbusy hroom hstep

end Transmitter

/-- In every run whose steps all have room, every packet is transmitted; and in any state of such a
run, a step transmits every packet exactly when it has room. -/
theorem transmits_iff_room {s : Transmitter} (h : txSystem.ReachableUnder Transmitter.Room s) :
    s.Transmits ∧ ∀ e s', txSystem.step s e s' → (s'.Transmits ↔ s.Room e) := by
  obtain ⟨htransmits, hbusy⟩ := Transmitter.transmits_busy_of_reachableUnder h
  refine ⟨htransmits, fun e s' hstep => ⟨fun hafter => ?_, fun hroom => ?_⟩⟩
  · exact htransmits.room hstep hafter
  · exact (htransmits.step hbusy hroom hstep).1

/-! ### Runs of one thread -/

/-- An attached ring whose buffers are zeroed. -/
def attachedTransmitter : Transmitter :=
  ⟨⟨fun _ => ⟨0, txCmd, 1⟩, fun _ => List.replicate 4096 0, 0, 0⟩, fun _ => none, [], [], []⟩

theorem init_attachedTransmitter : txSystem.init attachedTransmitter :=
  ⟨⟨fun _ => rfl, rfl, rfl⟩, rfl, rfl, rfl, rfl⟩

/-- It has accepted a packet. -/
def filledTransmitter : Transmitter := attachedTransmitter.proceed 0 ⟨0, [1#8], by decide⟩

theorem room_attachedTransmitter : attachedTransmitter.Room (.call 0 [1#8]) := by
  intro call hcall _
  obtain rfl := Option.some.inj hcall
  exact ⟨rfl, by decide⟩

theorem transmits_iff_room_filled :
    filledTransmitter.Transmits ∧ ∀ e s', txSystem.step filledTransmitter e s' →
      (s'.Transmits ↔ filledTransmitter.Room e) := by
  apply transmits_iff_room
  have hattached : txSystem.ReachableUnder Transmitter.Room attachedTransmitter :=
    .init init_attachedTransmitter
  exact hattached.step room_attachedTransmitter rfl

/-- A thread sends eight packets before the card takes one. -/
theorem not_transmits : ¬ ∀ s, txSystem.Reachable s → s.Transmits := by
  intro hall
  have hrun : ∃ s, txSystem.Reachable s ∧ s.accepted.length ≠ s.sent.length + s.unsent.length := by
    apply System.exists_reachableUnder Transmitter.next
      (List.replicate 8 (.call 0 [1#8])) (fun _ e _ h => ⟨e, trivial, h⟩) init_attachedTransmitter
    rfl
  obtain ⟨s, hreachable, hlength⟩ := hrun
  apply hlength
  rw [← List.length_append]
  exact (hall s hreachable).packets.length_eq

end KyroOS.Net

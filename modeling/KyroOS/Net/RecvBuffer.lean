import KyroOS.Lib.Transition
import KyroOS.Net.UdpRoundTrip

/-!
# The receive buffer as a queue

Datagrams are copied to the buffer of a socket at index `recv_data_len`, and `sock_recv` takes bytes
from index `recv_read_idx` on. The two agree on where the bytes are as long as `recv_read_idx` is 0.

## Main definitions

* `UdpData.buffered` — the bytes in a buffer
* `SocketIs` — the socket at an address
* `History`, `system` — a socket with what it accepted and what was received from it
* `Refines` — the buffer holds what was accepted and not received
* `InOrder` — no bytes are accepted behind bytes that were partly received

## Main results

* `refines_of_inOrder` — the buffer is a queue over every run of such steps
-/

namespace KyroOS.Net

/-! ### The buffer -/

namespace UdpData

variable {u : UdpData} {data : List Byte} {len : ℕ}

/-- The bytes that are still buffered. -/
def buffered (u : UdpData) : List Byte := bytesAt u.recvBuffer u.recvReadIdx u.recvDataLen

/-- Bytes that are appended follow the ones before, when these start at index 0. -/
theorem buffered_append (h : u.recvReadIdx = 0) :
    (u.append data).buffered = u.buffered ++ data := by
  have hold : bytesAt (u.append data).recvBuffer 0 u.recvDataLen =
      bytesAt u.recvBuffer 0 u.recvDataLen := by
    apply bytesAt_congr
    intro i hi
    have hno : ¬ (u.recvDataLen ≤ 0 + i ∧ 0 + i < u.recvDataLen + data.length) := by omega
    exact if_neg hno
  have hnew : Contains (u.append data).recvBuffer (0 + u.recvDataLen) data := by
    intro i hi
    have hin : u.recvDataLen ≤ 0 + u.recvDataLen + i ∧
        0 + u.recvDataLen + i < u.recvDataLen + data.length := by omega
    refine (if_pos hin).trans ?_
    rw [Nat.zero_add, Nat.add_sub_cancel_left, List.getD_eq_getElem?_getD,
      List.getElem?_eq_getElem hi]
    rfl
  calc (u.append data).buffered
      = bytesAt (u.append data).recvBuffer 0 (u.recvDataLen + data.length) := by
        rw [buffered, append, h]
    _ = bytesAt u.recvBuffer 0 u.recvDataLen ++ data := by
        rw [bytesAt_add, hold, hnew.bytesAt_eq]
    _ = u.buffered ++ data := by rw [buffered, h]

theorem append_nil : u.append [] = u := by
  have hnone : ∀ i, ¬ (u.recvDataLen ≤ i ∧ i < u.recvDataLen) := fun i hi => by omega
  simp [append, hnone]

/-- What a call takes is the front of what is buffered. -/
theorem taken_append_buffered : u.taken len ++ (u.take len).buffered = u.buffered := by
  by_cases hall : u.recvDataLen ≤ len
  · have hrest : (u.take len).recvDataLen = 0 := by simp [take, hall]
    have hnone : (u.take len).buffered = [] := by simp [buffered, bytesAt, hrest]
    rw [hnone, List.append_nil, taken, min_eq_right hall]
    rfl
  · have hle : len ≤ u.recvDataLen := by omega
    have hrest : u.recvDataLen - len ≠ 0 := by omega
    have hsum : u.recvDataLen = len + (u.recvDataLen - len) := by omega
    rw [taken, take, buffered, buffered]
    simp only [min_eq_left hle, hrest, if_false]
    rw [hsum, bytesAt_add, Nat.add_sub_cancel_left]

/-- Taking bytes keeps the indices inside of the buffer. -/
theorem take_le (h : u.recvReadIdx + u.recvDataLen ≤ u.recvBufferSize) :
    (u.take len).recvReadIdx + (u.take len).recvDataLen ≤ (u.take len).recvBufferSize := by
  simp only [take]
  split <;> omega

end UdpData

/-! ### The socket at an address -/

/-- The socket at an address, and no other has it. -/
structure SocketIs (h : Host) (address : Word) (s : Socket) : Prop where
  socketAt : h.socketAt address = some s
  unique : ∀ s' ∈ h.activeSockets, s'.address = address → s' = s

/-- The datagram with its header at `udpHdr` comes to the socket and is not dropped. -/
def Takes (h : Host) (address : Word) (m : Memory) (udpHdr : ℕ) (len : Word) : Prop :=
  ¬ (bswap16 (load16 m (udpHdr + 2)) = 68#16 ∨ bswap16 (load16 m (udpHdr + 2)) = 67#16) ∧
    HasRoom h address (load16 m (udpHdr + 2)) len.toNat

section

variable {alloc : ℕ → Bool} {h h' : Host} {address : Word} {s : Socket} {m : Memory}
  {udpHdr data : ℕ} {len : Word}

theorem SocketIs.address_eq (hs : SocketIs h address s) : s.address = address :=
  address_of_socketAt hs.socketAt

theorem SocketIs.congr (hs : SocketIs h address s) (hsockets : h'.activeSockets = h.activeSockets) :
    SocketIs h' address s := by
  refine ⟨?_, ?_⟩
  · rw [Host.socketAt, hsockets]
    exact hs.socketAt
  · rw [hsockets]
    exact hs.unique

theorem SocketIs.setSocket (hs : SocketIs h address s) (address' : Word) (f : Socket → Socket)
    (hf : ∀ s, (f s).address = s.address) :
    SocketIs (h.setSocket address' f) address (if s.address = address' then f s else s) := by
  refine ⟨?_, ?_⟩
  · rw [socketAt_setSocket f hf, hs.socketAt]
    rfl
  · intro s' hmem haddress
    obtain ⟨s₀, hmem₀, rfl⟩ := List.mem_map.mp hmem
    have hkept : (if s₀.address = address' then f s₀ else s₀).address = s₀.address := by
      split
      · exact hf s₀
      · rfl
    rw [hs.unique s₀ hmem₀ (hkept.symm.trans haddress)]

theorem SocketIs.deliver (hs : SocketIs h address s) (s' : Socket) (bytes : List Byte) :
    SocketIs (h.deliver s' bytes) address (if s.address = s'.address then
      { s with udpData := s.udpData.append bytes, waitingThread := 0 } else s) := by
  have hwoken : SocketIs (h.wake s'.waitingThread) address s := hs.congr (wake_activeSockets _)
  exact hwoken.setSocket _ _ fun _ => rfl

/-- A datagram that is not dropped is appended. -/
theorem SocketIs.handler_of_takes (hs : SocketIs h address s) (htakes : Takes h address m udpHdr len) :
    SocketIs (sockUdpReceivePacketHandler alloc h m udpHdr data len).value address
      { s with udpData := s.udpData.append (bytesAt m data len.toNat), waitingThread := 0 } := by
  obtain ⟨hdhcp, s', hfound, haddress, hroom⟩ := htakes
  have hsame := hs.unique s' (bound_of_findBound h hfound).1 haddress
  subst hsame
  have hdelivered := hs.deliver s' (bytesAt m data len.toNat)
  rw [if_pos rfl] at hdelivered
  rw [sockUdpReceivePacketHandler_value]
  simp only [hdhcp, if_false, hfound, not_lt.mpr hroom]
  exact hdelivered

/-- Any other leaves the socket as it is. -/
theorem SocketIs.handler_of_not_takes (hs : SocketIs h address s)
    (htakes : ¬ Takes h address m udpHdr len) :
    SocketIs (sockUdpReceivePacketHandler alloc h m udpHdr data len).value address s := by
  rw [sockUdpReceivePacketHandler_value]
  dsimp only
  split
  · exact hs.congr (dhcpHandlePacket_keeps Host.activeSockets fun _ _ _ _ _ _ => rfl)
  · next hdhcp =>
    cases hfound : h.findBound (load16 m (udpHdr + 2)) with
    | none => exact hs
    | some s' =>
      dsimp only
      split
      · exact hs
      · next hroom =>
        have hother : s.address ≠ s'.address := fun heq =>
          htakes ⟨hdhcp, s', hfound, heq.symm.trans hs.address_eq, not_lt.mp hroom⟩
        have hdelivered := hs.deliver s' (bytesAt m data len.toNat)
        rwa [if_neg hother] at hdelivered

/-- A call of `sock_recv` is refused, or takes bytes from the buffer. -/
theorem sockRecv_cases (hs : SocketIs h address s) (len : ℕ) :
    ((sockRecv h address len).2.2 = [] ∧ SocketIs (sockRecv h address len).1 address s) ∨
      ((sockRecv h address len).2.2 = s.udpData.taken len ∧
        SocketIs (sockRecv h address len).1 address { s with udpData := s.udpData.take len }) := by
  unfold sockRecv
  rw [hs.socketAt]
  dsimp only
  split
  · exact .inl ⟨rfl, hs⟩
  · split
    · split
      · exact .inl ⟨rfl, hs⟩
      · have htaken := hs.setSocket address
          (fun s => { s with udpData := s.udpData.take len }) fun _ => rfl
        rw [if_pos hs.address_eq] at htaken
        exact .inr ⟨rfl, htaken⟩
    · exact .inl ⟨rfl, hs⟩

end

/-! ### Histories -/

/-- A host with what a socket of it accepted and what was received from it. -/
structure History where
  host : Host
  accepted : List Byte
  returned : List Byte

namespace History

/-- What happens at a socket. -/
inductive Event
  /-- A datagram comes, to this or to another socket. -/
  | arrival (alloc : ℕ → Bool) (m : Memory) (udpHdr data : ℕ) (len : Word)
  /-- A call of `sock_recv` with room for `len` bytes comes to its end. -/
  | recv (len : ℕ)

/-- The steps at the socket at an address. A call of `sock_recv` waits until there is data. -/
inductive Step (address : Word) (r : History) : Event → History → Prop
  | taken {alloc m udpHdr data len} (htakes : Takes r.host address m udpHdr len) :
      Step address r (.arrival alloc m udpHdr data len)
        ⟨(sockUdpReceivePacketHandler alloc r.host m udpHdr data len).value,
          r.accepted ++ bytesAt m data len.toNat, r.returned⟩
  | dropped {alloc m udpHdr data len} (htakes : ¬ Takes r.host address m udpHdr len) :
      Step address r (.arrival alloc m udpHdr data len)
        ⟨(sockUdpReceivePacketHandler alloc r.host m udpHdr data len).value, r.accepted, r.returned⟩
  | recv {len s} (hs : r.host.socketAt address = some s) (hdata : s.udpData.recvDataLen ≠ 0) :
      Step address r (.recv len)
        ⟨(sockRecv r.host address len).1, r.accepted, r.returned ++ (sockRecv r.host address len).2.2⟩

/-- The runs of a socket whose buffer is empty at first. -/
def system (address : Word) : Transition.System History Event where
  init r := r.accepted = [] ∧ r.returned = [] ∧ ∃ s, SocketIs r.host address s ∧
    s.udpData.recvDataLen = 0 ∧ s.udpData.recvReadIdx = 0
  step := Step address

/-- What was received and what is still buffered are the accepted payloads, and the buffered bytes are
inside of the buffer. -/
def Refines (address : Word) (r : History) : Prop :=
  ∃ s, SocketIs r.host address s ∧ r.returned ++ s.udpData.buffered = r.accepted ∧
    s.udpData.recvReadIdx + s.udpData.recvDataLen ≤ s.udpData.recvBufferSize

/-- No bytes are accepted while the bytes in the buffer start behind index 0. -/
def InOrder (address : Word) (r : History) : Event → Prop
  | .arrival _ m udpHdr _ len => Takes r.host address m udpHdr len → 0 < len.toNat →
      ∀ s, r.host.socketAt address = some s → s.udpData.recvReadIdx = 0
  | .recv _ => True

section

variable {address : Word} {r r' : History} {e : Event}

theorem Refines.step (h : Refines address r) (horder : InOrder address r e)
    (hstep : Step address r e r') : Refines address r' := by
  obtain ⟨s, hs, hqueue, hsize⟩ := h
  cases hstep with
  | @taken alloc m udpHdr data len htakes =>
    refine ⟨_, hs.handler_of_takes htakes, ?_⟩
    obtain ⟨-, s', hfound, haddress, hroom⟩ := id htakes
    have hsame := hs.unique s' (bound_of_findBound _ hfound).1 haddress
    subst hsame
    by_cases hpos : 0 < len.toNat
    · have hidx := horder htakes hpos s' hs.socketAt
      refine ⟨?_, ?_⟩
      · rw [UdpData.buffered_append hidx, ← List.append_assoc, hqueue]
      · simp only [UdpData.append, UdpData.spaceAvailable, length_bytesAt] at hroom ⊢
        omega
    · -- an empty datagram changes nothing
      have hnil : bytesAt m data len.toNat = [] := by
        rw [Nat.eq_zero_of_not_pos hpos]
        rfl
      rw [hnil, UdpData.append_nil, List.append_nil]
      exact ⟨hqueue, hsize⟩
  | dropped htakes => exact ⟨s, hs.handler_of_not_takes htakes, hqueue, hsize⟩
  | @recv len =>
    obtain ⟨hbytes, hs'⟩ | ⟨hbytes, hs'⟩ := sockRecv_cases hs len
    · refine ⟨s, hs', ?_, hsize⟩
      rw [hbytes, List.append_nil]
      exact hqueue
    · refine ⟨_, hs', ?_, UdpData.take_le hsize⟩
      rw [hbytes, List.append_assoc, UdpData.taken_append_buffered]
      exact hqueue

/-- The buffer is a queue over every run in which no bytes are accepted behind bytes that were partly
received. -/
theorem refines_of_inOrder (h : (system address).ReachableUnder (InOrder address) r) :
    Refines address r := by
  refine h.invariant ?_ fun _ _ _ hrefines horder hstep => hrefines.step horder hstep
  rintro r₀ ⟨haccepted, hreturned, s, hs, hlen, hidx⟩
  refine ⟨s, hs, ?_, by omega⟩
  rw [haccepted, hreturned, UdpData.buffered, hlen]
  rfl

end

/-! ### A socket with one datagram, and with another one behind it -/

/-- A host with a socket for port 7 and an empty buffer. -/
def start : History := ⟨boundHost 7#16 (freshHost secondMac 0), [], []⟩

/-- A datagram for that port. -/
def letter (data : List Byte) : Memory := ofBytes (udpDatagram 9#16 7#16 data)

/-- The histories after a datagram, and after a call. -/
def arrive (r : History) (data : List Byte) : History :=
  ⟨(sockUdpReceivePacketHandler (fun _ => true) r.host (letter data) 0 8
      (BitVec.ofNat 64 data.length)).value,
    r.accepted ++ bytesAt (letter data) 8 (BitVec.ofNat 64 data.length).toNat, r.returned⟩

def receive (r : History) (len : ℕ) : History :=
  ⟨(sockRecv r.host 0x1000#64 len).1, r.accepted,
    r.returned ++ (sockRecv r.host 0x1000#64 len).2.2⟩

theorem init_start : (system 0x1000#64).init start := by
  refine ⟨rfl, rfl, _, ⟨rfl, ?_⟩, rfl, rfl⟩
  intro s hmem _
  exact List.mem_singleton.mp hmem

theorem step_arrive {r : History} {data : List Byte}
    (htakes : Takes r.host 0x1000#64 (letter data) 0 (BitVec.ofNat 64 data.length)) :
    Step 0x1000#64 r (.arrival (fun _ => true) (letter data) 0 8 (BitVec.ofNat 64 data.length))
      (r.arrive data) :=
  .taken htakes

theorem step_first : Step 0x1000#64 start
    (.arrival (fun _ => true) (letter [1, 2, 3]) 0 8 3) (start.arrive [1, 2, 3]) :=
  step_arrive ⟨by decide, _, rfl, rfl, by decide⟩

theorem step_receive : Step 0x1000#64 (start.arrive [1, 2, 3]) (.recv 1)
    ((start.arrive [1, 2, 3]).receive 1) :=
  .recv rfl (by decide)

/-- A datagram of three bytes, of which one is received. -/
theorem refines_of_inOrder_receive : Refines 0x1000#64 ((start.arrive [1, 2, 3]).receive 1) := by
  have horder : InOrder 0x1000#64 start (.arrival (fun _ => true) (letter [1, 2, 3]) 0 8 3) := by
    intro _ _ s hs
    obtain rfl := Option.some.inj hs
    rfl
  have hfirst := (Transition.System.ReachableUnder.init init_start).step horder step_first
  have horder' : InOrder 0x1000#64 (start.arrive [1, 2, 3]) (.recv 1) := trivial
  exact refines_of_inOrder (hfirst.step horder' step_receive)

/-- The bytes of a second datagram are stored over bytes of the first one, and are not received. -/
theorem not_refines : ∃ r, (system 0x1000#64).Reachable r ∧ ¬ Refines 0x1000#64 r := by
  have hstart : (system 0x1000#64).Reachable start := .init init_start
  have hreceived := (hstart.step trivial step_first).step trivial step_receive
  have hsecond : Step 0x1000#64 ((start.arrive [1, 2, 3]).receive 1)
      (.arrival (fun _ => true) (letter [4]) 0 8 1) (((start.arrive [1, 2, 3]).receive 1).arrive [4]) :=
    step_arrive ⟨by decide, _, rfl, rfl, by decide⟩
  refine ⟨_, hreceived.step trivial hsecond, ?_⟩
  rintro ⟨s, hs, hqueue, -⟩
  have hbuffered : ((((start.arrive [1, 2, 3]).receive 1).arrive [4]).host.socketAt 0x1000#64).map
      (fun s => s.udpData.buffered) = some [2, 4, 0] := rfl
  rw [hs.socketAt, Option.map_some] at hbuffered
  rw [Option.some.inj hbuffered] at hqueue
  exact absurd hqueue (by decide)

end History

end KyroOS.Net

import KyroOS.Net.Socket

/-!
# Receiving frames

The interrupt handler of the network device gives each frame to ARP or to IP, and IP gives its
payload to ICMP or to the sockets.

## Main definitions

* `icmpHandlePacket`, `ipHandlePacket`, `e1000Receive` — the receive path
* `IpAccepts` — a packet passes the tests of `ip_handle_packet`

## Main results

* `ipHandlePacket_of_accepts`, `ipHandlePacket_of_not_accepts` — what is done with a packet
* `read_protocol_iff` — the packets whose protocol is read
-/

namespace KyroOS.Net

/-! ### ICMP -/

/-- The reply to an echo request: the same bytes under another type and with a new checksum. -/
def echoReply (request : List Byte) : List Byte :=
  let cleared := ((request.set 0 0).set 2 0).set 3 0
  let sum := ipChecksum (ofBytes cleared) 0 cleared.length
  (cleared.set 2 (sum.extractLsb' 0 8)).set 3 (sum.extractLsb' 8 8)

section

variable (alloc : ℕ → Bool) (h : Host) (m : Memory)

/-- `icmp_handle_packet` -/
def icmpHandlePacket (ipHdr payload : ℕ) (payloadSize : Word) : Rx Host := do
  if payloadSize < 8#64 then return h
  let sum ← Rx.checksum m payload payloadSize.toNat
  if sum ≠ 0#16 then return h
  let type ← Rx.load8 m payload
  if type = 8#8 then
    if alloc payloadSize.toNat then
      let request ← Rx.copy m payload payloadSize.toNat
      let srcIp := bswap32 (← Rx.load32 m (ipHdr + 12))
      return ipSendPacket alloc h srcIp ipProtocolIcmp (echoReply request)
    else return h
  else return h

/-! ### IP -/

/-- `ihl` -/
def ihl (m : Memory) (p : ℕ) : BitVec 4 := (m p).extractLsb' 0 4

/-- `version` -/
def version (m : Memory) (p : ℕ) : BitVec 4 := (m p).extractLsb' 4 4

/-- `ip_hdr->ihl * 4` -/
def ipHdrLen (m : Memory) (p : ℕ) : Word := (ihl m p).setWidth 64 * 4

/-- The dispatch of `ip_handle_packet` on the protocol. The handler for ICMP is the one that
`ip_init` registers. -/
def ipDispatch (p : ℕ) (protocol : Byte) (payloadSize : Word) : Rx Host := do
  let payload := p + (ipHdrLen m p).toNat
  if protocol = ipProtocolIcmp then
    Rx.pass .icmpHandlePacket payload payloadSize
    icmpHandlePacket alloc h m p payload payloadSize
  else if protocol = ipProtocolUdp ∨ protocol = ipProtocolTcp then
    Rx.pass .sockHandleIncomingPacket payload payloadSize
    sockHandleIncomingPacket alloc h m payload payloadSize protocol
  else return h

/-- `ip_handle_packet` -/
def ipHandlePacket (p : ℕ) (size : Word) : Rx Host := do
  if size < 20#64 then return h
  let _ ← Rx.load8 m p
  if version m p ≠ 4#4 then return h
  if ihl m p < 5#4 then return h
  let sum ← Rx.checksum m p (ipHdrLen m p).toNat
  if sum ≠ 0#16 then return h
  let destIp := bswap32 (← Rx.load32 m (p + 16))
  if destIp ≠ h.localIp ∧ destIp ≠ broadcastIp then return h
  let protocol ← Rx.load8 m (p + 9)
  let totalLength := bswap16 (← Rx.load16 m (p + 2))
  let payloadSize ← Rx.sub (totalLength.setWidth 64) (ipHdrLen m p)
  ipDispatch alloc h m p protocol payloadSize

/-! ### Frames -/

/-- `e1000_interrupt_handler` for one received frame. -/
def e1000Receive (length : BitVec 16) : Rx Host := do
  if length ≤ 14#16 then return h
  let etherType := bswap16 (← Rx.load16 m 12)
  if etherType = arpEtherType then
    let size ← Rx.sub (length.setWidth 64) 14
    Rx.pass .arpHandlePacket 14 size
    arpHandlePacket alloc h m 14 size
  else if etherType = ipv4EtherType then
    let size ← Rx.sub (length.setWidth 64) 14
    Rx.pass .ipHandlePacket 14 size
    ipHandlePacket alloc h m 14 size
  else return h

/-- What becomes of the host on a frame. -/
theorem e1000Receive_value (length : BitVec 16) : (e1000Receive alloc h m length).value =
    if length ≤ 14#16 then h
    else if bswap16 (load16 m 12) = arpEtherType then
      (arpHandlePacket alloc h m 14 (length.setWidth 64 - 14#64)).value
    else if bswap16 (load16 m 12) = ipv4EtherType then
      (ipHandlePacket alloc h m 14 (length.setWidth 64 - 14#64)).value
    else h := by
  unfold e1000Receive
  rw [Rx.value_ite]
  apply if_congr Iff.rfl rfl
  rw [Rx.value_bind, Rx.value_ite]
  apply if_congr Iff.rfl rfl
  exact Rx.value_ite _ _ _

/-- The size of what is behind the header of a frame. -/
theorem toNat_frameSize {length : BitVec 16} (hlen : 14 ≤ length.toNat) :
    (length.setWidth 64 - 14#64 : Word).toNat = length.toNat - 14 := by
  have hwidth : (length.setWidth 64 : Word).toNat = length.toNat :=
    BitVec.toNat_setWidth_of_le (by omega)
  have hle : 14#64 ≤ (length.setWidth 64 : Word) := by
    show 14 ≤ (length.setWidth 64 : Word).toNat
    omega
  rw [BitVec.toNat_sub_of_le hle, hwidth]
  rfl

end

/-! ### The tests on a packet -/

section

variable {alloc : ℕ → Bool} {h : Host} {m : Memory} {p : ℕ} {size : Word}

/-- The packet has a header of version 4 with its right checksum. -/
structure IpWellFormed (m : Memory) (p : ℕ) (size : Word) : Prop where
  size : 20#64 ≤ size
  version : version m p = 4#4
  ihl : 5#4 ≤ ihl m p
  checksum : ipChecksum m p (ipHdrLen m p).toNat = 0#16

/-- The destination of a packet. -/
def ipDest (m : Memory) (p : ℕ) : BitVec 32 := bswap32 (load32 m (p + 16))

/-- The packet passes the tests of `ip_handle_packet`. -/
def IpAccepts (h : Host) (m : Memory) (p : ℕ) (size : Word) : Prop :=
  IpWellFormed m p size ∧ (ipDest m p = h.localIp ∨ ipDest m p = broadcastIp)

/-- The size of the payload, by the field `total_length`. -/
def ipPayloadSize (m : Memory) (p : ℕ) : Word :=
  (bswap16 (load16 m (p + 2))).setWidth 64 - ipHdrLen m p

/-- A packet that passes the tests is dispatched. -/
theorem ipHandlePacket_of_accepts (haccepts : IpAccepts h m p size) :
    (ipHandlePacket alloc h m p size).value =
        (ipDispatch alloc h m p (m (p + 9)) (ipPayloadSize m p)).value ∧
      (ipHandlePacket alloc h m p size).notes =
        .read p 1 :: .read p (ipHdrLen m p).toNat :: .read (p + 16) 4 :: .read (p + 9) 1 ::
          .read (p + 2) 2 ::
          .sub ((bswap16 (load16 m (p + 2))).setWidth 64) (ipHdrLen m p) ::
          (ipDispatch alloc h m p (m (p + 9)) (ipPayloadSize m p)).notes := by
  obtain ⟨⟨hsize, hversion, hihl, hsum⟩, hdest⟩ := haccepts
  have hsize' : ¬ size < 20#64 := BitVec.not_lt.mpr hsize
  have hihl' : ¬ ihl m p < 5#4 := BitVec.not_lt.mpr hihl
  have hdest' : ¬ (bswap32 (load32 m (p + 16)) ≠ h.localIp ∧
      bswap32 (load32 m (p + 16)) ≠ broadcastIp) := by
    rw [← not_or, not_not]
    exact hdest
  constructor <;>
    simp only [ipHandlePacket, hsize', hversion, hihl', hsum, hdest', ne_eq, not_true_eq_false,
      if_false, ipPayloadSize, Rx.value_bind, Rx.notes_bind, Rx.value_load8, Rx.value_load16,
      Rx.value_load32, Rx.value_checksum, Rx.value_sub, Rx.notes_load8, Rx.notes_load16,
      Rx.notes_load32, Rx.notes_checksum, Rx.notes_sub, List.cons_append, List.nil_append]

/-- Other packets are dropped before their protocol is read. -/
theorem ipHandlePacket_of_not_accepts (haccepts : ¬ IpAccepts h m p size) :
    (ipHandlePacket alloc h m p size).value = h ∧
      .read (p + 9) 1 ∉ (ipHandlePacket alloc h m p size).notes := by
  unfold ipHandlePacket
  by_cases hsize : size < 20#64
  · simp [hsize]
  · by_cases hversion : version m p = 4#4
    · by_cases hihl : ihl m p < 5#4
      · simp [hsize, hversion, hihl]
      · by_cases hsum : ipChecksum m p (ipHdrLen m p).toNat = 0#16
        · -- only the destination is left
          have hwf : IpWellFormed m p size :=
            ⟨BitVec.not_lt.mp hsize, hversion, BitVec.not_lt.mp hihl, hsum⟩
          have hdest : bswap32 (load32 m (p + 16)) ≠ h.localIp ∧
              bswap32 (load32 m (p + 16)) ≠ broadcastIp :=
            not_or.mp fun hdest => haccepts ⟨hwf, hdest⟩
          simp [hsize, hversion, hihl, hsum, hdest]
        · simp [hsize, hversion, hihl, hsum]
    · simp [hsize, hversion]

/-- `ip_handle_packet` goes on to the protocol of the packets that pass its tests, and of no
others. -/
theorem read_protocol_iff :
    .read (p + 9) 1 ∈ (ipHandlePacket alloc h m p size).notes ↔ IpAccepts h m p size := by
  constructor
  · intro hread
    by_contra haccepts
    exact (ipHandlePacket_of_not_accepts haccepts).2 hread
  · intro haccepts
    rw [(ipHandlePacket_of_accepts haccepts).2]
    simp

end

end KyroOS.Net

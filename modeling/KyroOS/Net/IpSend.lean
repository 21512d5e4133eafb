import KyroOS.Net.Arp

/-!
# Sending IP packets and UDP datagrams

## Main definitions

* `ipv4Header`, `ipSendPacket` — IP
* `udpHeader`, `udpSendPacket` — UDP

## Main results

* `ipSendPacket_of_mac` — the frame that is sent to an address with a known MAC address
* `ipChecksum_ipv4Header` — its header has checksum 0
-/

namespace KyroOS.Net

def ipProtocolIcmp : Byte := 0x01#8
def ipProtocolTcp : Byte := 0x06#8
def ipProtocolUdp : Byte := 0x11#8

/-- The address of every host. -/
def broadcastIp : BitVec 32 := 0xFFFFFFFF#32

/-- `ipv4_header_t` without options, with the addresses as numbers of the host. The first byte holds
`ihl` in its low half and `version` in its high half; `dscp`, `ecn`, `flags` and `fragment_offset`
are 0. -/
def ipv4Header (totalLength : BitVec 16) (protocol : Byte) (checksum : BitVec 16)
    (srcIp destIp : BitVec 32) : List Byte :=
  [0x45#8, 0x00#8] ++ store16 (bswap16 totalLength) ++ store16 (bswap16 0x0001#16) ++
    [0x00#8, 0x00#8] ++ [64#8, protocol] ++ store16 checksum ++ store32 (bswap32 srcIp) ++
    store32 (bswap32 destIp)

@[simp] theorem length_ipv4Header (totalLength : BitVec 16) (protocol : Byte)
    (checksum : BitVec 16) (srcIp destIp : BitVec 32) :
    (ipv4Header totalLength protocol checksum srcIp destIp).length = 20 := by
  simp [ipv4Header]

/-- The packet of `ip_send_packet`: the checksum is taken of the header with 0 in its place. -/
def ipPacket (srcIp destIp : BitVec 32) (protocol : Byte) (payload : List Byte) : List Byte :=
  let totalLength := BitVec.ofNat 16 (20 + payload.length)
  let checksum := ipChecksum (ofBytes (ipv4Header totalLength protocol 0 srcIp destIp)) 0 20
  ipv4Header totalLength protocol checksum srcIp destIp ++ payload

@[simp] theorem length_ipPacket (srcIp destIp : BitVec 32) (protocol : Byte)
    (payload : List Byte) : (ipPacket srcIp destIp protocol payload).length = 20 + payload.length := by
  simp [ipPacket]

/-- The MAC address for a destination. -/
def destMac (h : Host) (destIp : BitVec 32) : Option Mac :=
  if destIp = broadcastIp then some .broadcast else arpLookupMac h.arpCache destIp

section

variable (alloc : ℕ → Bool) (h : Host)

/-- The frame with a packet. -/
def ipFrame (mac : Mac) (destIp : BitVec 32) (protocol : Byte) (payload : List Byte) : List Byte :=
  ethernetHeader mac h.macAddr ipv4EtherType ++ ipPacket h.localIp destIp protocol payload

@[simp] theorem length_ipFrame (mac : Mac) (destIp : BitVec 32) (protocol : Byte)
    (payload : List Byte) : (ipFrame h mac destIp protocol payload).length = 34 + payload.length := by
  simp [ipFrame]
  omega

/-- `ip_send_packet`. Without a MAC address for the destination it sends a request for one. -/
def ipSendPacket (destIp : BitVec 32) (protocol : Byte) (payload : List Byte) : Host :=
  match destMac h destIp with
  | none => arpSendRequest alloc h destIp
  | some mac =>
    if alloc (34 + payload.length) then h.sendPacket (ipFrame h mac destIp protocol payload) else h

theorem ipSendPacket_eq (destIp : BitVec 32) (protocol : Byte) (payload : List Byte) :
    ipSendPacket alloc h destIp protocol payload =
      { h with sent := (ipSendPacket alloc h destIp protocol payload).sent } := by
  unfold ipSendPacket
  cases destMac h destIp with
  | none => exact arpSendRequest_eq alloc h destIp
  | some mac =>
    dsimp only
    split
    · exact sendPacket_eq h _
    · rfl

/-- `udp_header_t`, with the ports and the length as numbers of the host. -/
def udpHeader (srcPort destPort length : BitVec 16) : List Byte :=
  store16 (bswap16 srcPort) ++ store16 (bswap16 destPort) ++ store16 (bswap16 length) ++ store16 0

@[simp] theorem length_udpHeader (srcPort destPort length : BitVec 16) :
    (udpHeader srcPort destPort length).length = 8 := by
  simp [udpHeader]

/-- The datagram of `udp_send_packet`. -/
def udpDatagram (srcPort destPort : BitVec 16) (data : List Byte) : List Byte :=
  udpHeader srcPort destPort (BitVec.ofNat 16 (8 + data.length)) ++ data

@[simp] theorem length_udpDatagram (srcPort destPort : BitVec 16) (data : List Byte) :
    (udpDatagram srcPort destPort data).length = 8 + data.length := by
  simp [udpDatagram]

/-- `udp_send_packet` -/
def udpSendPacket (destIp : BitVec 32) (srcPort destPort : BitVec 16) (data : List Byte) : Host :=
  if alloc (8 + data.length) then
    ipSendPacket alloc h destIp ipProtocolUdp (udpDatagram srcPort destPort data)
  else h

theorem udpSendPacket_eq (destIp : BitVec 32) (srcPort destPort : BitVec 16) (data : List Byte) :
    udpSendPacket alloc h destIp srcPort destPort data =
      { h with sent := (udpSendPacket alloc h destIp srcPort destPort data).sent } := by
  unfold udpSendPacket
  split
  · exact ipSendPacket_eq alloc h destIp _ _
  · rfl

end

/-! ### What is sent -/

section

variable {alloc : ℕ → Bool} {h : Host} {destIp srcIp : BitVec 32} {protocol : Byte}
  {payload : List Byte} {mac : Mac}

/-- A packet that fits is sent when the MAC address is known and the heap has the memory. -/
theorem ipSendPacket_of_mac (hmac : destMac h destIp = some mac)
    (halloc : alloc (34 + payload.length) = true) (hlen : payload.length ≤ 2014) :
    ipSendPacket alloc h destIp protocol payload =
      { h with sent := h.sent ++ [ipFrame h mac destIp protocol payload] } := by
  have hfits : ¬ 2048 < (ipFrame h mac destIp protocol payload).length := by
    rw [length_ipFrame]
    omega
  rw [ipSendPacket, hmac]
  simp only [halloc, if_true]
  rw [Host.sendPacket, if_neg hfits]

/-- The header of the packet passes the test on its checksum, wherever it stands. -/
theorem ipChecksum_ipv4Header {m : Memory} {p : ℕ}
    (hm : Contains m p (ipPacket srcIp destIp protocol payload)) : ipChecksum m p 20 = 0 := by
  obtain ⟨hheader, -⟩ := contains_append.mp hm
  have hsplit : ∀ checksum, ipv4Header (BitVec.ofNat 16 (20 + payload.length)) protocol checksum
      srcIp destIp = ([0x45#8, 0x00#8] ++
        store16 (bswap16 (BitVec.ofNat 16 (20 + payload.length))) ++ store16 (bswap16 0x0001#16) ++
          [0x00#8, 0x00#8] ++ [64#8, protocol]) ++ (store16 checksum ++
            (store32 (bswap32 srcIp) ++ store32 (bswap32 destIp))) := by
    intro checksum
    simp only [ipv4Header, List.append_assoc]
  rw [hsplit, hsplit] at hheader
  exact ipChecksum_filled (by simp) (by simp) (by omega) hheader

end

end KyroOS.Net

import KyroOS.Net.Receive

/-!
# From one host to another

## Main definitions

* `SendsIp` — a call hands a frame with an IP packet to the device
* `Arrives` — a packet stands in the memory of the host that receives it
* `Delivers` — its payload is given to the handler of its protocol

## Main results

* `ipHandlePacket_ipSendPacket` — a packet comes to the handler of its protocol as it was sent
-/

namespace KyroOS.Net

/-! ### Frames on the wire -/

/-- From `h` to `h'` the frame was handed to the device, and it holds an IP packet. -/
def SendsIp (h h' : Host) (frame : List Byte) : Prop :=
  h'.sent = h.sent ++ [frame] ∧ bswap16 (load16 (ofBytes frame) 12) = ipv4EtherType

/-- The type of a frame. -/
theorem etherType_eq {m : Memory} {p : ℕ} {dest src : Mac} {etherType : BitVec 16}
    (hm : Contains m p (ethernetHeader dest src etherType)) :
    bswap16 (load16 m (p + 12)) = etherType := by
  obtain ⟨-, htype⟩ := contains_append.mp hm
  rw [List.length_append, Mac.length_bytes, Mac.length_bytes] at htype
  rw [Contains.load16 htype, bswap16_bswap16]

section

variable {alloc : ℕ → Bool} {h h' : Host} {destIp : BitVec 32} {protocol : Byte}
  {payload frame : List Byte}

/-- When an IP packet is sent, its frame fits, and its MAC address and its memory were there. -/
theorem sendsIp_ipSendPacket
    (hsends : SendsIp h (ipSendPacket alloc h destIp protocol payload) frame) :
    payload.length ≤ 2014 ∧ alloc (34 + payload.length) = true ∧
      ∃ mac, destMac h destIp = some mac ∧ frame = ipFrame h mac destIp protocol payload := by
  obtain ⟨hsent, htype⟩ := hsends
  have hnone : ∀ frames : List (List Byte), frames ≠ frames ++ [frame] :=
    fun frames heq => by simpa using congrArg List.length heq
  unfold ipSendPacket at hsent
  cases hmac : destMac h destIp with
  | none =>
    -- what was sent is a request
    rw [hmac] at hsent
    simp only [arpSendRequest] at hsent
    split at hsent
    · rw [sendPacket_sent (by simp [arpRequestFrame])] at hsent
      obtain rfl := List.singleton_inj.mp (List.append_cancel_left hsent)
      obtain ⟨hheader, -⟩ := contains_append.mp (@contains_ofBytes (arpRequestFrame h destIp))
      have harp := etherType_eq hheader
      rw [Nat.zero_add] at harp
      exact absurd (harp.symm.trans htype) (by decide)
    · exact absurd hsent (hnone _)
  | some mac =>
    rw [hmac] at hsent
    simp only [Host.sendPacket] at hsent
    split at hsent
    · next halloc =>
      split at hsent
      · exact absurd hsent (hnone _)
      · next hfits =>
        rw [length_ipFrame] at hfits
        have hframe := List.singleton_inj.mp (List.append_cancel_left hsent)
        exact ⟨by omega, halloc, mac, rfl, hframe.symm⟩
    · exact absurd hsent (hnone _)

/-- The frame of an IP packet that was sent. -/
theorem frame_of_sendsIp (hsends : SendsIp h (ipSendPacket alloc h destIp protocol payload) frame) :
    payload.length ≤ 2014 ∧ ∃ mac, frame = ipFrame h mac destIp protocol payload := by
  obtain ⟨hfits, -, mac, -, hframe⟩ := sendsIp_ipSendPacket hsends
  exact ⟨hfits, mac, hframe⟩

end

/-! ### Packets that arrive -/

section

variable {m : Memory} {p : ℕ} {totalLength : BitVec 16} {protocol : Byte} {checksum : BitVec 16}
  {srcIp destIp : BitVec 32} {payload : List Byte} {size : Word}

/-- The fields of a header. -/
theorem fields_of_ipv4Header
    (hm : Contains m p (ipv4Header totalLength protocol checksum srcIp destIp)) :
    m p = 0x45#8 ∧ load16 m (p + 2) = bswap16 totalLength ∧ m (p + 9) = protocol ∧
      load32 m (p + 12) = bswap32 srcIp ∧ load32 m (p + 16) = bswap32 destIp := by
  simp only [ipv4Header, contains_append, contains_cons, List.length_append, List.length_cons,
    List.length_nil, length_store16, length_store32, Nat.add_assoc, Nat.reduceAdd] at hm
  obtain ⟨⟨⟨⟨⟨⟨⟨⟨hfirst, -⟩, hlength⟩, -⟩, -⟩, -, hprotocol, -⟩, -⟩, hsrc⟩, hdest⟩ := hm
  exact ⟨hfirst, hlength.load16, hprotocol, hsrc.load32, hdest.load32⟩

/-- A packet that arrives whole, and perhaps padded. -/
structure Arrives (m : Memory) (p : ℕ) (size : Word) (packet : List Byte) : Prop where
  contains : Contains m p packet
  size : packet.length ≤ size.toNat

/-- Where the packet stands, the tests of `ip_handle_packet` see the fields that were sent. -/
theorem fields_of_ipPacket (hm : Arrives m p size (ipPacket srcIp destIp protocol payload))
    (hlen : payload.length < 2 ^ 16 - 20) :
    IpWellFormed m p size ∧ ipHdrLen m p = 20 ∧
      ipPayloadSize m p = BitVec.ofNat 64 payload.length ∧ m (p + 9) = protocol ∧
      bswap32 (load32 m (p + 12)) = srcIp ∧ ipDest m p = destIp ∧
      Contains m (p + 20) payload := by
  have hchecksum := ipChecksum_ipv4Header hm.contains
  have hsize := hm.size
  rw [length_ipPacket] at hsize
  obtain ⟨hheader, hpayload⟩ := contains_append.mp hm.contains
  obtain ⟨hfirst, htotal, hprotocol, hsrc, hdest⟩ := fields_of_ipv4Header hheader
  rw [length_ipv4Header] at hpayload
  have hihl : ihl m p = 5#4 := by
    rw [ihl, hfirst]
    rfl
  have hhdr : ipHdrLen m p = 20 := by
    rw [ipHdrLen, hihl]
    rfl
  refine ⟨⟨?_, ?_, ?_, ?_⟩, hhdr, ?_, hprotocol, ?_, ?_, hpayload⟩
  · show 20 ≤ size.toNat
    omega
  · rw [version, hfirst]
    rfl
  · rw [hihl]
    exact BitVec.le_refl _
  · rw [hhdr]
    exact hchecksum
  · rw [ipPayloadSize, htotal, bswap16_bswap16, hhdr]
    apply BitVec.eq_of_toNat_eq
    have hwidth : ((BitVec.ofNat 16 (20 + payload.length)).setWidth 64 : Word).toNat =
        20 + payload.length := by
      rw [BitVec.toNat_setWidth_of_le (by omega), BitVec.toNat_ofNat]
      omega
    have hle : (20 : Word) ≤ (BitVec.ofNat 16 (20 + payload.length)).setWidth 64 := by
      show 20 ≤ ((BitVec.ofNat 16 (20 + payload.length)).setWidth 64 : Word).toNat
      omega
    have h20 : (20 : Word).toNat = 20 := rfl
    rw [BitVec.toNat_sub_of_le hle, hwidth, BitVec.toNat_ofNat, h20]
    omega
  · rw [hsrc, bswap32_bswap32]
  · rw [ipDest, hdest, bswap32_bswap32]

end

/-! ### IP -/

/-- The handler of a protocol on a payload. -/
def protocolHandler (alloc : ℕ → Bool) (h : Host) (m : Memory) (ipHdr : ℕ) (protocol : Byte)
    (payload : ℕ) (payloadSize : Word) : Rx Host :=
  if protocol = ipProtocolIcmp then icmpHandlePacket alloc h m ipHdr payload payloadSize
  else sockHandleIncomingPacket alloc h m payload payloadSize protocol

/-- The function that gets the payload. -/
def receiverOf (protocol : Byte) : Receiver :=
  if protocol = ipProtocolIcmp then .icmpHandlePacket else .sockHandleIncomingPacket

/-- On the packet at `p` the host calls the handler of the protocol with exactly the payload, and the
header has the two addresses. -/
structure Delivers (alloc : ℕ → Bool) (h : Host) (m : Memory) (p : ℕ) (size : Word)
    (protocol : Byte) (payload : List Byte) (srcIp destIp : BitVec 32) : Prop where
  accepts : IpAccepts h m p size
  pass : .pass (receiverOf protocol) (p + 20) (BitVec.ofNat 64 payload.length) ∈
    (ipHandlePacket alloc h m p size).notes
  handler : (ipHandlePacket alloc h m p size).value =
    (protocolHandler alloc h m p protocol (p + 20) (BitVec.ofNat 64 payload.length)).value
  payload : bytesAt m (p + 20) payload.length = payload
  src : bswap32 (load32 m (p + 12)) = srcIp
  dest : bswap32 (load32 m (p + 16)) = destIp

section

variable {alloc alloc' : ℕ → Bool} {a b : Host} {m : Memory} {p : ℕ} {size : Word}
  {protocol : Byte} {payload frame : List Byte}

/-- A packet that arrives at its destination is delivered. -/
theorem delivers_of_arrives {srcIp destIp : BitVec 32}
    (hprotocol : protocol = ipProtocolIcmp ∨ protocol = ipProtocolUdp ∨ protocol = ipProtocolTcp)
    (hm : Arrives m p size (ipPacket srcIp destIp protocol payload))
    (hlen : payload.length < 2 ^ 16 - 20) (hdest : destIp = b.localIp ∨ destIp = broadcastIp) :
    Delivers alloc b m p size protocol payload srcIp destIp := by
  obtain ⟨hwf, hhdr, hsize, hproto, hsrc, hip, hpayload⟩ := fields_of_ipPacket hm hlen
  have haccepts : IpAccepts b m p size := ⟨hwf, by rwa [hip]⟩
  obtain ⟨hvalue, hnotes⟩ := @ipHandlePacket_of_accepts alloc b m p size haccepts
  rw [hproto, hsize] at hvalue hnotes
  refine ⟨haccepts, ?_, ?_, hpayload.bytesAt_eq, hsrc, hip⟩
  · rw [hnotes]
    by_cases hicmp : protocol = ipProtocolIcmp
    · simp [ipDispatch, receiverOf, hicmp, hhdr]
    · have hsock := hprotocol.resolve_left hicmp
      simp [ipDispatch, receiverOf, hicmp, hsock, hhdr]
  · rw [hvalue]
    by_cases hicmp : protocol = ipProtocolIcmp
    · simp [ipDispatch, protocolHandler, hicmp, hhdr]
    · have hsock := hprotocol.resolve_left hicmp
      simp [ipDispatch, protocolHandler, hicmp, hsock, hhdr]

/-- What `ip_send_packet` hands to the device on one host for another is delivered there. -/
theorem ipHandlePacket_ipSendPacket
    (hprotocol : protocol = ipProtocolIcmp ∨ protocol = ipProtocolUdp ∨ protocol = ipProtocolTcp)
    (hsends : SendsIp a (ipSendPacket alloc a b.localIp protocol payload) frame)
    (hm : Arrives m p size (frame.drop 14)) :
    Delivers alloc' b m p size protocol payload a.localIp b.localIp := by
  obtain ⟨hlen, mac, rfl⟩ := frame_of_sendsIp hsends
  have hdrop : (ipFrame a mac b.localIp protocol payload).drop 14 =
      ipPacket a.localIp b.localIp protocol payload :=
    List.drop_left' (length_ethernetHeader _ _ _)
  rw [hdrop] at hm
  exact delivers_of_arrives hprotocol hm (by omega) (.inl rfl)

end

/-! ### Two hosts -/

/-- Two addresses of a network, and the MAC address of the second host. -/
def firstIp : BitVec 32 := 0x0A000001#32
def secondIp : BitVec 32 := 0x0A000002#32
def secondMac : Mac := fun _ => 0x22#8

/-- The first host, which knows the MAC address for an IP address. -/
def hostKnowing (ip : BitVec 32) : Host :=
  { freshHost (fun _ => 0x11#8) firstIp with
    arpCache := arpUpdateCache ⟨fun _ => ⟨0, fun _ => 0⟩, 0⟩ ip secondMac }

def secondHost : Host := freshHost secondMac secondIp

theorem destMac_hostKnowing (ip : BitVec 32) (hip : ip ≠ broadcastIp) :
    destMac (hostKnowing ip) ip = some secondMac := by
  rw [destMac, if_neg hip]
  exact arpLookupMac_arpUpdateCache _ _ _

theorem sendsIp_hostKnowing {ip : BitVec 32} (hip : ip ≠ broadcastIp) (protocol : Byte)
    {payload : List Byte} (hlen : payload.length ≤ 2014) :
    SendsIp (hostKnowing ip) (ipSendPacket (fun _ => true) (hostKnowing ip) ip protocol payload)
      (ipFrame (hostKnowing ip) secondMac ip protocol payload) := by
  have hsent : ipSendPacket (fun _ => true) (hostKnowing ip) ip protocol payload = _ :=
    ipSendPacket_of_mac (destMac_hostKnowing ip hip) rfl hlen
  obtain ⟨hheader, -⟩ := contains_append.mp
    (@contains_ofBytes (ipFrame (hostKnowing ip) secondMac ip protocol payload))
  have htype := etherType_eq hheader
  rw [Nat.zero_add] at htype
  exact ⟨by rw [hsent], htype⟩

/-- An echo request comes to the second host. -/
theorem delivers_secondHost :
    Delivers (fun _ => true) secondHost
      (ofBytes ((ipFrame (hostKnowing secondIp) secondMac secondIp ipProtocolIcmp
        [8, 0, 0, 0, 0, 1, 0, 1]).drop 14)) 0 28 ipProtocolIcmp [8, 0, 0, 0, 0, 1, 0, 1] firstIp secondIp :=
  ipHandlePacket_ipSendPacket (.inl rfl) (sendsIp_hostKnowing (by decide) _ (by decide))
    ⟨contains_ofBytes, by decide⟩

end KyroOS.Net

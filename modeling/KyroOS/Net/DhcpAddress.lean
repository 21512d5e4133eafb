import KyroOS.Net.RoundTrip

/-!
# The address from DHCP

The client takes `yiaddr` from the packet as it stands there and gives it to the IP layer, which
keeps its address as a number of the host. IP and ARP swap the bytes of that number when they compare
it with a packet or write it to one.

## Main definitions

* `AnswersTo` — a host receives, sends and answers for an address

## Main results

* `answersTo_iff` — a host answers to the address in `local_ip` and to no other
* `answersTo_dhcpHandlePacket_iff` — the addresses to which it answers after it got them
-/

namespace KyroOS.Net

/-! ### Answering to an address -/

/-- The host accepts the well-formed packets for the address, or for every host, and no others; it
sends packets from the address, and it answers requests for it. -/
structure AnswersTo (alloc : ℕ → Bool) (h : Host) (ip : BitVec 32) : Prop where
  accepts : ∀ m p size, .read (p + 9) 1 ∈ (ipHandlePacket alloc h m p size).notes ↔
    IpWellFormed m p size ∧ (ipDest m p = ip ∨ ipDest m p = broadcastIp)
  source : ∀ destIp protocol payload frame,
    SendsIp h (ipSendPacket alloc h destIp protocol payload) frame →
      load32 (ofBytes frame) 26 = bswap32 ip
  answers : ∀ m p (size : Word), 28#64 ≤ size → ArpFormat m p → ArpRequestFor m p ip →
    alloc 42 = true → (arpHandlePacket alloc h m p size).value.sent = h.sent ++
      [ethernetHeader (loadMac m (p + 8)) h.macAddr arpEtherType ++
        arpPacket arpOpcodeReply h.macAddr ip (loadMac m (p + 8)) (bswap32 (load32 m (p + 14)))]

section

variable {alloc : ℕ → Bool} {h : Host} {ip : BitVec 32}

theorem answersTo_localIp (alloc : ℕ → Bool) (h : Host) : AnswersTo alloc h h.localIp := by
  refine ⟨fun m p size => read_protocol_iff, ?_, ?_⟩
  · intro destIp protocol payload frame hsends
    obtain ⟨-, mac, rfl⟩ := frame_of_sendsIp hsends
    obtain ⟨-, hpacket⟩ := contains_append.mp (@contains_ofBytes
      (ipFrame h mac destIp protocol payload))
    obtain ⟨hheader, -⟩ := contains_append.mp hpacket
    rw [length_ethernetHeader] at hheader
    exact (fields_of_ipv4Header hheader).2.2.2.1
  · intro m p size hsize hformat hrequest halloc
    rw [arpHandlePacket_value (BitVec.not_lt.mpr hsize) hformat, if_pos ⟨hrequest, halloc⟩,
      sendPacket_sent (by simp [arpReplyFrame])]
    rfl

/-- A packet for an address that arrives. -/
theorem exists_wellFormed (ip : BitVec 32) :
    ∃ m p size, IpWellFormed m p size ∧ ipDest m p = ip := by
  have harrives : Arrives (ofBytes (ipPacket 0 ip ipProtocolUdp [])) 0 20
      (ipPacket 0 ip ipProtocolUdp []) := ⟨contains_ofBytes, by simp⟩
  obtain ⟨hwf, -, -, -, -, hdest, -⟩ := fields_of_ipPacket harrives (by simp)
  exact ⟨_, _, _, hwf, hdest⟩

/-- A host answers to its address only. -/
theorem answersTo_iff : AnswersTo alloc h ip ↔ h.localIp = ip := by
  constructor
  · intro hanswers
    have hsame : ∀ ip', (ip' = h.localIp ∨ ip' = broadcastIp) ↔ (ip' = ip ∨ ip' = broadcastIp) := by
      intro ip'
      obtain ⟨m, p, size, hwf, hdest⟩ := exists_wellFormed ip'
      have haccepts := (hanswers.accepts m p size).symm.trans read_protocol_iff
      rw [IpAccepts, and_iff_right hwf, and_iff_right hwf, hdest] at haccepts
      exact haccepts.symm
    by_cases hbroadcast : h.localIp = broadcastIp
    · have hip := (hsame ip).mpr (.inl rfl)
      rw [hbroadcast, or_self] at hip
      exact hbroadcast.trans hip.symm
    · exact ((hsame h.localIp).mp (.inl rfl)).resolve_right hbroadcast
  · rintro rfl
    exact answersTo_localIp alloc h

/-! ### After DHCP -/

variable {m : Memory} {p : ℕ} {len : Word}

/-- An ACK brings the client from `requesting` to `bound`. -/
theorem dhcpHandlePacket_ack (hstate : h.dhcp.state = .requesting) (hlen : 240#64 ≤ len)
    (hop : m p = 2#8) (hxid : load32 m (p + 4) = bswap32 dhcpXid)
    (htype : messageType m p len = 5#8) :
    (dhcpHandlePacket alloc h m p len).dhcp.state = .bound := by
  have hlen' : ¬ len < 240#64 := BitVec.not_lt.mpr hlen
  simp [dhcpHandlePacket, hlen', hop, hxid, hstate, htype]

/-- The host answers to the address that an ACK gives it when the address reads the same in both
byte orders. -/
theorem answersTo_dhcpHandlePacket_iff (alloc' : ℕ → Bool) (hstate : h.dhcp.state = .requesting)
    (hbound : (dhcpHandlePacket alloc h m p len).dhcp.state = .bound)
    (hyiaddr : load32 m (p + 16) = bswap32 ip) :
    AnswersTo alloc' (dhcpHandlePacket alloc h m p len) ip ↔ bswap32 ip = ip := by
  obtain ⟨hlocal, -⟩ := dhcpHandlePacket_bound hstate hbound
  rw [answersTo_iff, hlocal, hyiaddr]

end

/-! ### An ACK -/

/-- A host whose client has asked for an address. -/
def requestingHost : Host :=
  { freshHost secondMac 0 with dhcp := ⟨.requesting, 0, 0, 0, 0⟩ }

/-- An ACK with an address in network byte order. -/
def ackPacket (ip : BitVec 32) : List Byte :=
  [2#8, 1#8, 6#8, 0#8] ++ store32 (bswap32 dhcpXid) ++ List.replicate 8 0#8 ++
    store32 (bswap32 ip) ++ List.replicate 220 0#8 ++ [53#8, 1#8, 5#8, 255#8]

section

variable (ip : BitVec 32)

theorem fields_of_ackPacket : ofBytes (ackPacket ip) 0 = 2#8 ∧
    load32 (ofBytes (ackPacket ip)) 4 = bswap32 dhcpXid ∧
    load32 (ofBytes (ackPacket ip)) 16 = bswap32 ip ∧
    Contains (ofBytes (ackPacket ip)) 240 [53#8, 1#8, 5#8, 255#8] := by
  have hpacket := @contains_ofBytes (ackPacket ip)
  simp only [ackPacket, contains_append, List.length_append, List.length_cons, List.length_nil,
    length_store32, List.length_replicate, Nat.reduceAdd] at hpacket
  obtain ⟨⟨⟨⟨⟨-, hxid⟩, -⟩, hyiaddr⟩, -⟩, hoptions⟩ := hpacket
  exact ⟨rfl, hxid.load32, hyiaddr.load32, hoptions⟩

theorem state_ackPacket :
    (dhcpHandlePacket (fun _ => true) requestingHost (ofBytes (ackPacket ip)) 0 244#64).dhcp.state =
      .bound := by
  obtain ⟨hop, hxid, -, hoptions⟩ := fields_of_ackPacket ip
  simp only [contains_cons] at hoptions
  obtain ⟨hcode, -, htype, -⟩ := hoptions
  have hend : endOfData 0 244#64 = 244 := rfl
  have hfind : findOption (ofBytes (ackPacket ip)) 244 53#8 244 240 = some 240 := by
    rw [findOption, hcode]
    rfl
  apply dhcpHandlePacket_ack rfl (by decide) hop hxid
  rw [messageType, hend, hfind]
  exact htype

end

/-- An address that reads the same in both byte orders. -/
theorem answersTo_dhcpHandlePacket_iff_ackPacket :
    AnswersTo (fun _ => true) (dhcpHandlePacket (fun _ => true) requestingHost
        (ofBytes (ackPacket 0x0A00000A#32)) 0 244#64) 0x0A00000A#32 ↔
      bswap32 0x0A00000A#32 = 0x0A00000A#32 :=
  answersTo_dhcpHandlePacket_iff (fun _ => true) rfl (state_ackPacket _)
    (fields_of_ackPacket _).2.2.1

/-- To 10.0.2.15 the host does not answer. -/
theorem not_answersTo_dhcpHandlePacket : ¬ ∀ alloc h m p len ip, h.dhcp.state = .requesting →
    (dhcpHandlePacket alloc h m p len).dhcp.state = .bound → load32 m (p + 16) = bswap32 ip →
      AnswersTo alloc (dhcpHandlePacket alloc h m p len) ip := by
  intro hall
  obtain ⟨-, -, hyiaddr, -⟩ := fields_of_ackPacket 0x0A00020F#32
  have hanswers := hall (fun _ => true) requestingHost _ 0 244#64 0x0A00020F#32 rfl
    (state_ackPacket _) hyiaddr
  obtain ⟨hlocal, -⟩ := dhcpHandlePacket_bound rfl (state_ackPacket 0x0A00020F#32)
  rw [answersTo_iff, hlocal, Nat.zero_add, hyiaddr] at hanswers
  exact absurd hanswers (by decide)

end KyroOS.Net

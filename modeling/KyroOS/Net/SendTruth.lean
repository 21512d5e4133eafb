import KyroOS.Net.UdpRoundTrip

/-!
# What a call of `sock_send` reports

`sock_send` returns the length of the data whatever becomes of the datagram. Below it a datagram is
lost without a MAC address for its destination, without memory for it or for its frame, and when its
frame is larger than the device takes.

## Main definitions

* `CarriesUdp` — a frame carries a datagram, and its length fields say so
* `Sends` — a call hands one frame with the data to the device
* `Truthful` — what the call returns says whether it did
* `CanSend` — the MAC address and the memory are there, and the frame is not too large

## Main results

* `sends_udpSendPacket` — a datagram goes out exactly when it can be sent
* `truthful_iff` — when the call reports the truth
* `not_truthful` — a datagram to an address that is not in the cache
-/

namespace KyroOS.Net

/-- The frame carries the data in one UDP datagram of one IP packet. -/
structure CarriesUdp (frame data : List Byte) : Prop where
  etherType : bswap16 (load16 (ofBytes frame) 12) = ipv4EtherType
  /-- Version 4, and a header of 5 words. -/
  header : ofBytes frame 14 = 0x45#8
  protocol : ofBytes frame 23 = ipProtocolUdp
  totalLength : (bswap16 (load16 (ofBytes frame) 16)).toNat = 28 + data.length
  udpLength : (bswap16 (load16 (ofBytes frame) 38)).toNat = 8 + data.length
  data : frame.drop 42 = data

/-- From `h` to `h'` one frame was handed to the device, and it carries the data. -/
def Sends (h h' : Host) (data : List Byte) : Prop :=
  ∃ frame, h'.sent = h.sent ++ [frame] ∧ CarriesUdp frame data

/-- When the call returns the length it has sent the data, and else it returns -1. -/
def Truthful (alloc : ℕ → Bool) (h : Host) (address : Word) (buf : List Byte) : Prop :=
  ((sockSend alloc h address buf).2 = buf.length → Sends h (sockSend alloc h address buf).1 buf) ∧
    ((sockSend alloc h address buf).2 ≠ buf.length → (sockSend alloc h address buf).2 = -1)

/-- A datagram of `n` bytes can be sent to an address. -/
structure CanSend (alloc : ℕ → Bool) (h : Host) (destIp : BitVec 32) (n : ℕ) : Prop where
  mac : (destMac h destIp).isSome
  datagram : alloc (8 + n) = true
  frame : alloc (42 + n) = true
  fits : n ≤ 2006

section

variable {alloc : ℕ → Bool} {h : Host} {mac : Mac} {destIp : BitVec 32}
  {srcPort destPort : BitVec 16} {data : List Byte}

/-- The length in the header of a datagram. -/
theorem length_of_udpDatagram {m : Memory} {p : ℕ}
    (hm : Contains m p (udpDatagram srcPort destPort data)) :
    load16 m (p + 4) = bswap16 (BitVec.ofNat 16 (8 + data.length)) := by
  simp only [udpDatagram, udpHeader, contains_append, List.length_append, length_store16,
    Nat.reduceAdd] at hm
  exact hm.1.1.2.load16

/-- The frame of a datagram that fits carries its data. -/
theorem carriesUdp_ipFrame (hfits : data.length ≤ 2006) :
    CarriesUdp (ipFrame h mac destIp ipProtocolUdp (udpDatagram srcPort destPort data)) data := by
  obtain ⟨hether, hpacket⟩ := contains_append.mp (@contains_ofBytes
    (ipFrame h mac destIp ipProtocolUdp (udpDatagram srcPort destPort data)))
  have htype := etherType_eq hether
  rw [length_ethernetHeader] at hpacket
  obtain ⟨hheader, hdatagram⟩ := contains_append.mp hpacket
  rw [length_ipv4Header] at hdatagram
  obtain ⟨hfirst, htotal, hprotocol, -, -⟩ := fields_of_ipv4Header hheader
  have hlength := length_of_udpDatagram hdatagram
  rw [length_udpDatagram] at htotal
  simp only [Nat.zero_add, Nat.reduceAdd] at htype hfirst htotal hprotocol hlength
  refine ⟨htype, hfirst, hprotocol, ?_, ?_, ?_⟩
  · rw [htotal, bswap16_bswap16, BitVec.toNat_ofNat]
    omega
  · rw [hlength, bswap16_bswap16, BitVec.toNat_ofNat]
    omega
  · rw [ipFrame, ipPacket, udpDatagram, ← List.append_assoc, ← List.append_assoc]
    apply List.drop_left'
    simp

/-- A datagram goes out exactly when it can be sent. -/
theorem sends_udpSendPacket : Sends h (udpSendPacket alloc h destIp srcPort destPort data) data ↔
    CanSend alloc h destIp data.length := by
  unfold udpSendPacket
  constructor
  · rintro ⟨frame, hsent, hcarries⟩
    split at hsent
    · next hdatagram =>
      obtain ⟨hfits, hframe, mac, hmac, -⟩ := sendsIp_ipSendPacket ⟨hsent, hcarries.etherType⟩
      rw [length_udpDatagram] at hfits hframe
      rw [← Nat.add_assoc] at hframe
      exact ⟨Option.isSome_of_eq_some hmac, hdatagram, hframe, by omega⟩
    · -- without memory for the datagram nothing is sent
      have hnothing := congrArg List.length hsent
      simp at hnothing
  · intro hcan
    obtain ⟨mac, hmac⟩ := Option.isSome_iff_exists.mp hcan.mac
    have hframe : alloc (34 + (udpDatagram srcPort destPort data).length) = true := by
      rw [length_udpDatagram, ← Nat.add_assoc]
      exact hcan.frame
    have hfits : (udpDatagram srcPort destPort data).length ≤ 2014 := by
      rw [length_udpDatagram]
      exact Nat.add_le_add_left hcan.fits 8
    rw [if_pos hcan.datagram, ipSendPacket_of_mac hmac hframe hfits]
    exact ⟨_, rfl, carriesUdp_ipFrame hcan.fits⟩

end

/-! ### What the call returns -/

/-- A length as an `int` is the length or else not a length at all. -/
theorem toInt_ofNat_length (n : ℕ) :
    (BitVec.ofNat 32 n).toInt = n ↔ n < 2 ^ 31 := by
  rw [BitVec.toInt_eq_toNat_cond, BitVec.toNat_ofNat]
  split <;> omega

theorem toInt_ofNat_eq_neg_one (n : ℕ) :
    (BitVec.ofNat 32 n).toInt = -1 ↔ n % 2 ^ 32 = 2 ^ 32 - 1 := by
  rw [BitVec.toInt_eq_toNat_cond, BitVec.toNat_ofNat]
  split <;> omega

section

variable {alloc : ℕ → Bool} {h : Host} {address : Word} {port : BitVec 16}
  {remoteAddr : SockaddrIn} {buf : List Byte}

/-- The call on a connected UDP socket. -/
theorem sockSend_connected (hs : ConnectedAt h address port remoteAddr) (hbuf : buf ≠ []) :
    sockSend alloc h address buf =
      (udpSendPacket alloc h remoteAddr.sinAddr port remoteAddr.sinPort buf,
        (BitVec.ofNat 32 buf.length).toInt) := by
  obtain ⟨s, hat, hudp, hstate, rfl, rfl⟩ := hs
  have hlen : buf.length ≠ 0 := fun hzero => hbuf (List.length_eq_zero_iff.mp hzero)
  rw [sockSend, hat]
  dsimp only
  rw [if_neg hlen, if_pos hudp, if_neg (not_not.mpr hstate)]

/-- On any socket nothing to send is refused. -/
theorem sockSend_nil : sockSend alloc h address [] = (h, -1) := by
  unfold sockSend
  cases h.socketAt address with
  | none => rfl
  | some s => rfl

/-- The call reports the truth when there is nothing to send or the data can be sent, and when the
length as an `int` is the -1 of a failure. -/
theorem truthful_iff (hs : ConnectedAt h address port remoteAddr) : Truthful alloc h address buf ↔
    buf = [] ∨ CanSend alloc h remoteAddr.sinAddr buf.length ∨
      buf.length % 2 ^ 32 = 2 ^ 32 - 1 := by
  by_cases hbuf : buf = []
  · rw [hbuf, Truthful, sockSend_nil]
    exact ⟨fun _ => .inl rfl, fun _ => ⟨fun hlen => absurd hlen (by simp), fun _ => rfl⟩⟩
  · rw [Truthful, sockSend_connected hs hbuf]
    dsimp only
    rw [ne_eq, toInt_ofNat_length, toInt_ofNat_eq_neg_one, sends_udpSendPacket]
    constructor
    · intro htruth
      by_cases hlen : buf.length < 2 ^ 31
      · exact .inr (.inl (htruth.1 hlen))
      · exact .inr (.inr (htruth.2 hlen))
    · rintro (hnil | hcan | hminus)
      · exact absurd hnil hbuf
      · have hfits := hcan.fits
        exact ⟨fun _ => hcan, fun hlarge => absurd (by omega) hlarge⟩
      · exact ⟨fun hlen => by omega, fun _ => hminus⟩

end

/-! ### A datagram that is lost -/

/-- A host with a socket that is connected to an address, in network byte order. It knows the MAC
address of the second host. -/
def hostConnectedTo (ip : BitVec 32) : Host :=
  (sockConnect (boundHost 1 (hostKnowing secondIp)) 0x1000#64 ⟨afInet, bswap16 1, ip⟩).1

theorem connectedAt_hostConnectedTo (ip : BitVec 32) :
    ConnectedAt (hostConnectedTo ip) 0x1000#64 (bswap16 1) ⟨afInet, bswap16 1, ip⟩ := by
  have hbind := @sockBind_boundHost 1 (hostKnowing secondIp) rfl rfl
  exact connectedAt_sockConnect hbind rfl

/-- To the second host the call tells the truth. -/
theorem truthful_secondHost :
    Truthful (fun _ => true) (hostConnectedTo secondIp) 0x1000#64 [0x61#8] := by
  have hmac : destMac (hostConnectedTo secondIp) secondIp = some secondMac :=
    destMac_hostKnowing secondIp (by decide)
  apply (truthful_iff (connectedAt_hostConnectedTo secondIp)).mpr
  exact .inr (.inl ⟨Option.isSome_of_eq_some hmac, rfl, rfl, by simp⟩)

/-- To an address that is not in the cache the byte is not sent, and the call returns 1. -/
theorem not_truthful : ¬ ∀ (alloc : ℕ → Bool) (h : Host) (address : Word) (port : BitVec 16)
    (remoteAddr : SockaddrIn) (buf : List Byte), ConnectedAt h address port remoteAddr →
      Truthful alloc h address buf := by
  intro hall
  have hs := connectedAt_hostConnectedTo firstIp
  obtain ⟨hsent, -⟩ := hall (fun _ => true) _ _ _ _ [0x61#8] hs
  rw [sockSend_connected hs (by simp)] at hsent
  have hcan := sends_udpSendPacket.mp (hsent rfl)
  have hmiss : (destMac (hostConnectedTo firstIp) firstIp).isSome = false := by decide
  exact absurd hcan.mac (by rw [hmiss]; simp)

end KyroOS.Net

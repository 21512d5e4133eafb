import KyroOS.Net.RoundTrip

/-!
# From one UDP socket to another

A `sockaddr_in_t` holds its port and its address in network byte order, and the functions below the
sockets take numbers of the host and swap their bytes. `sock_send` gives them the fields as they are,
so that the bytes are swapped twice.

## Main definitions

* `portAddress` — a `sockaddr_in_t` for a port and an address
* `ConnectedAt`, `BoundAt` — the addresses of the socket that sends and of the one that receives
* `Exchange` — a datagram is sent by one socket and comes to the host of another
* `RoundTrip` — it comes to that socket, and with the right addresses on the wire

## Main results

* `connectedAt_sockConnect`, `boundAt_sockBind`, `address_of_findBound` — the calls that give the
  sockets their addresses
* `udpRoundTrip_iff` — the ports and addresses for which the datagram comes to the socket
-/

namespace KyroOS.Net

/-- The address of a socket, with the port and the address in network byte order. -/
def portAddress (port : BitVec 16) (ip : BitVec 32) : SockaddrIn :=
  ⟨afInet, bswap16 port, bswap32 ip⟩

/-! ### Sockets and their addresses -/

section

variable {h h' : Host} {address : Word} {addr : SockaddrIn} {port : BitVec 16} {s : Socket}

theorem address_of_socketAt (hs : h.socketAt address = some s) : s.address = address := by
  simpa using List.find?_some hs

/-- A change of the socket at an address is seen there. -/
theorem socketAt_setSocket (f : Socket → Socket) (hf : ∀ s, (f s).address = s.address)
    (address' : Word) : (h.setSocket address f).socketAt address' =
      (h.socketAt address').map fun s => if s.address = address then f s else s := by
  unfold Host.socketAt Host.setSocket
  rw [List.find?_map]
  congr 1
  apply List.find?_congr
  intro s _
  rw [Function.comp_apply]
  split
  · rw [hf]
  · rfl

theorem wake_activeSockets (thread : Word) : (h.wake thread).activeSockets = h.activeSockets := by
  unfold Host.wake
  split <;> rfl

/-- A delivery is seen at the socket, and at no other. -/
theorem socketAt_deliver (data : List Byte) : (h.deliver s data).socketAt address =
    (h.socketAt address).map fun s' => if s'.address = s.address then
      { s' with udpData := s'.udpData.append data, waitingThread := 0 } else s' := by
  have hwake : (h.wake s.waitingThread).socketAt address = h.socketAt address := by
    rw [Host.socketAt, wake_activeSockets]
    rfl
  rw [← hwake, Host.deliver]
  apply socketAt_setSocket
  exact fun _ => rfl

/-- The socket at an address is a UDP socket with a port. -/
structure BoundAt (h : Host) (address : Word) (port : BitVec 16) : Prop where
  socket : ∃ s, h.socketAt address = some s ∧ s.protocol = ipprotoUdp
  port : ∀ s ∈ h.activeSockets, s.address = address → s.localAddr.sinPort = port

theorem BoundAt.bound (hb : BoundAt h address port) (hs : h.socketAt address = some s) :
    s.Bound port := by
  obtain ⟨s', hs', hudp⟩ := hb.socket
  rw [hs] at hs'
  obtain rfl := Option.some.inj hs'
  exact ⟨hudp, hb.port s (List.mem_of_find?_eq_some hs) (address_of_socketAt hs)⟩

/-- The sockets after `sock_bind`: none but the one at the address had the port. -/
theorem eq_of_sockBind (hbind : sockBind h address addr = (h', 0)) :
    ∃ s, h.socketAt address = some s ∧ s.protocol = ipprotoUdp ∧
      (∀ s' ∈ h.activeSockets, s'.address ≠ address → ¬ s'.Bound addr.sinPort) ∧
      h'.activeSockets = h.activeSockets.map fun s =>
        if s.address = address then { s with localAddr := addr, state := .bound } else s := by
  have hrefused : (-1 : ℤ) ≠ 0 := by decide
  unfold sockBind at hbind
  cases hs : h.socketAt address with
  | none =>
    rw [hs] at hbind
    exact absurd (congrArg Prod.snd hbind) hrefused
  | some s =>
    rw [hs] at hbind
    dsimp only at hbind
    split at hbind
    · next hudp =>
      split at hbind
      · exact absurd (congrArg Prod.snd hbind) hrefused
      · next hfree =>
        refine ⟨s, rfl, hudp, ?_, ?_⟩
        · intro s' hmem hne hbound
          apply hfree
          rw [List.any_eq_true]
          exact ⟨s', hmem, decide_eq_true ⟨hne, hbound⟩⟩
        · have hfst := congrArg Prod.fst hbind
          dsimp only at hfst
          rw [← hfst, udpRegisterHandler]
          split <;> rfl
    · exact absurd (congrArg Prod.snd hbind) hrefused

theorem boundAt_sockBind (hbind : sockBind h address addr = (h', 0)) :
    BoundAt h' address addr.sinPort := by
  obtain ⟨s, hs, hudp, -, hsockets⟩ := eq_of_sockBind hbind
  refine ⟨?_, ?_⟩
  · have hat : h'.socketAt address = (h.setSocket address fun s =>
        { s with localAddr := addr, state := .bound }).socketAt address := by
      rw [Host.socketAt, hsockets]
      rfl
    rw [socketAt_setSocket _ (by intro; rfl), hs, Option.map_some,
      if_pos (address_of_socketAt hs)] at hat
    exact ⟨_, hat, hudp⟩
  · intro s' hmem haddress
    rw [hsockets] at hmem
    obtain ⟨s₀, -, rfl⟩ := List.mem_map.mp hmem
    split at haddress
    · next hat => rw [if_pos hat]
    · next hat => exact absurd haddress hat

/-- After `sock_bind` the loop over the sockets finds the one that was bound. -/
theorem address_of_findBound (hbind : sockBind h address addr = (h', 0)) :
    ∃ s, h'.findBound addr.sinPort = some s ∧ s.address = address := by
  have hb := boundAt_sockBind hbind
  obtain ⟨-, -, -, hother, hsockets⟩ := eq_of_sockBind hbind
  obtain ⟨s, hs, -⟩ := hb.socket
  have hmem := List.mem_of_find?_eq_some hs
  have hsome : (h'.findBound addr.sinPort).isSome := by
    apply List.find?_isSome.mpr
    exact ⟨s, hmem, decide_eq_true (hb.bound hs)⟩
  obtain ⟨s', hs'⟩ := Option.isSome_iff_exists.mp hsome
  refine ⟨s', hs', ?_⟩
  obtain ⟨hmem', hbound⟩ := bound_of_findBound h' hs'
  rw [hsockets] at hmem'
  obtain ⟨s₀, hmem₀, rfl⟩ := List.mem_map.mp hmem'
  by_cases hat : s₀.address = address
  · rw [if_pos hat]
    exact hat
  · rw [if_neg hat] at hbound
    exact absurd hbound (hother s₀ hmem₀ hat)

end

/-- The socket at an address is a UDP socket with a port, and is connected to an address. -/
def ConnectedAt (h : Host) (address : Word) (port : BitVec 16) (remoteAddr : SockaddrIn) : Prop :=
  ∃ s, h.socketAt address = some s ∧ s.protocol = ipprotoUdp ∧ s.state = .connected ∧
    s.localAddr.sinPort = port ∧ s.remoteAddr = remoteAddr

/-- After `sock_bind` and `sock_connect` a socket has both addresses. -/
theorem connectedAt_sockConnect {address : Word} {a₀ a₁ a : Host} {localAddr remoteAddr : SockaddrIn}
    (hbind : sockBind a₀ address localAddr = (a₁, 0))
    (hconnect : sockConnect a₁ address remoteAddr = (a, 0)) :
    ConnectedAt a address localAddr.sinPort remoteAddr := by
  have hrefused : (-1 : ℤ) ≠ 0 := by decide
  have hb := boundAt_sockBind hbind
  obtain ⟨s, hs, hudp⟩ := hb.socket
  have hport := (hb.bound hs).2
  unfold sockConnect at hconnect
  rw [hs] at hconnect
  dsimp only at hconnect
  split at hconnect
  · exact absurd (congrArg Prod.snd hconnect) hrefused
  · have hat : a.socketAt address = (a₁.setSocket address fun s =>
        { s with remoteAddr, state := .connected }).socketAt address :=
      congrArg (fun r => r.1.socketAt address) hconnect.symm
    rw [socketAt_setSocket _ (by intro; rfl), hs, Option.map_some,
      if_pos (address_of_socketAt hs)] at hat
    exact ⟨_, hat, hudp, rfl, hport, rfl⟩

/-! ### Datagrams -/

section

variable {m : Memory} {p : ℕ} {srcPort destPort : BitVec 16} {data : List Byte}

/-- The fields of a datagram. -/
theorem fields_of_udpDatagram (hm : Contains m p (udpDatagram srcPort destPort data)) :
    load16 m p = bswap16 srcPort ∧ load16 m (p + 2) = bswap16 destPort ∧
      Contains m (p + 8) data := by
  simp only [udpDatagram, udpHeader, contains_append, List.length_append, length_store16,
    Nat.reduceAdd] at hm
  obtain ⟨⟨⟨⟨hsrc, hdest⟩, -⟩, -⟩, hdata⟩ := hm
  exact ⟨hsrc.load16, hdest.load16, hdata⟩

end

/-! ### The exchange -/

/-- A datagram is sent by the socket at `sa` of one host, which is bound to port `p` and connected to
port `q` of the address `ip`, and its frame arrives at the host with that address, on which the
socket at `sb` is bound to `q`. -/
structure Exchange (p q : BitVec 16) (ip : BitVec 32) (payload frame : List Byte) (m : Memory)
    (length : BitVec 16) (alloc : ℕ → Bool) (a b : Host) (sa sb : Word) : Prop where
  connected : ConnectedAt a sa (bswap16 p) (portAddress q ip)
  sends : SendsIp a (sockSend alloc a sa payload).1 frame
  address : b.localIp = ip
  bound : BoundAt b sb (bswap16 q)
  contains : Contains m 0 frame
  length : frame.length ≤ length.toNat

/-- The first socket with the port is the one at the address, and it has room for `n` bytes. -/
def HasRoom (h : Host) (address : Word) (port : BitVec 16) (n : ℕ) : Prop :=
  ∃ s, h.findBound port = some s ∧ s.address = address ∧ n ≤ s.udpData.spaceAvailable

/-- The frame carries the source port and the destination address in network byte order, and the
socket has the payload at the end of its buffer. -/
structure RoundTrip (p : BitVec 16) (ip : BitVec 32) (payload frame : List Byte) (b b' : Host)
    (sb : Word) : Prop where
  srcPort : bswap16 (load16 (ofBytes frame) 34) = p
  destIp : bswap32 (load32 (ofBytes frame) 30) = ip
  appended : (b'.socketAt sb).map Socket.udpData =
    (b.socketAt sb).map fun s => s.udpData.append payload

section

variable {p q : BitVec 16} {ip : BitVec 32} {payload frame : List Byte} {m : Memory}
  {length : BitVec 16} {alloc : ℕ → Bool} {a b : Host} {sa sb : Word}

/-- The frame of the exchange. The layers below got the fields of the addresses as they are. -/
theorem Exchange.frame_eq (h : Exchange p q ip payload frame m length alloc a b sa sb) :
    payload ≠ [] ∧ payload.length ≤ 2006 ∧ ∃ mac, frame = ipFrame a mac (bswap32 ip) ipProtocolUdp
      (udpDatagram (bswap16 p) (bswap16 q) payload) := by
  obtain ⟨s, hs, hudp, hstate, hlocal, hremote⟩ := h.connected
  have hsends := h.sends
  have hnone : ¬ SendsIp a a frame :=
    fun hno => by simpa using congrArg List.length hno.1
  unfold sockSend at hsends
  rw [hs] at hsends
  dsimp only at hsends
  split at hsends
  · exact absurd hsends hnone
  · next hlen =>
    rw [if_neg (not_not.mpr hstate), hlocal, hremote] at hsends
    simp only [udpSendPacket] at hsends
    split at hsends
    · obtain ⟨hfits, mac, hframe⟩ := frame_of_sendsIp hsends
      rw [length_udpDatagram] at hfits
      exact ⟨fun hnil => hlen (by rw [hnil]; rfl), by omega, mac, hframe⟩
    · exact absurd hsends hnone

/-- The parts of the frame in a memory. -/
theorem Exchange.parts (h : Exchange p q ip payload frame m length alloc a b sa sb) {m' : Memory}
    (hm : Contains m' 0 frame) :
    bswap16 (load16 m' 12) = ipv4EtherType ∧
      Contains m' 14 (ipPacket a.localIp (bswap32 ip) ipProtocolUdp
        (udpDatagram (bswap16 p) (bswap16 q) payload)) ∧
      load32 m' 30 = ip ∧ load16 m' 34 = p ∧ load16 m' 36 = q ∧ Contains m' 42 payload := by
  obtain ⟨-, -, mac, rfl⟩ := h.frame_eq
  obtain ⟨heth, hpacket⟩ := contains_append.mp hm
  rw [length_ethernetHeader] at hpacket
  have htype := etherType_eq heth
  obtain ⟨hheader, hdatagram⟩ := contains_append.mp hpacket
  rw [length_ipv4Header] at hdatagram
  obtain ⟨-, -, -, -, hdest⟩ := fields_of_ipv4Header hheader
  obtain ⟨hsrcPort, hdestPort, hdata⟩ := fields_of_udpDatagram hdatagram
  rw [bswap16_bswap16] at hsrcPort hdestPort
  rw [bswap32_bswap32] at hdest
  exact ⟨htype, hpacket, hdest, hsrcPort, hdestPort, hdata⟩

/-- When IP accepts the packet, the handler of the sockets gets the datagram. -/
theorem Exchange.receive (h : Exchange p q ip payload frame m length alloc a b sa sb)
    (alloc' : ℕ → Bool) (hip : bswap32 ip = ip) :
    (e1000Receive alloc' b m length).value =
      (sockUdpReceivePacketHandler alloc' b m 34 42 (BitVec.ofNat 64 payload.length)).value := by
  obtain ⟨-, hlen, mac, hframe⟩ := h.frame_eq
  obtain ⟨htype, hpacket, -⟩ := h.parts h.contains
  have hlength := h.length
  rw [hframe, length_ipFrame, length_udpDatagram] at hlength
  have hsmall : ¬ length ≤ 14#16 := by
    intro hle
    have hle' : length.toNat ≤ 14 := hle
    omega
  have harrives : Arrives m 14 (length.setWidth 64 - 14#64) (ipPacket a.localIp (bswap32 ip)
      ipProtocolUdp (udpDatagram (bswap16 p) (bswap16 q) payload)) := by
    refine ⟨hpacket, ?_⟩
    rw [length_ipPacket, length_udpDatagram, toNat_frameSize (by omega)]
    omega
  have hdelivers : Delivers alloc' b m 14 (length.setWidth 64 - 14#64) ipProtocolUdp
      (udpDatagram (bswap16 p) (bswap16 q) payload) a.localIp (bswap32 ip) := by
    apply delivers_of_arrives (.inr (.inl rfl)) harrives
    · rw [length_udpDatagram]
      omega
    · exact .inl (hip.trans h.address.symm)
  have hne : ipv4EtherType ≠ arpEtherType := by decide
  have hudp : ipProtocolUdp ≠ ipProtocolIcmp := by decide
  have hvalue : (e1000Receive alloc' b m length).value =
      (ipHandlePacket alloc' b m 14 (length.setWidth 64 - 14#64)).value := by
    rw [e1000Receive_value, if_neg hsmall, htype, if_neg hne, if_pos rfl]
  have hdata : (BitVec.ofNat 64 (8 + payload.length) - 8 : Word) =
      BitVec.ofNat 64 payload.length := by
    rw [BitVec.ofNat_add]
    bv_omega
  rw [hvalue, hdelivers.handler, protocolHandler, if_neg hudp, sockHandleIncomingPacket,
    if_pos rfl]
  simp only [Rx.value_bind, Rx.value_sub, length_udpDatagram, hdata]

/-- A datagram that was appended at a socket came to that one. -/
theorem found_of_appended {s : Socket} {len : Word} {udpHdr data : ℕ} (hs : b.socketAt sb = some s)
    (hlen : len.toNat = payload.length) (hpayload : payload ≠ [])
    (happended : ((sockUdpReceivePacketHandler alloc b m udpHdr data len).value.socketAt sb).map
      Socket.udpData = some (s.udpData.append payload)) :
    HasRoom b sb (load16 m (udpHdr + 2)) payload.length := by
  -- whatever leaves the socket as it was appends nothing
  have hkept : ∀ h : Host, h.socketAt sb = b.socketAt sb →
      (h.socketAt sb).map Socket.udpData ≠ some (s.udpData.append payload) := by
    intro h hsame happended
    rw [hsame, hs, Option.map_some] at happended
    have hdata := congrArg UdpData.recvDataLen (Option.some.inj happended)
    have hpos := List.length_pos_of_ne_nil hpayload
    dsimp only [UdpData.append] at hdata
    omega
  rw [sockUdpReceivePacketHandler_value] at happended
  dsimp only at happended
  split at happended
  · refine absurd happended (hkept _ ?_)
    rw [Host.socketAt, dhcpHandlePacket_keeps Host.activeSockets fun _ _ _ _ _ _ => rfl]
    rfl
  · cases hfound : b.findBound (load16 m (udpHdr + 2)) with
    | none =>
      rw [hfound] at happended
      exact absurd happended (hkept b rfl)
    | some s' =>
      rw [hfound] at happended
      dsimp only at happended
      split at happended
      · exact absurd happended (hkept b rfl)
      · next hspace =>
        refine ⟨s', hfound, ?_, by omega⟩
        by_contra hne
        refine absurd happended (hkept _ ?_)
        rw [socketAt_deliver, hs, Option.map_some, if_neg]
        rw [address_of_socketAt hs]
        exact fun heq => hne heq.symm

/-- Datagrams make the round trip for the ports and the addresses that read the same in both byte
orders. -/
theorem udpRoundTrip_iff (h : Exchange p q ip payload frame m length alloc a b sa sb)
    (alloc' : ℕ → Bool) :
    RoundTrip p ip payload frame b (e1000Receive alloc' b m length).value sb ↔
      bswap16 p = p ∧ bswap16 q = q ∧ bswap32 ip = ip ∧ HasRoom b sb (bswap16 q) payload.length := by
  obtain ⟨-, -, hwireIp, hwirePort, -⟩ := h.parts contains_ofBytes
  obtain ⟨-, -, -, -, hdestPort, hdata⟩ := h.parts h.contains
  obtain ⟨s, hs, -⟩ := h.bound.socket
  obtain ⟨hpayload, hlen, -⟩ := h.frame_eq
  have hcount : (BitVec.ofNat 64 payload.length).toNat = payload.length := by
    rw [BitVec.toNat_ofNat]
    omega
  constructor
  · rintro ⟨hsrc, hdest, happended⟩
    rw [hwirePort] at hsrc
    rw [hwireIp] at hdest
    rw [h.receive alloc' hdest, hs, Option.map_some] at happended
    have hroom := found_of_appended hs hcount hpayload happended
    rw [hdestPort] at hroom
    -- the socket that was found has the port of the one at `sb`
    have hq : bswap16 q = q := by
      obtain ⟨s', hfound, haddress, -⟩ := hroom
      obtain ⟨hmem, hbound⟩ := bound_of_findBound b hfound
      exact (h.bound.port s' hmem haddress).symm.trans hbound.2
    exact ⟨hsrc, hq, hdest, by rwa [hq]⟩
  · rintro ⟨hp, hq, hip, s', hfound, haddress, hspace⟩
    rw [hq] at hfound
    refine ⟨by rw [hwirePort, hp], by rw [hwireIp, hip], ?_⟩
    have hdhcp : ¬ (q = 68#16 ∨ q = 67#16) := by
      rintro (rfl | rfl)
      · exact absurd hq (by decide)
      · exact absurd hq (by decide)
    rw [h.receive alloc' hip]
    rw [sockUdpReceivePacketHandler_value]
    simp only [hdestPort, hq, hdhcp, if_false, hfound, hcount, not_lt.mpr hspace]
    rw [hdata.bytesAt_eq, socketAt_deliver, hs, Option.map_some, Option.map_some, if_pos]
    · rfl
    · rw [address_of_socketAt hs, haddress]

end

/-! ### Two sockets -/

section

variable (p q : BitVec 16) (ip : BitVec 32) (h : Host)

/-- The host after a socket was created at address `0x1000` and bound to a port. -/
def boundHost : Host :=
  (sockBind (sockCreate h 2 2 ipprotoUdp 0x1000#64 0x2000#64 fun _ => 0).1 0x1000#64
    (portAddress p 0)).1

/-- The first host has a socket that is bound and connected, and knows the MAC address that it needs
to send from it. -/
def connectedHost : Host :=
  (sockConnect (boundHost p (hostKnowing (bswap32 ip))) 0x1000#64 (portAddress q ip)).1

/-- The second host has the address and a socket that is bound. -/
def receivingHost : Host := boundHost q (freshHost secondMac ip)

/-- What the first host sends. -/
def letterFrame : List Byte :=
  ipFrame (connectedHost p q ip) secondMac (bswap32 ip) ipProtocolUdp
    (udpDatagram (bswap16 p) (bswap16 q) [0x61#8])

variable {p q ip h}

theorem sockBind_boundHost (hfresh : h.activeSockets = []) (hhandlers : h.udpHandlers = []) :
    sockBind (sockCreate h 2 2 ipprotoUdp 0x1000#64 0x2000#64 fun _ => 0).1 0x1000#64
      (portAddress p 0) = (boundHost p h, 0) := by
  rw [boundHost]
  simp [sockCreate, sockBind, Host.socketAt, ipprotoUdp, hfresh, hhandlers]

theorem exchange_letterFrame (hip : bswap32 ip ≠ broadcastIp) :
    Exchange p q ip [0x61#8] (letterFrame p q ip) (ofBytes (letterFrame p q ip)) 43#16
      (fun _ => true) (connectedHost p q ip) (receivingHost q ip) 0x1000#64 0x1000#64 := by
  have hbindA := @sockBind_boundHost p (hostKnowing (bswap32 ip)) rfl rfl
  have hbindB := @sockBind_boundHost q (freshHost secondMac ip) rfl rfl
  have hconnect : sockConnect (boundHost p (hostKnowing (bswap32 ip))) 0x1000#64
      (portAddress q ip) = (connectedHost p q ip, 0) := rfl
  have hconnected := connectedAt_sockConnect hbindA hconnect
  have hsent : (sockSend (fun _ => true) (connectedHost p q ip) 0x1000#64 [0x61#8]).1 =
      ipSendPacket (fun _ => true) (connectedHost p q ip) (bswap32 ip) ipProtocolUdp
        (udpDatagram (bswap16 p) (bswap16 q) [0x61#8]) := rfl
  have hmac : destMac (connectedHost p q ip) (bswap32 ip) = some secondMac :=
    destMac_hostKnowing _ hip
  refine ⟨hconnected, ⟨?_, ?_⟩, rfl, boundAt_sockBind hbindB, contains_ofBytes, ?_⟩
  · rw [hsent, ipSendPacket_of_mac hmac rfl (by simp)]
    rfl
  · obtain ⟨hheader, -⟩ := contains_append.mp (@contains_ofBytes (letterFrame p q ip))
    have htype := etherType_eq hheader
    rwa [Nat.zero_add] at htype
  · simp [letterFrame]

end

/-- Ports and an address that read the same in both byte orders. -/
theorem udpRoundTrip_iff_letterFrame :
    RoundTrip 0x1111#16 0x0A00000A#32 [0x61#8] (letterFrame 0x1111#16 0x2222#16 0x0A00000A#32)
        (receivingHost 0x2222#16 0x0A00000A#32)
        (e1000Receive (fun _ => true) (receivingHost 0x2222#16 0x0A00000A#32)
          (ofBytes (letterFrame 0x1111#16 0x2222#16 0x0A00000A#32)) 43#16).value 0x1000#64 ↔
      bswap16 0x1111#16 = 0x1111#16 ∧ bswap16 0x2222#16 = 0x2222#16 ∧
        bswap32 0x0A00000A#32 = 0x0A00000A#32 ∧
          HasRoom (receivingHost 0x2222#16 0x0A00000A#32) 0x1000#64 (bswap16 0x2222#16) 1 :=
  udpRoundTrip_iff (exchange_letterFrame (by decide)) fun _ => true

/-- A datagram from port 4660 has another port on the wire. -/
theorem not_udpRoundTrip :
    Exchange 0x1234#16 0x2222#16 0x0A00000A#32 [0x61#8]
        (letterFrame 0x1234#16 0x2222#16 0x0A00000A#32)
        (ofBytes (letterFrame 0x1234#16 0x2222#16 0x0A00000A#32)) 43#16 (fun _ => true)
        (connectedHost 0x1234#16 0x2222#16 0x0A00000A#32)
        (receivingHost 0x2222#16 0x0A00000A#32) 0x1000#64 0x1000#64 ∧
      HasRoom (receivingHost 0x2222#16 0x0A00000A#32) 0x1000#64 (bswap16 0x2222#16) 1 ∧
      ¬ RoundTrip 0x1234#16 0x0A00000A#32 [0x61#8]
        (letterFrame 0x1234#16 0x2222#16 0x0A00000A#32) (receivingHost 0x2222#16 0x0A00000A#32)
        (e1000Receive (fun _ => true) (receivingHost 0x2222#16 0x0A00000A#32)
          (ofBytes (letterFrame 0x1234#16 0x2222#16 0x0A00000A#32)) 43#16).value 0x1000#64 := by
  have hexchange : Exchange 0x1234#16 0x2222#16 0x0A00000A#32 _ _ _ _ _ _ _ _ _ :=
    exchange_letterFrame (by decide)
  refine ⟨hexchange, ⟨_, rfl, rfl, by decide⟩, ?_⟩
  intro htrip
  obtain ⟨-, -, -, hport, -⟩ := hexchange.parts contains_ofBytes
  have hsrc := htrip.srcPort
  rw [hport] at hsrc
  exact absurd hsrc (by decide)

end KyroOS.Net

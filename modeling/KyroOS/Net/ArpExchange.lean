import KyroOS.Net.RoundTrip

/-!
# The exchange of addresses by ARP

A request tells its receiver the MAC address of the sender, and the reply tells the sender that of the
receiver. Only the host with the address in a request replies to it, whatever frames come to it.

## Main definitions

* `FrameArrives` — a frame stands in the memory of a host that receives it
* `Resolves` — what is known after a request
* `Delivery`, `run` — frames that come to the hosts of a network, in any order

## Main results

* `e1000Receive_arpPacket` — what becomes of a host on a packet of ARP
* `e1000Receive_quiet` — a frame that asks for another host has no reply
* `arpSendRequest_resolves` — the exchange, and that no other host takes part in it
-/

namespace KyroOS.Net

/-! ### Packets that arrive -/

/-- A frame that arrives whole, and perhaps padded. -/
structure FrameArrives (m : Memory) (length : BitVec 16) (frame : List Byte) : Prop where
  contains : Contains m 0 frame
  length : frame.length ≤ length.toNat

section

variable {alloc : ℕ → Bool} {h : Host} {m : Memory} {p : ℕ} {length : BitVec 16}
  {opcode : BitVec 16} {dest src senderMac targetMac : Mac} {senderIp targetIp : BitVec 32}

/-- The fields of a packet. -/
theorem fields_of_arpPacket
    (hm : Contains m p (arpPacket opcode senderMac senderIp targetMac targetIp)) :
    ArpFormat m p ∧ bswap16 (load16 m (p + 6)) = opcode ∧ loadMac m (p + 8) = senderMac ∧
      bswap32 (load32 m (p + 14)) = senderIp ∧ bswap32 (load32 m (p + 24)) = targetIp := by
  simp only [arpPacket, contains_append, contains_cons, List.length_append, List.length_cons,
    List.length_nil, length_store16, length_store32, Mac.length_bytes, Nat.add_assoc,
    Nat.reduceAdd] at hm
  obtain ⟨⟨⟨⟨⟨⟨⟨hhardware, hprotocol⟩, hhwLen, hprLen, -⟩, hop⟩, hmac⟩, hsender⟩, -⟩, htarget⟩ := hm
  refine ⟨⟨?_, ?_, hhwLen, hprLen⟩, ?_, hmac.loadMac, ?_, ?_⟩
  · rw [hhardware.load16, bswap16_bswap16]
  · rw [hprotocol.load16, bswap16_bswap16]
  · rw [hop.load16, bswap16_bswap16]
  · rw [hsender.load32, bswap32_bswap32]
  · rw [htarget.load32, bswap32_bswap32]

/-- The sender of a packet is entered in the cache, and a request for the host is answered. -/
theorem e1000Receive_arpPacket (hm : FrameArrives m length (ethernetHeader dest src arpEtherType ++
      arpPacket opcode senderMac senderIp targetMac targetIp)) :
    let learned := { h with arpCache := arpUpdateCache h.arpCache senderIp senderMac }
    (e1000Receive alloc h m length).value =
      if (opcode = arpOpcodeRequest ∧ targetIp = h.localIp) ∧ alloc 42 then
        learned.sendPacket (arpReplyFrame learned senderMac senderIp)
      else learned := by
  obtain ⟨hheader, hpacket⟩ := contains_append.mp hm.contains
  have hlength := hm.length
  rw [List.length_append, length_ethernetHeader, length_arpPacket] at hlength
  rw [length_ethernetHeader] at hpacket
  have htype := etherType_eq hheader
  rw [Nat.zero_add] at htype hpacket
  obtain ⟨hformat, hop, hmac, hsender, htarget⟩ := fields_of_arpPacket hpacket
  have hlarge : ¬ length ≤ 14#16 := by
    apply BitVec.not_le.mpr
    show 14 < length.toNat
    omega
  have hsize : ¬ length.setWidth 64 - 14#64 < 28#64 := by
    apply BitVec.not_lt.mpr
    show 28 ≤ (length.setWidth 64 - 14#64 : Word).toNat
    rw [toNat_frameSize (by omega)]
    omega
  have hrequest : ArpRequestFor m 14 h.localIp ↔
      opcode = arpOpcodeRequest ∧ targetIp = h.localIp := by
    rw [ArpRequestFor, hop, htarget]
  rw [e1000Receive_value, if_neg hlarge, if_pos htype, arpHandlePacket_value hsize hformat,
    Host.learn, hmac, hsender]
  exact if_congr (and_congr_left' hrequest) rfl rfl

end

/-! ### The exchange -/

/-- On the frame of a request from `a`, host `b` knows the MAC address of `a` and replies, and its
reply makes its own MAC address known to whoever receives it. -/
structure Resolves (alloc : ℕ → Bool) (a b : Host) (m : Memory) (length : BitVec 16) : Prop where
  requester : arpLookupMac (e1000Receive alloc b m length).value.arpCache a.localIp =
    some a.macAddr
  replies : alloc 42 = true →
    ∃ reply, (e1000Receive alloc b m length).value.sent = b.sent ++ [reply]
  replier : ∀ reply, (e1000Receive alloc b m length).value.sent = b.sent ++ [reply] →
    ∀ alloc' a' m' length', FrameArrives m' length' reply →
      arpLookupMac (e1000Receive alloc' a' m' length').value.arpCache b.localIp = some b.macAddr

section

variable {alloc alloc' : ℕ → Bool} {a b h : Host} {m : Memory} {length : BitVec 16}
  {request frame : List Byte} {dest src senderMac targetMac : Mac} {senderIp targetIp : BitVec 32}

/-- The frame of a request. -/
theorem eq_arpRequestFrame
    (hrequest : (arpSendRequest alloc a targetIp).sent = a.sent ++ [request]) :
    request = arpRequestFrame a targetIp := by
  have hlen : (arpRequestFrame a targetIp).length ≤ 2048 := by simp [arpRequestFrame]
  unfold arpSendRequest at hrequest
  split at hrequest
  · rw [sendPacket_sent hlen] at hrequest
    exact (List.singleton_inj.mp (List.append_cancel_left hrequest)).symm
  · simpa using congrArg List.length hrequest

/-- Whoever receives a packet knows its sender. -/
theorem arpLookupMac_e1000Receive {opcode : BitVec 16}
    (hm : FrameArrives m length (ethernetHeader dest src arpEtherType ++
      arpPacket opcode senderMac senderIp targetMac targetIp)) :
    arpLookupMac (e1000Receive alloc h m length).value.arpCache senderIp = some senderMac := by
  rw [e1000Receive_arpPacket hm]
  split
  · rw [sendPacket_eq]
    exact arpLookupMac_arpUpdateCache _ _ _
  · exact arpLookupMac_arpUpdateCache _ _ _

theorem resolves_arpRequestFrame (hm : FrameArrives m length (arpRequestFrame a b.localIp)) :
    Resolves alloc a b m length := by
  have hlen : (arpReplyFrame { b with arpCache := arpUpdateCache b.arpCache a.localIp a.macAddr }
      a.macAddr a.localIp).length ≤ 2048 := by simp [arpReplyFrame]
  refine ⟨arpLookupMac_e1000Receive hm, ?_, ?_⟩
  · intro halloc
    rw [e1000Receive_arpPacket hm, if_pos ⟨⟨rfl, rfl⟩, halloc⟩, sendPacket_sent hlen]
    exact ⟨_, rfl⟩
  · intro reply hreply alloc' a' m' length' harrives
    rw [e1000Receive_arpPacket hm] at hreply
    split at hreply
    · rw [sendPacket_sent hlen] at hreply
      obtain rfl := List.singleton_inj.mp (List.append_cancel_left hreply)
      exact arpLookupMac_e1000Receive harrives
    · exact absurd (congrArg List.length hreply) (by simp)

end

/-! ### Replies -/

/-- The frame is a reply of ARP. -/
def ArpReply (frame : List Byte) : Prop :=
  bswap16 (load16 (ofBytes frame) 12) = arpEtherType ∧
    bswap16 (load16 (ofBytes frame) 20) = arpOpcodeReply

/-- Between two states of a host it sent no reply. -/
def Quiet (h h' : Host) : Prop :=
  ∃ frames, h'.sent = h.sent ++ frames ∧ ∀ frame ∈ frames, ¬ ArpReply frame

/-- A frame of `length` bytes asks for an address. -/
def AsksFor (m : Memory) (length : BitVec 16) (ip : BitVec 32) : Prop :=
  14#16 < length ∧ bswap16 (load16 m 12) = arpEtherType ∧ ArpRequestFor m 14 ip

section Quiet

variable {alloc : ℕ → Bool} {h h' h'' : Host} {m : Memory} {p : ℕ} {size : Word}
  {frame payload : List Byte} {destIp : BitVec 32} {protocol : Byte}

theorem Quiet.of_sent (hsent : h'.sent = h.sent) : Quiet h h' :=
  ⟨[], by rw [hsent, List.append_nil], fun _ hmem => absurd hmem List.not_mem_nil⟩

theorem Quiet.trans (hquiet : Quiet h h') (hquiet' : Quiet h' h'') : Quiet h h'' := by
  obtain ⟨frames, hsent, hframes⟩ := hquiet
  obtain ⟨frames', hsent', hframes'⟩ := hquiet'
  refine ⟨frames ++ frames', by rw [hsent', hsent, List.append_assoc], ?_⟩
  intro frame hmem
  exact (List.mem_append.mp hmem).elim (hframes frame) (hframes' frame)

theorem quiet_sendPacket (hframe : ¬ ArpReply frame) : Quiet h (h.sendPacket frame) := by
  unfold Host.sendPacket
  split
  · exact .of_sent rfl
  · refine ⟨[frame], rfl, ?_⟩
    intro frame' hmem
    rwa [List.mem_singleton.mp hmem]

/-- A request is no reply. -/
theorem quiet_arpSendRequest : Quiet h (arpSendRequest alloc h destIp) := by
  unfold arpSendRequest
  split
  · apply quiet_sendPacket
    rintro ⟨-, hreply⟩
    obtain ⟨-, hpacket⟩ := contains_append.mp (@contains_ofBytes (arpRequestFrame h destIp))
    rw [length_ethernetHeader] at hpacket
    obtain ⟨-, hop, -⟩ := fields_of_arpPacket hpacket
    exact absurd (hop.symm.trans hreply) (by decide)
  · exact .of_sent rfl

/-- An IP packet is no reply. -/
theorem quiet_ipSendPacket : Quiet h (ipSendPacket alloc h destIp protocol payload) := by
  unfold ipSendPacket
  cases destMac h destIp with
  | none => exact quiet_arpSendRequest
  | some mac =>
    dsimp only
    split
    · apply quiet_sendPacket
      rintro ⟨harp, -⟩
      obtain ⟨hheader, -⟩ :=
        contains_append.mp (@contains_ofBytes (ipFrame h mac destIp protocol payload))
      have htype := etherType_eq hheader
      rw [Nat.zero_add] at htype
      exact absurd (htype.symm.trans harp) (by decide)
    · exact .of_sent rfl

theorem quiet_udpSendPacket {srcPort destPort : BitVec 16} :
    Quiet h (udpSendPacket alloc h destIp srcPort destPort payload) := by
  unfold udpSendPacket
  split
  · exact quiet_ipSendPacket
  · exact .of_sent rfl

theorem quiet_dhcpHandlePacket : Quiet h (dhcpHandlePacket alloc h m p size) := by
  unfold dhcpHandlePacket
  split
  · exact .of_sent rfl
  · split
    · exact .of_sent rfl
    · dsimp only
      split
      · exact quiet_udpSendPacket
      · split
        · apply Quiet.of_sent
          exact applyOptions_keeps Host.sent (fun _ _ => rfl) fun _ _ => rfl
        · exact .of_sent rfl

theorem sent_deliver {s : Socket} {data : List Byte} : (h.deliver s data).sent = h.sent := by
  unfold Host.deliver Host.setSocket Host.wake
  split <;> rfl

theorem quiet_sockHandleIncomingPacket :
    Quiet h (sockHandleIncomingPacket alloc h m p size protocol).value := by
  unfold sockHandleIncomingPacket
  rw [Rx.value_ite]
  split
  · simp only [Rx.value_bind]
    rw [sockUdpReceivePacketHandler_value]
    dsimp only
    split
    · exact quiet_dhcpHandlePacket
    · split
      · exact .of_sent rfl
      · split
        · exact .of_sent rfl
        · exact .of_sent sent_deliver
  · exact .of_sent rfl

theorem quiet_icmpHandlePacket {payload : ℕ} :
    Quiet h (icmpHandlePacket alloc h m p payload size).value := by
  unfold icmpHandlePacket
  by_cases hsize : size < 8#64
  · simp [hsize, Quiet.of_sent]
  · by_cases hsum : ipChecksum m payload size.toNat = 0#16
    · by_cases hecho : m payload = 8#8
      · cases alloc size.toNat with
        | false => simp [hsize, hsum, Quiet.of_sent]
        | true => simp [hsize, hsum, hecho, quiet_ipSendPacket]
      · simp [hsize, hsum, hecho, Quiet.of_sent]
    · simp [hsize, hsum, Quiet.of_sent]

theorem quiet_ipHandlePacket : Quiet h (ipHandlePacket alloc h m p size).value := by
  by_cases haccepts : IpAccepts h m p size
  · rw [(ipHandlePacket_of_accepts haccepts).1, ipDispatch, Rx.value_ite, Rx.value_ite]
    split
    · exact quiet_icmpHandlePacket
    · split
      · exact quiet_sockHandleIncomingPacket
      · exact .of_sent rfl
  · rw [(ipHandlePacket_of_not_accepts haccepts).1]
    exact .of_sent rfl

/-- A packet that does not ask for the host has no reply. -/
theorem quiet_arpHandlePacket (hasks : ¬ ArpRequestFor m p h.localIp) :
    Quiet h (arpHandlePacket alloc h m p size).value := by
  by_cases hpacket : size < 28#64 ∨ ¬ ArpFormat m p
  · rw [arpHandlePacket_of_not hpacket]
    exact .of_sent rfl
  · obtain ⟨hsize, hformat⟩ := not_or.mp hpacket
    rw [arpHandlePacket_value hsize (not_not.mp hformat), if_neg fun hrequest => hasks hrequest.1]
    exact .of_sent rfl

/-- A frame that does not ask for the host has no reply. -/
theorem e1000Receive_quiet {length : BitVec 16} (hasks : ¬ AsksFor m length h.localIp) :
    Quiet h (e1000Receive alloc h m length).value := by
  rw [e1000Receive_value]
  split
  · exact .of_sent rfl
  · next hlarge =>
    split
    · next harp =>
      exact quiet_arpHandlePacket fun hrequest =>
        hasks ⟨BitVec.not_le.mp hlarge, harp, hrequest⟩
    · split
      · exact quiet_ipHandlePacket
      · exact .of_sent rfl

end Quiet

/-! ### Networks -/

/-- A frame that comes to a host, in its memory. The heap of the host serves the sizes that `alloc`
says. -/
structure Delivery (ι : Type*) where
  host : ι
  memory : Memory
  length : BitVec 16
  alloc : ℕ → Bool

section

variable {ι : Type*} [DecidableEq ι] {i : ι} {n : ι → Host} {ds : List (Delivery ι)}

/-- The hosts after a delivery. -/
def deliver (n : ι → Host) (d : Delivery ι) : ι → Host :=
  Function.update n d.host (e1000Receive d.alloc (n d.host) d.memory d.length).value

/-- The hosts after deliveries in any order. -/
def run (n : ι → Host) (ds : List (Delivery ι)) : ι → Host := ds.foldl deliver n

/-- No frame that came to the host asked for the address that it had at that time. -/
def Unasked (i : ι) : (ι → Host) → List (Delivery ι) → Prop
  | _, [] => True
  | n, d :: ds =>
    (d.host = i → ¬ AsksFor d.memory d.length (n i).localIp) ∧ Unasked i (deliver n d) ds

/-- A host that is not asked does not reply, whatever the other hosts get. -/
theorem run_quiet (hunasked : Unasked i n ds) : Quiet (n i) (run n ds i) := by
  induction ds generalizing n with
  | nil => exact .of_sent rfl
  | cons d ds ih =>
    obtain ⟨hasks, hrest⟩ := hunasked
    apply Quiet.trans _ (ih hrest)
    by_cases hi : d.host = i
    · subst hi
      rw [deliver, Function.update_self]
      exact e1000Receive_quiet (hasks rfl)
    · rw [deliver, Function.update_of_ne (Ne.symm hi)]
      exact .of_sent rfl

/-- A request and its reply tell both hosts the MAC address of the other, and hosts with other
addresses reply to nothing. -/
theorem arpSendRequest_resolves {alloc alloc' : ℕ → Bool} {a b : Host} {request : List Byte}
    {m : Memory} {length : BitVec 16}
    (hrequest : (arpSendRequest alloc a b.localIp).sent = a.sent ++ [request])
    (harrives : FrameArrives m length request) :
    Resolves alloc' a b m length ∧
      ∀ (n : ι → Host) ds i, Unasked i n ds → Quiet (n i) (run n ds i) := by
  rw [eq_arpRequestFrame hrequest] at harrives
  exact ⟨resolves_arpRequestFrame harrives, fun _ _ _ => run_quiet⟩

end

/-- The request of a first host for the second one. -/
theorem arpSendRequest_resolves_secondHost :
    Resolves (fun _ => true) (freshHost .broadcast firstIp) secondHost
        (ofBytes (arpRequestFrame (freshHost .broadcast firstIp) secondIp)) 42#16 ∧
      ∀ (n : Bool → Host) ds i, Unasked i n ds → Quiet (n i) (run n ds i) :=
  @arpSendRequest_resolves Bool _ (fun _ => true) (fun _ => true) _ secondHost _ _ _ rfl
    ⟨contains_ofBytes, by simp [arpRequestFrame]⟩

end KyroOS.Net

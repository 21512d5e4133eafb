import KyroOS.Net.RoundTrip

/-!
# Echo requests and replies

A request is answered by the same bytes under another type, with a checksum of their own.

## Main definitions

* `icmpHeader`, `icmpSendEchoRequest` — the requests
* `IcmpAccepts` — a message passes the tests of `icmp_handle_packet`
* `EchoAnswered` — a request is answered by a reply that is accepted and carries the same fields

## Main results

* `echoReply_echoMessage` — the reply is the message of the other type
* `echo_answered` — a checksum that is filled in is accepted, and so requests are answered
* `not_echo_answered` — a request for whose reply the heap has no memory
-/

namespace KyroOS.Net

/-! ### Messages -/

/-- `icmp_header_t`, with the fields as numbers of the host. -/
def icmpHeader (type code : Byte) (checksum id sequence : BitVec 16) : List Byte :=
  [type, code] ++ (store16 checksum ++ (store16 (bswap16 id) ++ store16 (bswap16 sequence)))

/-- An echo message: the checksum is taken of the message with 0 in its place. -/
def echoMessage (type : Byte) (id sequence : BitVec 16) (data : List Byte) : List Byte :=
  let checksum := ipChecksum (ofBytes (icmpHeader type 0 0 id sequence ++ data)) 0 (8 + data.length)
  icmpHeader type 0 checksum id sequence ++ data

/-- `ICMP_ECHO_REQUEST` -/
def icmpEchoRequest : Byte := 8#8

/-- `ICMP_ECHO_REPLY` -/
def icmpEchoReply : Byte := 0#8

/-- `icmp_send_echo_request` -/
def icmpSendEchoRequest (alloc : ℕ → Bool) (h : Host) (destIp : BitVec 32) (id sequence : BitVec 16)
    (data : List Byte) : Host :=
  if alloc (8 + data.length) then
    ipSendPacket alloc h destIp ipProtocolIcmp (echoMessage icmpEchoRequest id sequence data)
  else h

section

variable {type : Byte} {id sequence : BitVec 16} {data : List Byte} {m : Memory} {p : ℕ}

@[simp] theorem length_echoMessage : (echoMessage type id sequence data).length =
    8 + data.length := by
  rw [echoMessage, icmpHeader, List.length_append]
  rfl

/-- What is answered to a message is the reply with its fields. -/
theorem echoReply_echoMessage : echoReply (echoMessage type id sequence data) =
    echoMessage icmpEchoReply id sequence data := by
  have hcleared : (((echoMessage type id sequence data).set 0 0).set 2 0).set 3 0 =
      icmpHeader icmpEchoReply 0 0 id sequence ++ data := rfl
  have hlength : (icmpHeader icmpEchoReply 0 0 id sequence ++ data).length = 8 + data.length := by
    rw [icmpHeader, List.length_append]
    rfl
  rw [echoReply, hcleared, hlength]
  rfl

/-- A message passes the tests of `icmp_handle_packet`. -/
def IcmpAccepts (m : Memory) (p : ℕ) (payloadSize : Word) : Prop :=
  ¬ payloadSize < 8#64 ∧ ipChecksum m p payloadSize.toNat = 0

/-- The size of a message that an IP packet can hold. -/
theorem toNat_messageSize (hlen : 8 + data.length ≤ 65535) :
    (BitVec.ofNat 64 (8 + data.length)).toNat = 8 + data.length := by
  rw [BitVec.toNat_ofNat]
  omega

/-- A message is accepted, wherever it stands. -/
theorem icmpAccepts_of_contains (hlen : 8 + data.length ≤ 65535)
    (hm : Contains m p (echoMessage type id sequence data)) :
    IcmpAccepts m p (BitVec.ofNat 64 (8 + data.length)) := by
  have hsize := toNat_messageSize hlen
  constructor
  · rw [BitVec.lt_def, hsize]
    exact not_lt.mpr (Nat.le_add_right 8 _)
  · rw [hsize]
    have hsplit : ∀ checksum, icmpHeader type 0 checksum id sequence ++ data =
        [type, 0] ++ (store16 checksum ++
          (store16 (bswap16 id) ++ store16 (bswap16 sequence) ++ data)) := fun checksum => by
      simp only [icmpHeader, List.append_assoc]
    rw [echoMessage, hsplit, hsplit] at hm
    have heven : ([type, 0] : List Byte).length % 2 = 0 := by simp
    have hlength : ([type, 0] : List Byte).length + 2 +
        (store16 (bswap16 id) ++ store16 (bswap16 sequence) ++ data).length = 8 + data.length := by
      rw [List.length_append]
      show 2 + 2 + (4 + data.length) = 8 + data.length
      omega
    exact ipChecksum_filled heven hlength hlen hm

/-- The message has the type, and the fields and the data of the request. -/
structure IsEchoReply (id sequence : BitVec 16) (data reply : List Byte) : Prop where
  length : reply.length = 8 + data.length
  type : ofBytes reply 0 = icmpEchoReply
  id : bswap16 (load16 (ofBytes reply) 4) = id
  sequence : bswap16 (load16 (ofBytes reply) 6) = sequence
  data : reply.drop 8 = data
  accepts : ∀ m p, Contains m p reply → IcmpAccepts m p (BitVec.ofNat 64 reply.length)

theorem isEchoReply_echoMessage (hlen : 8 + data.length ≤ 65535) :
    IsEchoReply id sequence data (echoMessage icmpEchoReply id sequence data) := by
  have hbytes := @contains_ofBytes (echoMessage icmpEchoReply id sequence data)
  obtain ⟨hheader, -⟩ := contains_append.mp hbytes
  obtain ⟨-, hfields⟩ := contains_append.mp hheader
  obtain ⟨-, hfields⟩ := contains_append.mp hfields
  obtain ⟨hid, hsequence⟩ := contains_append.mp hfields
  exact {
    length := length_echoMessage
    type := rfl
    id := (congrArg bswap16 hid.load16).trans (bswap16_bswap16 id)
    sequence := (congrArg bswap16 hsequence.load16).trans (bswap16_bswap16 sequence)
    data := rfl
    accepts := fun m p hm => by
      rw [length_echoMessage]
      exact icmpAccepts_of_contains hlen hm }

end

/-! ### The answer -/

/-- The handler sends a reply back to where the request in the payload came from. -/
def EchoAnswered (alloc : ℕ → Bool) (h : Host) (m : Memory) (ipHdr p : ℕ) (id sequence : BitVec 16)
    (data : List Byte) : Prop :=
  ∃ reply, IsEchoReply id sequence data reply ∧
    (icmpHandlePacket alloc h m ipHdr p (BitVec.ofNat 64 (8 + data.length))).value =
      ipSendPacket alloc h (bswap32 (load32 m (ipHdr + 12))) ipProtocolIcmp reply

/-- What becomes of a host on a request. -/
theorem icmpHandlePacket_request {alloc : ℕ → Bool} {h : Host} {m : Memory} {ipHdr p : ℕ}
    {id sequence : BitVec 16} {data : List Byte} (hlen : 8 + data.length ≤ 65535)
    (hm : Contains m p (echoMessage icmpEchoRequest id sequence data)) :
    (icmpHandlePacket alloc h m ipHdr p (BitVec.ofNat 64 (8 + data.length))).value =
      if alloc (8 + data.length) then
        ipSendPacket alloc h (bswap32 (load32 m (ipHdr + 12))) ipProtocolIcmp
          (echoMessage icmpEchoReply id sequence data)
      else h := by
  obtain ⟨hsize, hsum⟩ := icmpAccepts_of_contains hlen hm
  have hchecksum : ipChecksum m p (8 + data.length) = 0#16 := by
    rw [toNat_messageSize hlen] at hsum
    exact hsum
  have htype : m p = 8#8 := (contains_cons.mp hm).1
  have hbytes := hm.bytesAt_eq
  rw [length_echoMessage] at hbytes
  unfold icmpHandlePacket
  simp only [hsize, hchecksum, htype, if_false, ne_eq, not_true_eq_false, if_true, Rx.value_bind,
    Rx.value_checksum, Rx.value_load8, Rx.value_ite, Rx.value_copy, Rx.value_load32, Rx.value_pure,
    toNat_messageSize hlen, hbytes, echoReply_echoMessage]

/-- The checksum verifies itself, is added without overflow, and so every request is accepted, and
answered when there is memory for the reply. -/
theorem echo_answered :
    (∀ (m : Memory) (p : ℕ) (pre post : List Byte), pre.length % 2 = 0 →
      pre.length + 2 + post.length ≤ 65535 →
        Contains m p (pre ++ (store16 (ipChecksum (ofBytes (pre ++ (store16 0 ++ post))) 0
          (pre.length + 2 + post.length)) ++ post)) →
          ipChecksum m p (pre.length + 2 + post.length) = 0) ∧
    (∀ (m : Memory) (p len : ℕ), len ≤ 65535 →
      (sumWords m len p 0).toNat = wordTotal m len p) ∧
    ∀ (alloc : ℕ → Bool) (h : Host) (m : Memory) (ipHdr p : ℕ) (id sequence : BitVec 16)
      (data : List Byte), 8 + data.length ≤ 65535 →
        Contains m p (echoMessage icmpEchoRequest id sequence data) →
          IcmpAccepts m p (BitVec.ofNat 64 (8 + data.length)) ∧
            (alloc (8 + data.length) = true →
              EchoAnswered alloc h m ipHdr p id sequence data) := by
  refine ⟨?_, ?_, ?_⟩
  · intro m p pre post heven hlen hm
    exact ipChecksum_filled heven rfl hlen hm
  · intro m p len hlen
    exact toNat_sumWords m p hlen
  · intro alloc h m ipHdr p id sequence data hlen hm
    refine ⟨icmpAccepts_of_contains hlen hm, fun halloc => ?_⟩
    refine ⟨_, isEchoReply_echoMessage hlen, ?_⟩
    rw [icmpHandlePacket_request hlen hm, if_pos halloc]

/-! ### A reply without memory -/

/-- A request from the second host, in its IP packet. -/
def requestPacket : Memory :=
  ofBytes (ipPacket secondIp firstIp ipProtocolIcmp (echoMessage icmpEchoRequest 1 1 []))

theorem contains_requestPacket :
    Contains requestPacket 20 (echoMessage icmpEchoRequest 1 1 []) ∧
      bswap32 (load32 requestPacket 12) = secondIp := by
  have hbytes : Contains requestPacket 0 (ipPacket secondIp firstIp ipProtocolIcmp
      (echoMessage icmpEchoRequest 1 1 [])) := contains_ofBytes
  obtain ⟨hheader, hmessage⟩ := contains_append.mp hbytes
  rw [length_ipv4Header] at hmessage
  obtain ⟨-, -, -, hsrc, -⟩ := fields_of_ipv4Header hheader
  exact ⟨hmessage, (congrArg bswap32 hsrc).trans (bswap32_bswap32 secondIp)⟩

/-- With memory the request is answered. -/
theorem echo_answered_request : IcmpAccepts requestPacket 20 8 ∧
    EchoAnswered (fun _ => true) (hostKnowing secondIp) requestPacket 0 20 1 1 [] := by
  obtain ⟨haccepts, hanswered⟩ := echo_answered.2.2 (fun _ => true) (hostKnowing secondIp)
    requestPacket 0 20 1 1 [] (by decide) contains_requestPacket.1
  exact ⟨haccepts, hanswered rfl⟩

/-- Where there is no memory for a reply of 8 bytes, no reply is sent. -/
theorem not_echo_answered : ¬ ∀ (alloc : ℕ → Bool) (h : Host) (m : Memory) (ipHdr p : ℕ)
    (id sequence : BitVec 16) (data : List Byte), 8 + data.length ≤ 65535 →
      Contains m p (echoMessage icmpEchoRequest id sequence data) →
        IcmpAccepts m p (BitVec.ofNat 64 (8 + data.length)) ∧
          EchoAnswered alloc h m ipHdr p id sequence data := by
  intro hall
  have hlen : 8 + ([] : List Byte).length ≤ 65535 := by decide
  obtain ⟨hm, hsrc⟩ := contains_requestPacket
  obtain ⟨-, reply, hreply, hvalue⟩ := hall (fun n => n ≠ 8) (hostKnowing secondIp) requestPacket
    0 20 1 1 [] hlen hm
  rw [icmpHandlePacket_request hlen hm, if_neg (by decide)] at hvalue
  have hsize : reply.length = 8 := hreply.length
  have hip : bswap32 (load32 requestPacket (0 + 12)) = secondIp := hsrc
  rw [hip, ipSendPacket_of_mac (destMac_hostKnowing secondIp (by decide))
    (by rw [hsize]; rfl) (by omega)] at hvalue
  have hsent := congrArg (fun k : Host => k.sent.length) hvalue
  simp at hsent

end KyroOS.Net

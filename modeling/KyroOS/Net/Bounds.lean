import KyroOS.Net.Receive

/-!
# The bounds of a received frame

A frame has four fields that tell a length: its own length, `ihl`, `total_length` and the length of
UDP. The receive path subtracts them from each other and reads and passes on what they describe.

## Main definitions

* `InBounds` — what was noted stays inside the frame
* `IpLengths`, `FrameLengths` — the fields of a frame agree

## Main results

* `e1000Receive_inBounds_iff` — the receive path stays inside the frames whose fields agree
* `udpPathsAgree_iff` — the payloads on which the two ways to a UDP socket agree
-/

namespace KyroOS.Net

/-! ### Notes inside a frame -/

/-- Every byte that is read is below the length of the frame, a difference of lengths does not wrap
around, and what is passed on is a range of the frame. -/
def Note.Inside (frame : ℕ) : Note → Prop
  | .read first count => ∀ i < count, first + i < frame
  | .sub a b => b ≤ a
  | .pass _ first count => first + count.toNat ≤ frame

def InBounds (frame : ℕ) (notes : List Note) : Prop := ∀ n ∈ notes, n.Inside frame

section

variable {frame first count : ℕ} {notes notes' : List Note} {n : Note}

@[simp] theorem inBounds_nil : InBounds frame [] := fun _ hn => absurd hn List.not_mem_nil

@[simp] theorem inBounds_cons :
    InBounds frame (n :: notes) ↔ n.Inside frame ∧ InBounds frame notes :=
  List.forall_mem_cons

@[simp] theorem inBounds_append :
    InBounds frame (notes ++ notes') ↔ InBounds frame notes ∧ InBounds frame notes' :=
  List.forall_mem_append

theorem read_inside (h : first + count ≤ frame) : (Note.read first count).Inside frame :=
  fun i hi => by omega

/-- A range that is read is inside the frame when its last byte is. -/
theorem le_of_read_inside (h : (Note.read first count).Inside frame) (hcount : 0 < count) :
    first + count ≤ frame := by
  have hlast := h (count - 1) (by omega)
  omega

end

/-! ### The layers -/

section

variable {alloc : ℕ → Bool} {h : Host} {m : Memory} {frame p payload : ℕ} {size : Word}
  {protocol : Byte}

/-- ICMP stays inside the payload that it gets. -/
theorem icmpHandlePacket_inBounds (hheader : p + 20 ≤ frame)
    (hpayload : payload + size.toNat ≤ frame) :
    InBounds frame (icmpHandlePacket alloc h m p payload size).notes := by
  unfold icmpHandlePacket
  by_cases hsize : size < 8#64
  · simp [hsize]
  · have hsize' : 8 ≤ size.toNat := BitVec.not_lt.mp hsize
    have hread : (Note.read payload size.toNat).Inside frame := read_inside hpayload
    have htype : (Note.read payload 1).Inside frame := read_inside (by omega)
    have hsrc : (Note.read (p + 12) 4).Inside frame := read_inside (by omega)
    by_cases hsum : ipChecksum m payload size.toNat = 0#16
    · by_cases hecho : m payload = 8#8
      · cases alloc size.toNat <;> simp [hsize, hsum, hecho, hread, htype, hsrc]
      · simp [hsize, hsum, hecho, hread, htype]
    · simp [hsize, hsum, hread]

/-- ARP stays inside the packet that it gets. -/
theorem arpHandlePacket_inBounds (hpacket : p + size.toNat ≤ frame) :
    InBounds frame (arpHandlePacket alloc h m p size).notes := by
  unfold arpHandlePacket
  by_cases hsize : size < 28#64
  · simp [hsize]
  · have hsize' : 28 ≤ size.toNat := BitVec.not_lt.mp hsize
    have hread : ∀ first count, first + count ≤ 28 →
        (Note.read (p + first) count).Inside frame :=
      fun first count hle => read_inside (by omega)
    have hformat : InBounds frame (arpFormat m p).notes := by
      have h₀ : (Note.read p 2).Inside frame := read_inside (by omega)
      unfold arpFormat
      by_cases h₁ : bswap16 (load16 m p) = 0x0001#16
      · by_cases h₂ : bswap16 (load16 m (p + 2)) = 0x0800#16
        · by_cases h₃ : m (p + 4) = 0x06#8 <;> simp [h₁, h₂, h₃, h₀, hread]
        · simp [h₁, h₂, h₀, hread]
      · simp [h₁, h₀]
    cases hvalue : (arpFormat m p).value with
    | false => simp [hsize, hformat, hvalue]
    | true =>
      by_cases hop : bswap16 (load16 m (p + 6)) = arpOpcodeRequest
      · by_cases hip : bswap32 (load32 m (p + 24)) = h.localIp
        · cases alloc 42 <;> simp [hsize, hformat, hvalue, hop, hip, hread]
        · simp [hsize, hformat, hvalue, hip, hread]
      · simp [hsize, hformat, hvalue, hop, hread]

/-- The handler of the sockets stays inside the data that it gets. -/
theorem sockUdpReceive_inBounds {udpHdr data : ℕ} {len : Word} (hheader : udpHdr + 4 ≤ frame)
    (hdata : data + len.toNat ≤ frame) :
    InBounds frame (sockUdpReceivePacketHandler alloc h m udpHdr data len).notes := by
  have hport : (Note.read (udpHdr + 2) 2).Inside frame := read_inside (by omega)
  have hpass : ∀ receiver, (Note.pass receiver data len).Inside frame := fun _ => hdata
  unfold sockUdpReceivePacketHandler
  by_cases hdhcp : bswap16 (load16 m (udpHdr + 2)) = 68#16 ∨ bswap16 (load16 m (udpHdr + 2)) = 67#16
  · simp [hdhcp, hport, hpass]
  · cases hfind : h.findBound (load16 m (udpHdr + 2)) with
    | none => simp [hdhcp, hport, hfind]
    | some s =>
      by_cases hspace : s.udpData.spaceAvailable < len.toNat
      · simp [hdhcp, hport, hfind, hspace]
      · simp [hdhcp, hport, hfind, hspace, hpass]

/-- A UDP payload needs the length of a header. -/
theorem sockHandleIncomingPacket_inBounds_iff (hpayload : payload + size.toNat ≤ frame) :
    InBounds frame (sockHandleIncomingPacket alloc h m payload size protocol).notes ↔
      (protocol = ipProtocolUdp → 8 ≤ size.toNat) := by
  unfold sockHandleIncomingPacket
  by_cases hudp : protocol = ipProtocolUdp
  · simp only [hudp, if_true, Rx.notes_bind, Rx.notes_sub, Rx.value_sub, Rx.notes_pass,
      inBounds_append, inBounds_cons, inBounds_nil, and_true, true_imp_iff]
    constructor
    · exact fun h => h.1
    · intro hsize
      have hsize' : 8#64 ≤ size := hsize
      have hlen : (size - 8).toNat = size.toNat - 8 := BitVec.toNat_sub_of_le hsize'
      have hdata : payload + 8 + (size - 8).toNat ≤ frame := by omega
      exact ⟨hsize', hdata, sockUdpReceive_inBounds (by omega) hdata⟩
  · simp [hudp]

/-- The dispatch stays inside when the size of the payload fits and, for UDP, covers a header. -/
theorem ipDispatch_inBounds_iff (hheader : p + 20 ≤ frame) :
    InBounds frame (ipDispatch alloc h m p protocol size).notes ↔
      ((protocol = ipProtocolIcmp ∨ protocol = ipProtocolUdp ∨ protocol = ipProtocolTcp) →
        p + (ipHdrLen m p).toNat + size.toNat ≤ frame) ∧
      (protocol = ipProtocolUdp → 8 ≤ size.toNat) := by
  unfold ipDispatch
  by_cases hicmp : protocol = ipProtocolIcmp
  · have hne : ipProtocolIcmp ≠ ipProtocolUdp := by decide
    simp only [hicmp, if_true, Rx.notes_bind, Rx.notes_pass, inBounds_append, inBounds_cons,
      inBounds_nil, and_true, true_or, true_imp_iff, hne, false_imp_iff]
    exact and_iff_left_of_imp fun hpass => icmpHandlePacket_inBounds hheader hpass
  · by_cases hsock : protocol = ipProtocolUdp ∨ protocol = ipProtocolTcp
    · simp only [hicmp, if_false, hsock, if_true, Rx.notes_bind, Rx.notes_pass, inBounds_append,
        inBounds_cons, inBounds_nil, and_true, or_true, true_imp_iff]
      exact and_congr_right fun hpass => sockHandleIncomingPacket_inBounds_iff hpass
    · obtain ⟨hudp, htcp⟩ := not_or.mp hsock
      simp [hicmp, hudp, htcp]

end

/-! ### Fields that agree -/

section

variable (h : Host) (m : Memory)

/-- `ihl * 4` and `total_length` of a packet. -/
def headerLength (p : ℕ) : ℕ := 4 * (ihl m p).toNat

def totalLength (p : ℕ) : ℕ := (bswap16 (load16 m (p + 2))).toNat

/-- The fields of an IP packet agree: the header fits, and in a packet that is not dropped
`total_length` covers the header, does not exceed the packet when the payload goes to a protocol,
and covers a UDP header. -/
def IpLengths (p : ℕ) (size : Word) : Prop :=
  20#64 ≤ size → version m p = 4#4 → 5#4 ≤ ihl m p →
    headerLength m p ≤ size.toNat ∧
      (IpAccepts h m p size → headerLength m p ≤ totalLength m p ∧
        ((m (p + 9) = ipProtocolIcmp ∨ m (p + 9) = ipProtocolUdp ∨ m (p + 9) = ipProtocolTcp) →
          totalLength m p ≤ size.toNat) ∧
        (m (p + 9) = ipProtocolUdp → headerLength m p + 8 ≤ totalLength m p))

/-- The fields of a frame agree. -/
def FrameLengths (length : BitVec 16) : Prop :=
  14#16 < length → bswap16 (load16 m 12) = ipv4EtherType →
    IpLengths h m 14 (length.setWidth 64 - 14)

end

section

variable {alloc : ℕ → Bool} {h : Host} {m : Memory} {frame p : ℕ} {size : Word}

theorem toNat_ipHdrLen : (ipHdrLen m p).toNat = headerLength m p := by
  have hlt := (ihl m p).isLt
  rw [ipHdrLen, headerLength, BitVec.toNat_mul, BitVec.toNat_setWidth_of_le (by omega)]
  show (ihl m p).toNat * 4 % 2 ^ 64 = _
  omega

theorem toNat_totalLength :
    ((bswap16 (load16 m (p + 2))).setWidth 64 : Word).toNat = totalLength m p :=
  BitVec.toNat_setWidth_of_le (by omega)

/-- IP stays inside the packets whose fields agree. -/
theorem ipHandlePacket_inBounds_iff (hframe : p + size.toNat = frame) :
    InBounds frame (ipHandlePacket alloc h m p size).notes ↔ IpLengths h m p size := by
  by_cases hsize : size < 20#64
  · have hno : ¬ 20#64 ≤ size := BitVec.not_le.mpr hsize
    simp [ipHandlePacket, hsize, IpLengths, hno]
  · have hsize' : 20#64 ≤ size := BitVec.not_lt.mp hsize
    have hheader : p + 20 ≤ frame := by
      have hle : 20 ≤ size.toNat := hsize'
      omega
    have hfirst : (Note.read p 1).Inside frame := read_inside (by omega)
    by_cases hversion : version m p = 4#4
    · by_cases hihl : ihl m p < 5#4
      · have hno : ¬ 5#4 ≤ ihl m p := BitVec.not_le.mpr hihl
        simp [ipHandlePacket, hsize, hversion, hihl, IpLengths, hno, hfirst]
      · have hihl' : 5#4 ≤ ihl m p := BitVec.not_lt.mp hihl
        have hpos : 0 < headerLength m p := by
          have hle : 5 ≤ (ihl m p).toNat := hihl'
          rw [headerLength]
          omega
        have hsum : (Note.read p (headerLength m p)).Inside frame ↔
            headerLength m p ≤ size.toNat := by
          constructor
          · intro hread
            have hle := le_of_read_inside hread hpos
            omega
          · exact fun hle => read_inside (by omega)
        have hreads : (Note.read (p + 16) 4).Inside frame ∧ (Note.read (p + 9) 1).Inside frame ∧
            (Note.read (p + 2) 2).Inside frame :=
          ⟨read_inside (by omega), read_inside (by omega), read_inside (by omega)⟩
        obtain ⟨hdest, hprotocol, htotal⟩ := hreads
        by_cases haccepts : IpAccepts h m p size
        · have hsub : (Note.sub ((bswap16 (load16 m (p + 2))).setWidth 64) (ipHdrLen m p)).Inside
              frame ↔ headerLength m p ≤ totalLength m p := by
            rw [← toNat_ipHdrLen, ← toNat_totalLength]
            rfl
          have hpayload : headerLength m p ≤ totalLength m p →
              (ipPayloadSize m p).toNat = totalLength m p - headerLength m p := by
            intro hle
            rw [← toNat_ipHdrLen, ← toNat_totalLength] at hle ⊢
            exact BitVec.toNat_sub_of_le hle
          simp only [(ipHandlePacket_of_accepts haccepts).2, inBounds_cons, hfirst, hsum, hdest,
            hprotocol, htotal, hsub, true_and, ipDispatch_inBounds_iff hheader, toNat_ipHdrLen,
            IpLengths, hsize', hversion, hihl', haccepts, true_imp_iff]
          -- the payload of a packet whose header fits
          refine and_congr_right fun _ => and_congr_right fun hle => ?_
          rw [hpayload hle]
          refine and_congr (imp_congr_right fun _ => ?_) (imp_congr_right fun _ => ?_) <;> omega
        · have hrest : InBounds frame (ipHandlePacket alloc h m p size).notes ↔
              (Note.read p (headerLength m p)).Inside frame := by
            rw [← toNat_ipHdrLen]
            by_cases hcheck : ipChecksum m p (ipHdrLen m p).toNat = 0#16
            · have hother : bswap32 (load32 m (p + 16)) ≠ h.localIp ∧
                  bswap32 (load32 m (p + 16)) ≠ broadcastIp :=
                not_or.mp fun hdest => haccepts ⟨⟨hsize', hversion, hihl', hcheck⟩, hdest⟩
              simp [ipHandlePacket, hsize, hversion, hihl, hcheck, hother, hfirst, hdest]
            · simp [ipHandlePacket, hsize, hversion, hihl, hcheck, hfirst]
          rw [hrest, hsum]
          simp only [IpLengths, hsize', hversion, hihl', haccepts, true_imp_iff, false_imp_iff,
            and_true]
    · simp [ipHandlePacket, hsize, hversion, IpLengths, hfirst]

/-- The receive path stays inside the frames whose fields agree. -/
theorem e1000Receive_inBounds_iff (alloc : ℕ → Bool) (h : Host) (m : Memory)
    (length : BitVec 16) :
    InBounds length.toNat (e1000Receive alloc h m length).notes ↔ FrameLengths h m length := by
  have hwidth : (length.setWidth 64 : Word).toNat = length.toNat :=
    BitVec.toNat_setWidth_of_le (by omega)
  by_cases hsmall : length ≤ 14#16
  · have hno : ¬ 14#16 < length := BitVec.not_lt.mpr hsmall
    simp [e1000Receive, hsmall, FrameLengths, hno]
  · have hlarge : 14#16 < length := BitVec.not_le.mp hsmall
    have hlt : 14 < length.toNat := hlarge
    have hsub := toNat_frameSize hlt.le
    have htype : (Note.read 12 2).Inside length.toNat := read_inside (by omega)
    have hnosub : (Note.sub (length.setWidth 64) 14#64).Inside length.toNat := by
      show 14 ≤ (length.setWidth 64 : Word).toNat
      omega
    have hpass : ∀ receiver,
        (Note.pass receiver 14 (length.setWidth 64 - 14#64)).Inside length.toNat := by
      intro receiver
      show 14 + (length.setWidth 64 - 14#64 : Word).toNat ≤ _
      omega
    by_cases harp : bswap16 (load16 m 12) = arpEtherType
    · have hne : arpEtherType ≠ ipv4EtherType := by decide
      have hinner : InBounds length.toNat
          (arpHandlePacket alloc h m 14 (length.setWidth 64 - 14#64)).notes :=
        arpHandlePacket_inBounds (by omega)
      simp [e1000Receive, hsmall, harp, htype, hnosub, hpass, hinner, FrameLengths, hne]
    · by_cases hip : bswap16 (load16 m 12) = ipv4EtherType
      · have hinner : InBounds length.toNat
            (ipHandlePacket alloc h m 14 (length.setWidth 64 - 14#64)).notes ↔
              IpLengths h m 14 (length.setWidth 64 - 14#64) :=
          ipHandlePacket_inBounds_iff (by omega)
        have hne : ipv4EtherType ≠ arpEtherType := by decide
        simp [e1000Receive, hsmall, hip, hne, htype, hnosub, hpass, hinner, FrameLengths, hlarge]
      · simp [e1000Receive, hsmall, harp, hip, htype, FrameLengths]

end

/-- A frame that ends with its IP header, in which `ihl` tells of a header of 60 bytes. -/
def longHeaderFrame : Memory :=
  ofBytes (ethernetHeader .broadcast (fun _ => 0) ipv4EtherType ++ [0x4F#8])

/-- The checksum of that header reads behind the end of the frame. -/
theorem not_e1000Receive_inBounds : ¬ ∀ alloc h m (length : BitVec 16),
    InBounds length.toNat (e1000Receive alloc h m length).notes := by
  intro hall
  have hread := hall (fun _ => true) (freshHost (fun _ => 0) 0) longHeaderFrame 34#16
    (.read 14 60) (by decide)
  exact absurd (hread 59 (by decide)) (by decide)

/-! ### The two ways to a UDP socket -/

section

variable (alloc : ℕ → Bool) (h : Host) (m : Memory) (p : ℕ) (size : Word)

/-- The data that the handler of the sockets gets: its position and its length. -/
def handed (notes : List Note) : List (ℕ × Word) :=
  notes.filterMap fun
    | .pass .sockUdpReceivePacketHandler first count => some (first, count)
    | _ => none

/-- The length in a UDP header. -/
def udpLength : BitVec 16 := bswap16 (load16 m (p + 4))

/-- On a UDP payload both ways give the handler of the sockets the same, which is nothing or the data
of a datagram that has a header and does not exceed the payload. -/
def UdpPathsAgree : Prop :=
  handed (sockHandleIncomingPacket alloc h m p size ipProtocolUdp).notes =
      handed (udpHandlePacket alloc h m p size).notes ∧
    ∀ first count, (first, count) ∈
        handed (sockHandleIncomingPacket alloc h m p size ipProtocolUdp).notes →
      8 ≤ (udpLength m p).toNat ∧ (udpLength m p).toNat ≤ size.toNat ∧ first = p + 8 ∧
        count.toNat = (udpLength m p).toNat - 8

end

section

variable {alloc : ℕ → Bool} {h : Host} {m : Memory} {p : ℕ} {size : Word}

theorem handed_append (notes notes' : List Note) :
    handed (notes ++ notes') = handed notes ++ handed notes' :=
  List.filterMap_append

/-- The handler itself hands nothing to the handler. -/
theorem handed_sockUdpReceive (udpHdr data : ℕ) (len : Word) :
    handed (sockUdpReceivePacketHandler alloc h m udpHdr data len).notes = [] := by
  unfold sockUdpReceivePacketHandler
  by_cases hdhcp : bswap16 (load16 m (udpHdr + 2)) = 68#16 ∨ bswap16 (load16 m (udpHdr + 2)) = 67#16
  · simp [hdhcp, handed]
  · cases hfind : h.findBound (load16 m (udpHdr + 2)) with
    | none => simp [hdhcp, hfind, handed]
    | some s =>
      by_cases hspace : s.udpData.spaceAvailable < len.toNat <;>
        simp [hdhcp, hfind, hspace, handed]

/-- The way of the sockets hands every payload on. -/
theorem handed_sockHandleIncomingPacket :
    handed (sockHandleIncomingPacket alloc h m p size ipProtocolUdp).notes = [(p + 8, size - 8)] := by
  have hinner := @handed_sockUdpReceive alloc h m p (p + 8) (size - 8)
  unfold sockHandleIncomingPacket
  simp only [if_true, Rx.notes_bind, Rx.notes_sub, Rx.value_sub, Rx.notes_pass, handed_append,
    hinner]
  rfl

/-- The way of UDP, with the handler registered for the port. -/
theorem handed_udpHandlePacket (hport : bswap16 (load16 m (p + 2)) ∈ h.udpHandlers) :
    handed (udpHandlePacket alloc h m p size).notes =
      if size.toNat < 8 ∨ size.toNat < (udpLength m p).toNat then []
      else [(p + 8, (udpLength m p).setWidth 64 - 8)] := by
  have hwidth : ((udpLength m p).setWidth 64 : Word).toNat = (udpLength m p).toNat :=
    BitVec.toNat_setWidth_of_le (by omega)
  have hinner := @handed_sockUdpReceive alloc h m p (p + 8)
    ((udpLength m p).setWidth 64 - 8)
  unfold udpHandlePacket
  by_cases hsize : size < 8#64
  · have hsize' : size.toNat < 8 := hsize
    simp [hsize, hsize', handed]
  · have hsize' : ¬ size.toNat < 8 := hsize
    by_cases hlen : size < (udpLength m p).setWidth 64
    · have hlen' : size.toNat < (udpLength m p).toNat := hwidth ▸ hlen
      refine Eq.trans ?_ (if_pos (Or.inr hlen')).symm
      rw [udpLength] at hlen
      simp [hsize, hlen, handed]
    · have hlen' : ¬ size.toNat < (udpLength m p).toNat := hwidth ▸ hlen
      refine Eq.trans ?_ (if_neg (not_or.mpr ⟨hsize', hlen'⟩)).symm
      rw [udpLength] at hlen hinner ⊢
      simp only [hsize, if_false, hlen, hport, if_true, Rx.notes_bind, Rx.notes_load16,
        Rx.value_load16, Rx.notes_sub, Rx.value_sub, Rx.notes_pass, handed_append,
        hinner]
      rfl

/-- The two ways agree on the payloads that are as long as their UDP header says. -/
theorem udpPathsAgree_iff (hport : bswap16 (load16 m (p + 2)) ∈ h.udpHandlers) :
    UdpPathsAgree alloc h m p size ↔ 8 ≤ size.toNat ∧ (udpLength m p).toNat = size.toNat := by
  unfold UdpPathsAgree
  rw [handed_sockHandleIncomingPacket, handed_udpHandlePacket hport]
  constructor
  · rintro ⟨hsame, hdata⟩
    obtain ⟨hlen, hle, -, hcount⟩ := hdata (p + 8) (size - 8) List.mem_cons_self
    have hsize : 8#64 ≤ size := hlen.trans hle
    have hsub : (size - 8).toNat = size.toNat - 8 := BitVec.toNat_sub_of_le hsize
    omega
  · rintro ⟨hsize, hlen⟩
    have heq : (udpLength m p).setWidth 64 = size := by
      apply BitVec.eq_of_toNat_eq
      rw [BitVec.toNat_setWidth_of_le (by omega)]
      exact hlen
    have hsub : (size - 8).toNat = size.toNat - 8 := by
      have hle : 8#64 ≤ size := hsize
      exact BitVec.toNat_sub_of_le hle
    rw [if_neg (by omega), heq]
    refine ⟨rfl, fun first count hmem => ?_⟩
    obtain ⟨rfl, rfl⟩ := Prod.mk.inj (List.mem_singleton.mp hmem)
    omega

/-- A payload of 12 bytes for a port, which holds a datagram of 12 bytes. -/
def shortDatagram : Memory := ofBytes (udpDatagram 9 7 [1#8, 2#8, 3#8, 4#8])

/-- A host with the handler for that port. -/
def listeningHost : Host := { freshHost (fun _ => 0) 0 with udpHandlers := [7#16] }

theorem udpPathsAgree_shortDatagram : UdpPathsAgree (fun _ => true) listeningHost shortDatagram 0 12 :=
  (udpPathsAgree_iff (by decide)).mpr (by decide)

/-- With two bytes of padding behind the datagram the two ways do not agree. -/
theorem not_udpPathsAgree : ¬ ∀ alloc h m p (size : Word),
    bswap16 (load16 m (p + 2)) ∈ h.udpHandlers → UdpPathsAgree alloc h m p size := by
  intro hall
  have hagree := hall (fun _ => true) listeningHost shortDatagram 0 14 (by decide)
  obtain ⟨-, hdata⟩ := hagree
  rw [handed_sockHandleIncomingPacket] at hdata
  exact absurd (hdata 8 6 List.mem_cons_self).2.2.2 (by decide)

end

end KyroOS.Net

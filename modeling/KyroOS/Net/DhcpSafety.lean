import KyroOS.Lib.Transition
import KyroOS.Net.DhcpAddress

/-!
# What a DHCP client installs

The client takes the first OFFER, asks for the address in it, and installs the address of the
first ACK that comes then.

## Main definitions

* `serverId`, `IsReply` — the server identifier of a packet, and replies for the client by type
* `Client`, `DhcpEvent`, `dhcpSystem` — a host with the offer its client has chosen, and the runs of
  its start and of payloads
* `SafePacket` — a packet changes the configuration only as an ACK, and installs what was offered
* `AcksOffer` — an ACK has the address and the server of the offer

## Main results

* `offered_of_reachable` — what is asked for is what was offered
* `safePacket_iff` — a packet is safe exactly when, if it is an ACK, it acknowledges the offer
-/

namespace KyroOS.Net

open Transition

/-! ### Replies -/

section

variable (m : Memory) (p : ℕ) (len : Word)

/-- The server identifier of a packet. -/
def serverId : Option (BitVec 32) :=
  (findOption m (endOfData p len) 54#8 (endOfData p len) (p + 240)).map fun opt =>
    load32 m (opt + 2)

/-- A BOOTREPLY to the client, with a message of the given type. -/
structure IsReply (type : Byte) : Prop where
  long : 240#64 ≤ len
  op : m p = 2#8
  xid : load32 m (p + 4) = bswap32 dhcpXid
  message : messageType m p len = type

end

/-- The address, the mask and the gateway of the IP layer. -/
def Host.ipConfig (h : Host) : BitVec 32 × BitVec 32 × BitVec 32 :=
  (h.localIp, h.subnetMask, h.defaultGateway)

section

variable {alloc : ℕ → Bool} {h : Host} {m : Memory} {p : ℕ} {len : Word}

theorem dhcpSendRequest_eq : dhcpSendRequest alloc h =
    { h with sent := (dhcpSendRequest alloc h).sent } := udpSendPacket_eq ..

/-- A client that waits for an OFFER takes it, and asks for the address in it. -/
theorem dhcpHandlePacket_offer (hstate : h.dhcp.state = .selecting) (hreply : IsReply m p len 2#8) :
    dhcpHandlePacket alloc h m p len =
      { h with
        dhcp := { h.dhcp with
          localIp := load32 m (p + 16)
          serverIp := (serverId m p len).getD h.dhcp.serverIp
          state := .requesting }
        sent := (dhcpHandlePacket alloc h m p len).sent } := by
  have hlen : ¬ len < 240#64 := BitVec.not_lt.mpr hreply.long
  have hformat : ¬ (m p ≠ 2#8 ∨ load32 m (p + 4) ≠ bswap32 dhcpXid) :=
    not_or.mpr ⟨not_not.mpr hreply.op, not_not.mpr hreply.xid⟩
  have hresult : dhcpHandlePacket alloc h m p len = dhcpSendRequest alloc
      { h with dhcp := { h.dhcp with
        localIp := load32 m (p + 16)
        serverIp := (serverId m p len).getD h.dhcp.serverIp
        state := .requesting } } := by
    unfold dhcpHandlePacket
    rw [if_neg hlen, if_neg hformat]
    dsimp only
    rw [if_pos ⟨hstate, hreply.message⟩, serverId]
    cases findOption m (endOfData p len) 54#8 (endOfData p len) (p + 240) with
    | none => rfl
    | some opt => rfl
  rw [hresult, dhcpSendRequest_eq]

variable (alloc h m p len) in
/-- A packet does nothing, or is an OFFER that is taken, or an ACK. -/
theorem dhcpHandlePacket_cases :
    (dhcpHandlePacket alloc h m p len = h ∧
      ¬ (h.dhcp.state = .requesting ∧ IsReply m p len 5#8)) ∨
    (h.dhcp.state = .selecting ∧ IsReply m p len 2#8 ∧
      (dhcpHandlePacket alloc h m p len).ipConfig = h.ipConfig ∧
      (dhcpHandlePacket alloc h m p len).dhcp =
        { h.dhcp with
          localIp := load32 m (p + 16)
          serverIp := (serverId m p len).getD h.dhcp.serverIp
          state := .requesting }) ∨
    (h.dhcp.state = .requesting ∧ IsReply m p len 5#8 ∧
      (dhcpHandlePacket alloc h m p len).localIp = load32 m (p + 16) ∧
      (dhcpHandlePacket alloc h m p len).dhcp.state = .bound) := by
  by_cases hlen : len < 240#64
  · refine .inl ⟨if_pos hlen, fun hack => ?_⟩
    exact absurd hlen (BitVec.not_lt.mpr hack.2.long)
  by_cases hformat : m p ≠ 2#8 ∨ load32 m (p + 4) ≠ bswap32 dhcpXid
  · refine .inl ⟨(if_neg hlen).trans (if_pos hformat), fun hack => ?_⟩
    exact hformat.elim (fun hop => hop hack.2.op) fun hxid => hxid hack.2.xid
  obtain ⟨hop, hxid⟩ := not_or.mp hformat
  have hreply : ∀ type, messageType m p len = type → IsReply m p len type := fun type htype =>
    ⟨BitVec.not_lt.mp hlen, not_not.mp hop, not_not.mp hxid, htype⟩
  by_cases hoffer : h.dhcp.state = .selecting ∧ messageType m p len = 2#8
  · have htaken := @dhcpHandlePacket_offer alloc _ _ _ _ hoffer.1 (hreply _ hoffer.2)
    rw [htaken]
    exact .inr (.inl ⟨hoffer.1, hreply _ hoffer.2, rfl, rfl⟩)
  by_cases hack : h.dhcp.state = .requesting ∧ messageType m p len = 5#8
  · have hbound : (dhcpHandlePacket alloc h m p len).dhcp.state = .bound :=
      dhcpHandlePacket_ack hack.1 (BitVec.not_lt.mp hlen) (not_not.mp hop) (not_not.mp hxid) hack.2
    exact .inr (.inr ⟨hack.1, hreply _ hack.2, (dhcpHandlePacket_bound hack.1 hbound).1, hbound⟩)
  · refine .inl ⟨?_, fun hreply => hack ⟨hreply.1, hreply.2.message⟩⟩
    unfold dhcpHandlePacket
    rw [if_neg hlen, if_neg hformat]
    dsimp only
    rw [if_neg hoffer, if_neg hack]

end

/-! ### Runs -/

/-- An OFFER that was taken, with the options of the DHCPREQUEST that was sent for it. -/
structure Offer where
  address : BitVec 32
  server : Option (BitVec 32)
  request : List Byte

/-- A host, with the offer that its client has chosen. -/
structure Client where
  host : Host
  offer : Option Offer

/-- The start of the client, or a payload for it. -/
inductive DhcpEvent
  | start (alloc : ℕ → Bool)
  | payload (alloc : ℕ → Bool) (m : Memory) (p : ℕ) (len : Word)

/-- The client after an event. -/
def Client.after (c : Client) : DhcpEvent → Client
  | .start alloc => { c with host := dhcpClientStart alloc c.host }
  | .payload alloc m p len =>
    let host := dhcpHandlePacket alloc c.host m p len
    { host
      offer :=
        if c.host.dhcp.state = .selecting ∧ host.dhcp.state = .requesting then
          some ⟨load32 m (p + 16), serverId m p len, requestOptions host.dhcp⟩
        else c.offer }

/-- The runs of a client that has not been started. -/
def dhcpSystem : System Client DhcpEvent where
  init c := c.host.dhcp = ⟨.init, 0, 0, 0, 0⟩ ∧ c.offer = none
  step c e c' := c' = c.after e

/-! ### What is claimed of a packet -/

/-- A payload takes the host from `h` to `h'`. It changes the configuration only as a reply of type
ACK that brings the client from `requesting` to `bound`; what it installs then was offered and asked
for, and comes from the server of the offer; and it changes nothing when the client is `bound`. -/
structure SafePacket (c : Client) (m : Memory) (p : ℕ) (len : Word) (h' : Host) : Prop where
  changes : h'.ipConfig ≠ c.host.ipConfig →
    c.host.dhcp.state = .requesting ∧ h'.dhcp.state = .bound ∧ IsReply m p len 5#8
  installs : c.host.dhcp.state = .requesting → h'.dhcp.state = .bound →
    ∃ offer, c.offer = some offer ∧ h'.localIp = offer.address ∧
      ([50#8, 4#8] ++ store32 h'.localIp) <:+: offer.request ∧
      ∀ server ∈ offer.server, serverId m p len = some server
  bound : c.host.dhcp.state = .bound → h'.ipConfig = c.host.ipConfig

/-- If the payload is an ACK that the client waits for, it has the address of the offer, and the
server identifier of the offer if the offer has one. -/
def AcksOffer (c : Client) (m : Memory) (p : ℕ) (len : Word) : Prop :=
  c.host.dhcp.state = .requesting → IsReply m p len 5#8 → ∀ offer ∈ c.offer,
    load32 m (p + 16) = offer.address ∧ ∀ server ∈ offer.server, serverId m p len = some server

/-- A client that waits for an ACK has asked for what was offered. -/
def Offered (c : Client) : Prop :=
  c.host.dhcp.state = .requesting → ∃ offer, c.offer = some offer ∧
    ([50#8, 4#8] ++ store32 offer.address) <:+: offer.request

section

variable {alloc : ℕ → Bool} {c c' : Client} {m : Memory} {p : ℕ} {len : Word} {e : DhcpEvent}

theorem infix_requestOptions (d : DhcpClient) :
    ([50#8, 4#8] ++ store32 d.localIp) <:+: requestOptions d := by
  refine ⟨[53#8, 1#8, 3#8],
    (if d.serverIp ≠ 0 then [54#8, 4#8] ++ store32 d.serverIp else []) ++ [255#8], ?_⟩
  simp only [requestOptions, List.append_assoc, List.cons_append, List.nil_append]

theorem dhcpClientStart_state : (dhcpClientStart alloc c.host).dhcp.state ≠ .requesting ∨
    dhcpClientStart alloc c.host = c.host := by
  unfold dhcpClientStart
  split
  · exact .inl (by simp)
  · exact .inr rfl

/-- The step lemma. -/
theorem Offered.step (h : Offered c) : Offered (c.after e) := by
  cases e with
  | start alloc =>
    intro hstate
    rcases dhcpClientStart_state with hnot | hsame
    · exact absurd hstate hnot
    · exact h (hsame ▸ hstate)
  | payload alloc m p len =>
    intro hstate
    dsimp only [Client.after] at hstate ⊢
    rcases dhcpHandlePacket_cases alloc c.host m p len with ⟨hsame, -⟩ |
      ⟨hselecting, -, -, hdhcp⟩ | ⟨-, -, -, hbound⟩
    · rw [hsame] at hstate ⊢
      rw [if_neg fun hboth => absurd (hboth.1.symm.trans hstate) (by decide)]
      exact h hstate
    · rw [if_pos ⟨hselecting, hstate⟩]
      refine ⟨_, rfl, ?_⟩
      have hasked := infix_requestOptions (dhcpHandlePacket alloc c.host m p len).dhcp
      rw [hdhcp] at hasked ⊢
      exact hasked
    · exact absurd (hstate.symm.trans hbound) (by decide)

/-- The run lemma. -/
theorem offered_of_reachable (h : dhcpSystem.Reachable c) : Offered c := by
  apply h.invariant
  · intro c₀ hinit hstate
    rw [hinit.1] at hstate
    cases hstate
  · intro c₀ e c₁ hoffered _ hstep
    exact hstep ▸ hoffered.step

end

/-! ### An OFFER and an ACK -/

/-- A reply of a type, with an address in network byte order. -/
def replyPacket (type : Byte) (ip : BitVec 32) : List Byte :=
  [2#8, 1#8, 6#8, 0#8] ++ store32 (bswap32 dhcpXid) ++ List.replicate 8 0#8 ++
    store32 (bswap32 ip) ++ List.replicate 220 0#8 ++ [53#8, 1#8, type, 255#8]

section

variable {type : Byte} {ip : BitVec 32} {alloc : ℕ → Bool} {c : Client}

theorem replyPacket_fields : IsReply (ofBytes (replyPacket type ip)) 0 244#64 type ∧
    load32 (ofBytes (replyPacket type ip)) (0 + 16) = bswap32 ip ∧
    serverId (ofBytes (replyPacket type ip)) 0 244#64 = none := by
  have hpacket := @contains_ofBytes (replyPacket type ip)
  simp only [replyPacket, contains_append, List.length_append, List.length_cons, List.length_nil,
    length_store32, List.length_replicate, Nat.reduceAdd] at hpacket
  obtain ⟨⟨⟨⟨⟨-, hxid⟩, -⟩, hyiaddr⟩, -⟩, hoptions⟩ := hpacket
  simp only [contains_cons] at hoptions
  obtain ⟨hcode, hlength, htype, hlast, -⟩ := hoptions
  have hend : endOfData 0 244#64 = 244 := rfl
  have hfind : findOption (ofBytes (replyPacket type ip)) 244 53#8 244 240 = some 240 := by
    rw [findOption, replyPacket, hcode]
    rfl
  refine ⟨⟨by decide, rfl, hxid.load32, ?_⟩, hyiaddr.load32, ?_⟩
  · rw [messageType, hend, hfind]
    exact htype
  · -- the scan goes over the type to the end of the options
    have hscan : findOption (ofBytes (replyPacket type ip)) 244 54#8 244 240 = none := by
      rw [findOption, replyPacket, hcode, hlength]
      refine (if_pos ⟨by decide, by decide⟩).trans ((if_neg (by decide)).trans ?_)
      rw [findOption]
      exact if_neg fun hmore => hmore.2 hlast
    rw [serverId, hend, hscan]
    rfl

theorem after_start (hstate : c.host.dhcp.state = .init) {c' : Client}
    (hafter : c' = c.after (.start alloc)) : c'.host.dhcp.state = .selecting := by
  have hstart : (dhcpClientStart alloc c.host).dhcp.state = .selecting := by
    rw [dhcpClientStart, if_pos hstate]
  rw [hafter]
  exact hstart

/-- A client that waits for an OFFER takes the one that comes. -/
theorem after_offer (hstate : c.host.dhcp.state = .selecting) {c' : Client}
    (hafter : c' = c.after (.payload alloc (ofBytes (replyPacket 2#8 ip)) 0 244#64)) :
    c'.host.dhcp.state = .requesting ∧
      ∃ offer, c'.offer = some offer ∧ offer.address = bswap32 ip ∧ offer.server = none := by
  obtain ⟨hreply, hyiaddr, hserver⟩ := @replyPacket_fields 2#8 ip
  have hrequesting : (dhcpHandlePacket alloc c.host (ofBytes (replyPacket 2#8 ip)) 0
      244#64).dhcp.state = .requesting := by
    rw [dhcpHandlePacket_offer hstate hreply]
  rw [hafter]
  exact ⟨hrequesting, _, if_pos ⟨hstate, hrequesting⟩, hyiaddr, hserver⟩

/-- A client that has been started. -/
def startedClient : Client :=
  Client.after ⟨freshHost secondMac 0, none⟩ (.start fun _ => true)

/-- It has taken an OFFER of 10.0.2.15. -/
def offeredClient : Client :=
  startedClient.after (.payload (fun _ => true) (ofBytes (replyPacket 2#8 0x0A00020F#32)) 0 244#64)

theorem startedClient_state : startedClient.host.dhcp.state = .selecting :=
  @after_start (fun _ => true) ⟨freshHost secondMac 0, none⟩ rfl startedClient rfl

theorem reachable_offeredClient : dhcpSystem.Reachable offeredClient := by
  have hinit : dhcpSystem.Reachable ⟨freshHost secondMac 0, none⟩ := .init ⟨rfl, rfl⟩
  have hstarted : dhcpSystem.Reachable startedClient :=
    hinit.step (a := .start fun _ => true) trivial rfl
  exact hstarted.step (a := .payload (fun _ => true) (ofBytes (replyPacket 2#8 0x0A00020F#32)) 0
    244#64) trivial rfl

end

end KyroOS.Net

import KyroOS.Net.Host

/-!
# ARP

The cache has 16 entries; a new address takes the place of the oldest one.

## Main definitions

* `arpUpdateCache`, `arpLookupMac` — the cache
* `arpSendRequest`, `arpHandlePacket` — requests and what is done on a packet

## Main results

* `arpLookupMac_arpUpdateCache` — an address that was entered is found
* `arpHandlePacket_value` — what becomes of the host
-/

namespace KyroOS.Net

/-! ### The cache -/

namespace ArpCache

/-- The first entry for an address. -/
def find (c : ArpCache) (ip : BitVec 32) : Option (Fin 16) :=
  (List.finRange 16).find? fun i => (c.entry i).ipAddr = ip

theorem ipAddr_of_find {c : ArpCache} {ip : BitVec 32} {i : Fin 16} (h : c.find ip = some i) :
    (c.entry i).ipAddr = ip := by
  simpa using List.find?_some h

theorem ipAddr_ne_of_find {c : ArpCache} {ip : BitVec 32} (h : c.find ip = none) (i : Fin 16) :
    (c.entry i).ipAddr ≠ ip := by
  simpa using List.find?_eq_none.mp h i (List.mem_finRange i)

/-- The first entry depends on the addresses only. -/
theorem find_congr {c c' : ArpCache} {ip : BitVec 32}
    (h : ∀ i, (c.entry i).ipAddr = ip ↔ (c'.entry i).ipAddr = ip) : c.find ip = c'.find ip := by
  unfold find
  congr 1
  funext i
  exact decide_eq_decide.mpr (h i)

end ArpCache

/-- `arp_update_cache` -/
def arpUpdateCache (c : ArpCache) (ip : BitVec 32) (mac : Mac) : ArpCache :=
  match c.find ip with
  | some i => { c with entry := Function.update c.entry i { c.entry i with macAddr := mac } }
  | none => ⟨Function.update c.entry c.nextIdx ⟨ip, mac⟩, c.nextIdx + 1⟩

/-- `arp_lookup_mac` -/
def arpLookupMac (c : ArpCache) (ip : BitVec 32) : Option Mac :=
  (c.find ip).map fun i => (c.entry i).macAddr

/-- After an update the address is found with its MAC address. -/
theorem arpLookupMac_arpUpdateCache (c : ArpCache) (ip : BitVec 32) (mac : Mac) :
    arpLookupMac (arpUpdateCache c ip mac) ip = some mac := by
  cases hfind : c.find ip with
  | some i =>
    -- the addresses of the entries stay
    have hsame : (arpUpdateCache c ip mac).find ip = some i := by
      rw [← hfind]
      apply ArpCache.find_congr
      intro j
      rw [arpUpdateCache, hfind]
      by_cases hj : j = i
      · rw [hj]
        simp
      · simp [Function.update_of_ne hj]
    rw [arpLookupMac, hsame, Option.map_some, arpUpdateCache, hfind]
    simp
  | none =>
    -- no other entry has the address
    have hentry : (arpUpdateCache c ip mac).entry =
        Function.update c.entry c.nextIdx ⟨ip, mac⟩ := by
      rw [arpUpdateCache, hfind]
    cases hnew : (arpUpdateCache c ip mac).find ip with
    | none =>
      have hne := ArpCache.ipAddr_ne_of_find hnew c.nextIdx
      rw [hentry, Function.update_self] at hne
      exact absurd rfl hne
    | some i =>
      have hip := ArpCache.ipAddr_of_find hnew
      rw [hentry] at hip
      have hi : i = c.nextIdx := by
        by_contra hne
        rw [Function.update_of_ne hne] at hip
        exact ArpCache.ipAddr_ne_of_find hfind i hip
      rw [arpLookupMac, hnew, Option.map_some, hentry, hi, Function.update_self]

/-! ### Packets -/

def arpOpcodeRequest : BitVec 16 := 1#16

def arpOpcodeReply : BitVec 16 := 2#16

/-- `arp_packet_t` of Ethernet and IPv4, with the addresses as numbers of the host. -/
def arpPacket (opcode : BitVec 16) (senderMac : Mac) (senderIp : BitVec 32) (targetMac : Mac)
    (targetIp : BitVec 32) : List Byte :=
  store16 (bswap16 0x0001#16) ++ store16 (bswap16 0x0800#16) ++ [0x06#8, 0x04#8] ++
    store16 (bswap16 opcode) ++ senderMac.bytes ++ store32 (bswap32 senderIp) ++
    targetMac.bytes ++ store32 (bswap32 targetIp)

@[simp] theorem length_arpPacket (opcode : BitVec 16) (senderMac : Mac) (senderIp : BitVec 32)
    (targetMac : Mac) (targetIp : BitVec 32) :
    (arpPacket opcode senderMac senderIp targetMac targetIp).length = 28 := by
  simp [arpPacket]

section

variable (alloc : ℕ → Bool) (h : Host)

/-- The frame of a request. -/
def arpRequestFrame (targetIp : BitVec 32) : List Byte :=
  ethernetHeader .broadcast h.macAddr arpEtherType ++
    arpPacket arpOpcodeRequest h.macAddr h.localIp (fun _ => 0) targetIp

/-- The frame of a reply. -/
def arpReplyFrame (senderMac : Mac) (senderIp : BitVec 32) : List Byte :=
  ethernetHeader senderMac h.macAddr arpEtherType ++
    arpPacket arpOpcodeReply h.macAddr h.localIp senderMac senderIp

/-- `arp_send_request`. The heap serves the sizes that `alloc` says. -/
def arpSendRequest (targetIp : BitVec 32) : Host :=
  if alloc 42 then h.sendPacket (arpRequestFrame h targetIp) else h

theorem arpSendRequest_eq (targetIp : BitVec 32) : arpSendRequest alloc h targetIp =
    { h with sent := (arpSendRequest alloc h targetIp).sent } := by
  unfold arpSendRequest
  split
  · exact sendPacket_eq h _
  · rfl

variable (m : Memory) (p : ℕ)

/-- The tests on the format of a packet. -/
def arpFormat : Rx Bool := do
  let hardwareType ← Rx.load16 m p
  if bswap16 hardwareType ≠ 0x0001#16 then return false
  let protocolType ← Rx.load16 m (p + 2)
  if bswap16 protocolType ≠ 0x0800#16 then return false
  let hwAddrLen ← Rx.load8 m (p + 4)
  if hwAddrLen ≠ 0x06#8 then return false
  let prAddrLen ← Rx.load8 m (p + 5)
  return prAddrLen = 0x04#8

/-- `arp_handle_packet` -/
def arpHandlePacket (size : Word) : Rx Host := do
  if size < 28#64 then return h
  if !(← arpFormat m p) then return h
  let senderIp := bswap32 (← Rx.load32 m (p + 14))
  let targetIp := bswap32 (← Rx.load32 m (p + 24))
  let opcode := bswap16 (← Rx.load16 m (p + 6))
  let senderMac ← Rx.loadMac m (p + 8)
  let h := { h with arpCache := arpUpdateCache h.arpCache senderIp senderMac }
  if opcode = arpOpcodeRequest then
    if targetIp = h.localIp then
      if alloc 42 then return h.sendPacket (arpReplyFrame h senderMac senderIp)
      else return h
    else return h
  else return h

end

/-! ### What becomes of the host -/

section

variable {alloc : ℕ → Bool} {h : Host} {m : Memory} {p : ℕ} {size : Word}

/-- The packet is one for Ethernet and IPv4. -/
def ArpFormat (m : Memory) (p : ℕ) : Prop :=
  bswap16 (load16 m p) = 0x0001#16 ∧ bswap16 (load16 m (p + 2)) = 0x0800#16 ∧ m (p + 4) = 0x06#8 ∧
    m (p + 5) = 0x04#8

theorem arpFormat_value : (arpFormat m p).value = true ↔ ArpFormat m p := by
  unfold arpFormat ArpFormat
  by_cases h₁ : bswap16 (load16 m p) = 0x0001#16
  · by_cases h₂ : bswap16 (load16 m (p + 2)) = 0x0800#16
    · by_cases h₃ : m (p + 4) = 0x06#8
      · simp [h₁, h₂, h₃]
        exact decide_eq_true_iff
      · simp [h₁, h₂, h₃]
    · simp [h₁, h₂]
  · simp [h₁]

/-- A request for the address of the host. -/
def ArpRequestFor (m : Memory) (p : ℕ) (ip : BitVec 32) : Prop :=
  bswap16 (load16 m (p + 6)) = arpOpcodeRequest ∧ bswap32 (load32 m (p + 24)) = ip

instance (m : Memory) (p : ℕ) (ip : BitVec 32) : Decidable (ArpRequestFor m p ip) :=
  inferInstanceAs (Decidable (_ ∧ _))

/-- The host with the sender of the packet in its cache. -/
def Host.learn (h : Host) (m : Memory) (p : ℕ) : Host :=
  { h with arpCache := arpUpdateCache h.arpCache (bswap32 (load32 m (p + 14))) (loadMac m (p + 8)) }

@[simp] theorem learn_localIp : (h.learn m p).localIp = h.localIp := rfl
@[simp] theorem learn_macAddr : (h.learn m p).macAddr = h.macAddr := rfl
@[simp] theorem learn_sent : (h.learn m p).sent = h.sent := rfl

/-- A packet in the right format is learned from, and a request for the host is answered. -/
theorem arpHandlePacket_value (hsize : ¬ size < 28#64) (hformat : ArpFormat m p) :
    (arpHandlePacket alloc h m p size).value =
      if ArpRequestFor m p h.localIp ∧ alloc 42 then
        (h.learn m p).sendPacket
          (arpReplyFrame (h.learn m p) (loadMac m (p + 8)) (bswap32 (load32 m (p + 14))))
      else h.learn m p := by
  have hvalue := arpFormat_value.mpr hformat
  unfold arpHandlePacket
  by_cases hop : bswap16 (load16 m (p + 6)) = arpOpcodeRequest
  · by_cases hip : bswap32 (load32 m (p + 24)) = h.localIp
    · cases halloc : alloc 42 <;>
        simp [hsize, hvalue, hop, hip, ArpRequestFor, Host.learn]
    · simp [hsize, hvalue, hop, hip, ArpRequestFor, Host.learn]
  · simp [hsize, hvalue, hop, ArpRequestFor, Host.learn]

/-- Other packets change nothing. -/
theorem arpHandlePacket_of_not (hpacket : size < 28#64 ∨ ¬ ArpFormat m p) :
    (arpHandlePacket alloc h m p size).value = h := by
  unfold arpHandlePacket
  by_cases hsize : size < 28#64
  · simp [hsize]
  · have hvalue : (arpFormat m p).value = false := by
      rw [← Bool.not_eq_true, arpFormat_value]
      exact hpacket.resolve_left hsize
    simp [hsize, hvalue]

theorem sendPacket_sent {frame : List Byte} (hlen : frame.length ≤ 2048) :
    (h.sendPacket frame).sent = h.sent ++ [frame] := by
  rw [Host.sendPacket, if_neg (not_lt.mpr hlen)]

end

end KyroOS.Net

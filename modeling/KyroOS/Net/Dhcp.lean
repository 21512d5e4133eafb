import KyroOS.Net.IpSend

/-!
# The DHCP client

The client keeps the addresses that it gets as they stand in the packets, in network byte order, and
hands them to the IP layer like that.

## Main definitions

* `dhcpClientStart`, `dhcpHandlePacket` — the start of the client and what it does on a packet
* `findOption`, `applyOptions` — the loops over the options

## Main results

* `findOption_succ`, `applyOptions_succ` — the loops end before their turns do
* `dhcpHandlePacket_keeps` — what a packet for the client does not change
* `dhcpHandlePacket_bound` — how the client comes from `requesting` to `bound`
-/

namespace KyroOS.Net

def dhcpXid : BitVec 32 := 0x12345678#32

/-! ### The packets of the client -/

/-- A `dhcp_packet_t` of a client with the given options. -/
def dhcpPacket (mac : Mac) (options : List Byte) : List Byte :=
  -- `op`, `htype`, `hlen` and `hops`
  [1#8, 1#8, 6#8, 0#8] ++ store32 (bswap32 dhcpXid) ++ store16 0 ++ store16 (bswap16 0x8000#16) ++
    -- `ciaddr`, `yiaddr`, `siaddr` and `giaddr`
    List.replicate 16 0#8 ++
    -- `chaddr`, `sname` and `file`
    mac.bytes ++ List.replicate (10 + 64 + 128) 0#8 ++
    store32 (bswap32 0x63825363#32) ++ (options ++ List.replicate (312 - options.length) 0#8)

/-- The options of a DISCOVER packet. -/
def discoverOptions : List Byte := [53#8, 1#8, 1#8, 55#8, 3#8, 1#8, 3#8, 6#8, 255#8]

/-- The options of a REQUEST packet. The addresses are copied as they are. -/
def requestOptions (d : DhcpClient) : List Byte :=
  [53#8, 1#8, 3#8, 50#8, 4#8] ++ store32 d.localIp ++
    (if d.serverIp ≠ 0 then [54#8, 4#8] ++ store32 d.serverIp else []) ++ [255#8]

section

variable (alloc : ℕ → Bool) (h : Host)

/-- `dhcp_send_discover` -/
def dhcpSendDiscover : Host :=
  udpSendPacket alloc h broadcastIp 68 67 (dhcpPacket h.macAddr discoverOptions)

/-- `dhcp_send_request` -/
def dhcpSendRequest : Host :=
  udpSendPacket alloc h broadcastIp 68 67 (dhcpPacket h.macAddr (requestOptions h.dhcp))

/-- `dhcp_client_start` -/
def dhcpClientStart : Host :=
  if h.dhcp.state = .init then
    let h := dhcpSendDiscover alloc h
    { h with dhcp := { h.dhcp with state := .selecting } }
  else h

end

/-! ### The options of a packet -/

section Options

variable (m : Memory) (stop : ℕ)

/-- The loop that looks for an option, for a number of turns: where the option is. -/
def findOption (code : Byte) : ℕ → ℕ → Option ℕ
  | 0, _ => none
  | turns + 1, opt =>
    if opt < stop ∧ m opt ≠ 255#8 then
      if m opt = code then some opt else findOption code turns (opt + ((m (opt + 1)).toNat + 2))
    else none

/-- The loop that takes the subnet mask and the gateway from the options. -/
def applyOptions : ℕ → ℕ → Host → Host
  | 0, _, h => h
  | turns + 1, opt, h =>
    if opt < stop ∧ m opt ≠ 255#8 then
      let address := load32 m (opt + 2)
      let h :=
        if m opt = 1#8 then
          { h with dhcp := { h.dhcp with subnetMask := address }, subnetMask := address }
        else if m opt = 3#8 then
          { h with dhcp := { h.dhcp with gatewayIp := address }, defaultGateway := address }
        else h
      applyOptions turns (opt + ((m (opt + 1)).toNat + 2)) h
    else h

variable {m stop}

/-- Every turn comes nearer to the end of the data, so that further turns change nothing. -/
theorem findOption_succ {code : Byte} {turns : ℕ} : ∀ {opt : ℕ}, stop ≤ opt + turns →
    findOption m stop code (turns + 1) opt = findOption m stop code turns opt := by
  induction turns with
  | zero =>
    intro opt hopt
    have hend : ¬ (opt < stop ∧ m opt ≠ 255#8) := fun hmore => absurd hmore.1 (by omega)
    exact if_neg hend
  | succ turns ih =>
    intro opt hopt
    have hnext := @ih (opt + ((m (opt + 1)).toNat + 2)) (by omega)
    rw [findOption, hnext]
    rfl

theorem applyOptions_succ {turns : ℕ} : ∀ {opt : ℕ} {h : Host}, stop ≤ opt + turns →
    applyOptions m stop (turns + 1) opt h = applyOptions m stop turns opt h := by
  induction turns with
  | zero =>
    intro opt h hopt
    have hend : ¬ (opt < stop ∧ m opt ≠ 255#8) := fun hmore => absurd hmore.1 (by omega)
    exact if_neg hend
  | succ turns ih =>
    intro opt h hopt
    rw [applyOptions]
    dsimp only
    rw [ih (by omega)]
    rfl

/-- The options change the masks and the gateways only. -/
theorem applyOptions_keeps {α : Type} (f : Host → α)
    (hmask : ∀ h w, f { h with dhcp := { h.dhcp with subnetMask := w }, subnetMask := w } = f h)
    (hgateway : ∀ h w,
      f { h with dhcp := { h.dhcp with gatewayIp := w }, defaultGateway := w } = f h)
    {turns : ℕ} : ∀ {opt : ℕ} {h : Host}, f (applyOptions m stop turns opt h) = f h := by
  induction turns with
  | zero => exact rfl
  | succ turns ih =>
    intro opt h
    rw [applyOptions]
    split
    · rw [ih]
      split
      · exact hmask h _
      · split
        · exact hgateway h _
        · rfl
    · rfl

end Options

/-! ### Packets for the client -/

section

variable (alloc : ℕ → Bool) (h : Host) (m : Memory) (p : ℕ)

/-- The position `data + len`. A length that wrapped around lies before the data. -/
def endOfData (len : Word) : ℕ := ((p : ℤ) + len.toInt).toNat

/-- The type of the message, 0 without the option for it. -/
def messageType (len : Word) : Byte :=
  match findOption m (endOfData p len) 53#8 (endOfData p len) (p + 240) with
  | some opt => m (opt + 2)
  | none => 0

/-- `dhcp_handle_packet` -/
def dhcpHandlePacket (len : Word) : Host :=
  if len < 240#64 then h
  else if m p ≠ 2#8 ∨ load32 m (p + 4) ≠ bswap32 dhcpXid then h
  else
    let stop := endOfData p len
    let yiaddr := load32 m (p + 16)
    if h.dhcp.state = .selecting ∧ messageType m p len = 2#8 then
      let serverIp :=
        match findOption m stop 54#8 stop (p + 240) with
        | some opt => load32 m (opt + 2)
        | none => h.dhcp.serverIp
      dhcpSendRequest alloc
        { h with dhcp := { h.dhcp with localIp := yiaddr, serverIp, state := .requesting } }
    else if h.dhcp.state = .requesting ∧ messageType m p len = 5#8 then
      let h := { h with dhcp := { h.dhcp with localIp := yiaddr }, localIp := yiaddr }
      let h := applyOptions m stop stop (p + 240) h
      { h with dhcp := { h.dhcp with state := .bound } }
    else h

variable {alloc h m p}

/-- A packet for the client changes the addresses, the client and what was sent only. -/
theorem dhcpHandlePacket_keeps {α : Type} (f : Host → α)
    (hf : ∀ h sent dhcp localIp subnetMask defaultGateway,
      f { h with sent, dhcp, localIp, subnetMask, defaultGateway } = f h) {len : Word} :
    f (dhcpHandlePacket alloc h m p len) = f h := by
  unfold dhcpHandlePacket
  split
  · rfl
  · split
    · rfl
    · dsimp only
      split
      · rw [dhcpSendRequest, udpSendPacket_eq]
        exact hf h _ _ h.localIp h.subnetMask h.defaultGateway
      · split
        · have hoptions := @applyOptions_keeps m (endOfData p len) α f
            (fun h w => hf h h.sent _ h.localIp w h.defaultGateway)
            (fun h w => hf h h.sent _ h.localIp h.subnetMask w)
          have hclient := fun h d => hf h h.sent d h.localIp h.subnetMask h.defaultGateway
          exact (hclient _ _).trans (hoptions.trans (hf h h.sent _ _ h.subnetMask h.defaultGateway))
        · rfl

/-- What becomes of the host when the client comes to `bound`: its address is the field `yiaddr` as
it stands in memory. -/
theorem dhcpHandlePacket_bound {len : Word} (hstate : h.dhcp.state = .requesting)
    (hbound : (dhcpHandlePacket alloc h m p len).dhcp.state = .bound) :
    (dhcpHandlePacket alloc h m p len).localIp = load32 m (p + 16) ∧
      (dhcpHandlePacket alloc h m p len).macAddr = h.macAddr ∧
      (dhcpHandlePacket alloc h m p len).arpCache = h.arpCache ∧
      (dhcpHandlePacket alloc h m p len).activeSockets = h.activeSockets ∧
      (dhcpHandlePacket alloc h m p len).sent = h.sent := by
  unfold dhcpHandlePacket at hbound ⊢
  split at hbound
  · exact absurd (hstate.symm.trans hbound) (by decide)
  · split at hbound
    · exact absurd (hstate.symm.trans hbound) (by decide)
    · next hlen hformat =>
      rw [if_neg hlen, if_neg hformat]
      simp only [hstate, reduceCtorEq, false_and, if_false, true_and] at hbound ⊢
      split at hbound
      · next hack =>
        rw [if_pos hack]
        refine ⟨?_, ?_, ?_, ?_, ?_⟩
        · exact applyOptions_keeps Host.localIp (fun _ _ => rfl) fun _ _ => rfl
        · exact applyOptions_keeps Host.macAddr (fun _ _ => rfl) fun _ _ => rfl
        · exact applyOptions_keeps Host.arpCache (fun _ _ => rfl) fun _ _ => rfl
        · exact applyOptions_keeps Host.activeSockets (fun _ _ => rfl) fun _ _ => rfl
        · exact applyOptions_keeps Host.sent (fun _ _ => rfl) fun _ _ => rfl
      · exact absurd (hstate.symm.trans hbound) (by decide)

end

end KyroOS.Net

import KyroOS.Net.RecvWait

/-!
# Ports and the sockets bound to them

`sock_bind` looks through all sockets for the port that it is to give to one, and a datagram is
given to the first socket that has its port. A socket that was never bound has port 0.

## Main definitions

* `sockClose` — the call
* `Bindings`, `SocketEvent`, `portSystem` — a host with the port that each socket was bound to, and
  the runs of the calls and of datagrams
* `PortsUnique`, `DeliversByPort` — no two sockets have one port, and a datagram changes one socket
  at most, which was bound to its port
* `ToBound` — a datagram for port 0 finds no socket that was never bound

## Main results

* `ports_of_reachable` — the ports of the sockets are those they were bound to
* `deliversByPort_iff` — ports are unique, and a datagram is delivered by its port exactly when it
  finds no socket that was never bound
-/

namespace KyroOS.Net

/-! ### Runs -/

/-- `sock_close` of an active socket. -/
def sockClose (h : Host) (address : Word) : Host × ℤ :=
  match h.socketAt address with
  | none => (h, -1)
  | some _ => ({ h with activeSockets := h.activeSockets.eraseP fun s => s.address = address }, 0)

/-- A host, with the port of the last successful `sock_bind` of each socket. -/
structure Bindings where
  host : Host
  boundTo : Word → Option (BitVec 16)

/-- A call, a statement of a call that waits, or a datagram. -/
inductive SocketEvent
  | create (domain type protocol : ℤ) (block buffer : Word) (old : Memory)
  | bind (address : Word) (addr : SockaddrIn)
  | connect (address : Word) (addr : SockaddrIn)
  /-- A thread in `sock_recv` waits for data. -/
  | wait (address thread : Word)
  /-- A thread in `sock_recv` has waited. -/
  | waited (address : Word)
  /-- A thread in `sock_recv` takes data. -/
  | recv (address : Word) (len : ℕ)
  | close (address : Word)
  | datagram (alloc : ℕ → Bool) (m : Memory) (udpHdr data : ℕ) (len : Word)

namespace SocketEvent

/-- `kmalloc` returns a block that is no active socket; a thread waits while the buffer is empty,
and takes data when it is not. -/
def Admissible (r : Bindings) : SocketEvent → Prop
  | create _ _ _ block _ _ => ∀ s ∈ r.host.activeSockets, s.address ≠ block
  | wait address _ => ∃ s, r.host.socketAt address = some s ∧ s.protocol = ipprotoUdp ∧
      s.state ≠ .closed ∧ s.udpData.recvDataLen = 0
  | recv address _ => ∃ s, r.host.socketAt address = some s ∧ s.udpData.recvDataLen ≠ 0
  | bind _ _ | connect _ _ | waited _ | close _ | datagram _ _ _ _ _ => True

/-- The host after an event. -/
def run (h : Host) : SocketEvent → Host
  | create domain type protocol block buffer old =>
    (sockCreate h domain type protocol block buffer old).1
  | bind address addr => (sockBind h address addr).1
  | connect address addr => (sockConnect h address addr).1
  | wait address thread =>
    (h.setSocket address fun s => { s with waitingThread := thread }).setThreadState thread .blocked
  | waited address => h.setSocket address fun s => { s with waitingThread := 0 }
  | recv address len => (sockRecv h address len).1
  | close address => (sockClose h address).1
  | datagram alloc m udpHdr data len => (sockUdpReceivePacketHandler alloc h m udpHdr data len).value

/-- The ports that sockets were bound to, after an event. -/
def bindings (r : Bindings) : SocketEvent → Word → Option (BitVec 16)
  | bind address addr =>
    if (sockBind r.host address addr).2 = 0 then
      Function.update r.boundTo address (some addr.sinPort)
    else r.boundTo
  | create domain type protocol block buffer old =>
    if (sockCreate r.host domain type protocol block buffer old).2 ≠ 0 then
      Function.update r.boundTo block none
    else r.boundTo
  | _ => r.boundTo

end SocketEvent

/-- The runs of a host without sockets at first. -/
def portSystem : Transition.System Bindings SocketEvent where
  init r := r.host.activeSockets = []
  step r e r' := e.Admissible r ∧ r' = ⟨e.run r.host, e.bindings r⟩

/-! ### What is claimed of ports -/

/-- No two active UDP sockets have one port, but for port 0. -/
def PortsUnique (h : Host) : Prop :=
  ∀ port, port ≠ 0 → (h.activeSockets.filter fun s => s.Bound port).length ≤ 1

/-- The socket at an address is another one after an event. -/
def Changed (h h' : Host) (address : Word) : Prop := h'.socketAt address ≠ h.socketAt address

/-- One socket at most has changed, and one that was bound to the port. -/
structure DeliversByPort (r : Bindings) (port : BitVec 16) (h' : Host) : Prop where
  atMostOne : ∀ a b, Changed r.host h' a → Changed r.host h' b → a = b
  bound : ∀ a, Changed r.host h' a → r.boundTo a = some port

/-- A datagram of `len` bytes is not for port 0, or the first socket with that port was bound to it
or drops the datagram, or the datagram is empty and nobody waits. -/
def ToBound (r : Bindings) (port : BitVec 16) (len : Word) : Prop :=
  port = 0 → ∀ s, r.host.findBound 0 = some s → r.boundTo s.address = some 0 ∨
    s.udpData.spaceAvailable < len.toNat ∨ (len.toNat = 0 ∧ s.waitingThread = 0)

/-! ### The invariant -/

/-- Sockets have different addresses, and the port they were bound to, or else 0. -/
structure Ports (r : Bindings) : Prop where
  nodup : (r.host.activeSockets.map Socket.address).Nodup
  port : ∀ s ∈ r.host.activeSockets, s.protocol = ipprotoUdp →
    s.localAddr.sinPort = (r.boundTo s.address).getD 0
  unique : ∀ s ∈ r.host.activeSockets, ∀ s' ∈ r.host.activeSockets, ∀ port, port ≠ 0 →
    s.Bound port → s'.Bound port → s.address = s'.address

section

variable {r r' : Bindings} {h h' : Host} {e : SocketEvent} {address : Word} {s s' : Socket}
  {f : Socket → Socket} {boundTo : Word → Option (BitVec 16)} {port : BitVec 16}

/-- Events that touch neither the sockets nor the bindings. -/
theorem Ports.congr (hr : Ports ⟨h, boundTo⟩) (hsockets : h'.activeSockets = h.activeSockets) :
    Ports ⟨h', boundTo⟩ := by
  refine ⟨?_, ?_, ?_⟩
  · show (h'.activeSockets.map _).Nodup
    rw [hsockets]
    exact hr.nodup
  · show ∀ s ∈ h'.activeSockets, _
    rw [hsockets]
    exact hr.port
  · show ∀ s ∈ h'.activeSockets, ∀ s' ∈ h'.activeSockets, _
    rw [hsockets]
    exact hr.unique

theorem mem_setSocket (hmem : s ∈ (h.setSocket address f).activeSockets) :
    ∃ s₀ ∈ h.activeSockets, s = if s₀.address = address then f s₀ else s₀ := by
  obtain ⟨s₀, hs₀, rfl⟩ := List.mem_map.mp hmem
  exact ⟨s₀, hs₀, rfl⟩

theorem nodup_setSocket (hf : ∀ s, (f s).address = s.address)
    (hnodup : (h.activeSockets.map Socket.address).Nodup) :
    ((h.setSocket address f).activeSockets.map Socket.address).Nodup := by
  rw [Host.setSocket, List.map_map]
  convert hnodup using 1
  apply List.map_congr_left
  intro s _
  rw [Function.comp_apply]
  split
  · exact hf s
  · rfl

/-- A change of a socket that is not one of its address, its protocol or its port. -/
theorem Ports.setSocket (hr : Ports ⟨h, boundTo⟩) (haddress : ∀ s, (f s).address = s.address)
    (hprotocol : ∀ s, (f s).protocol = s.protocol) (hlocal : ∀ s, (f s).localAddr = s.localAddr) :
    Ports ⟨h.setSocket address f, boundTo⟩ := by
  have hkept : ∀ s₀ : Socket, (if s₀.address = address then f s₀ else s₀).address = s₀.address ∧
      (if s₀.address = address then f s₀ else s₀).protocol = s₀.protocol ∧
      (if s₀.address = address then f s₀ else s₀).localAddr = s₀.localAddr := by
    intro s₀
    split
    · exact ⟨haddress s₀, hprotocol s₀, hlocal s₀⟩
    · exact ⟨rfl, rfl, rfl⟩
  refine ⟨?_, ?_, ?_⟩
  · exact nodup_setSocket haddress hr.nodup
  · intro s hs hudp
    obtain ⟨s₀, hs₀, rfl⟩ := mem_setSocket hs
    obtain ⟨ha, hp, hl⟩ := hkept s₀
    rw [ha, hl]
    exact hr.port s₀ hs₀ (hp.symm.trans hudp)
  · intro s hs s' hs' port hport hb hb'
    obtain ⟨s₀, hs₀, rfl⟩ := mem_setSocket hs
    obtain ⟨s₁, hs₁, rfl⟩ := mem_setSocket hs'
    obtain ⟨ha, hp, hl⟩ := hkept s₀
    obtain ⟨ha', hp', hl'⟩ := hkept s₁
    rw [Socket.Bound, hp, hl] at hb
    rw [Socket.Bound, hp', hl'] at hb'
    rw [ha, ha']
    exact hr.unique s₀ hs₀ s₁ hs₁ port hport hb hb'

/-- `sock_create` fails, or puts a socket with port 0 in front. -/
theorem sockCreate_cases (h : Host) (domain type protocol : ℤ) (block buffer : Word)
    (old : Memory) :
    sockCreate h domain type protocol block buffer old = (h, 0) ∨
      ∃ s : Socket, block ≠ 0 ∧ s.address = block ∧ s.localAddr.sinPort = 0 ∧
        sockCreate h domain type protocol block buffer old =
          ({ h with activeSockets := s :: h.activeSockets }, block) := by
  unfold sockCreate
  by_cases hbad : domain ≠ 2 ∨ (type ≠ 1 ∧ type ≠ 2) ∨
      (protocol ≠ ipprotoUdp ∧ protocol ≠ ipprotoTcp)
  · exact .inl (if_pos hbad)
  · rw [if_neg hbad]
    by_cases hblock : block = 0 ∨ (protocol = ipprotoUdp ∧ buffer = 0)
    · exact .inl (if_pos hblock)
    · rw [if_neg hblock]
      exact .inr ⟨_, fun hzero => hblock (.inl hzero), rfl, rfl, rfl⟩

theorem Ports.create {domain type protocol : ℤ} {block buffer : Word} {old : Memory}
    (hr : Ports r) (hfresh : ∀ s ∈ r.host.activeSockets, s.address ≠ block) :
    Ports ⟨SocketEvent.run r.host (.create domain type protocol block buffer old),
      SocketEvent.bindings r (.create domain type protocol block buffer old)⟩ := by
  rw [SocketEvent.run, SocketEvent.bindings]
  rcases sockCreate_cases r.host domain type protocol block buffer old with
    heq | ⟨s, hblock, haddress, hzero, heq⟩
  · rw [heq, if_neg (not_not.mpr rfl)]
    exact hr
  · rw [heq, if_pos hblock]
    have hold : ∀ s ∈ r.host.activeSockets,
        Function.update r.boundTo block none s.address = r.boundTo s.address :=
      fun s hs => Function.update_of_ne (hfresh s hs) ..
    have hnew : ∀ port, port ≠ 0 → ¬ s.Bound port := fun port hport hb =>
      hport (hb.2.symm.trans hzero)
    refine ⟨?_, ?_, ?_⟩
    · refine List.nodup_cons.mpr ⟨fun hmem => ?_, hr.nodup⟩
      obtain ⟨s', hs', heq'⟩ := List.mem_map.mp hmem
      exact hfresh s' hs' (heq'.trans haddress)
    · intro s' hs' hudp
      rcases List.mem_cons.mp hs' with rfl | hs'
      · rw [hzero]
        show _ = (Function.update r.boundTo block none s'.address).getD 0
        rw [haddress, Function.update_self]
        rfl
      · show _ = (Function.update r.boundTo block none s'.address).getD 0
        rw [hold s' hs']
        exact hr.port s' hs' hudp
    · intro s₁ hs₁ s₂ hs₂ port hport hb hb'
      rcases List.mem_cons.mp hs₁ with rfl | hs₁
      · exact absurd hb (hnew port hport)
      · rcases List.mem_cons.mp hs₂ with rfl | hs₂
        · exact absurd hb' (hnew port hport)
        · exact hr.unique s₁ hs₁ s₂ hs₂ port hport hb hb'

/-- `sock_bind` fails, or gives a UDP socket a port that no other UDP socket has. -/
theorem sockBind_cases (h : Host) (address : Word) (addr : SockaddrIn) :
    sockBind h address addr = (h, -1) ∨
      (∃ s, h.socketAt address = some s ∧ s.protocol = ipprotoUdp) ∧
      (∀ s ∈ h.activeSockets, s.Bound addr.sinPort → s.address = address) ∧
      (sockBind h address addr).2 = 0 ∧ (sockBind h address addr).1.activeSockets =
        (h.setSocket address fun s =>
          { s with localAddr := addr, state := .bound }).activeSockets := by
  unfold sockBind
  cases hs : h.socketAt address with
  | none => exact .inl rfl
  | some s =>
    dsimp only
    by_cases hudp : s.protocol = ipprotoUdp
    · rw [if_pos hudp]
      by_cases hused : h.activeSockets.any fun s' => s'.address ≠ address ∧ s'.Bound addr.sinPort
      · exact .inl (if_pos hused)
      · rw [if_neg hused]
        refine .inr ⟨⟨s, rfl, hudp⟩, fun s' hs' hb => ?_, rfl, ?_⟩
        · by_contra hne
          exact hused (List.any_eq_true.mpr ⟨s', hs', decide_eq_true ⟨hne, hb⟩⟩)
        · rw [udpRegisterHandler]
          split <;> rfl
    · exact .inl (if_neg hudp)

theorem Ports.bind {addr : SockaddrIn} (hr : Ports r) :
    Ports ⟨SocketEvent.run r.host (.bind address addr),
      SocketEvent.bindings r (.bind address addr)⟩ := by
  rw [SocketEvent.run, SocketEvent.bindings]
  rcases sockBind_cases r.host address addr with heq | ⟨-, hunused, hok, hsockets⟩
  · rw [heq, if_neg (by decide : ¬ (-1 : ℤ) = 0)]
    exact hr
  · rw [if_pos hok]
    have hports : Ports ⟨r.host.setSocket address fun s =>
          { s with localAddr := addr, state := .bound },
        Function.update r.boundTo address (some addr.sinPort)⟩ := by
      refine ⟨?_, ?_, ?_⟩
      · exact nodup_setSocket (fun _ => rfl) hr.nodup
      · intro s hs hudp
        obtain ⟨s₀, hs₀, rfl⟩ := mem_setSocket hs
        show _ = (Function.update r.boundTo address (some addr.sinPort) _).getD 0
        by_cases haddress : s₀.address = address
        · rw [if_pos haddress, haddress, Function.update_self]
          rfl
        · rw [if_neg haddress] at hudp ⊢
          rw [Function.update_of_ne haddress]
          exact hr.port s₀ hs₀ hudp
      · intro s hs s' hs' port hport hb hb'
        obtain ⟨s₀, hs₀, rfl⟩ := mem_setSocket hs
        obtain ⟨s₁, hs₁, rfl⟩ := mem_setSocket hs'
        by_cases h₀ : s₀.address = address
        · by_cases h₁ : s₁.address = address
          · rw [if_pos h₀, if_pos h₁]
            exact h₀.trans h₁.symm
          · rw [if_pos h₀] at hb
            rw [if_neg h₁] at hb'
            rw [← hb.2] at hb'
            exact absurd (hunused s₁ hs₁ hb') h₁
        · rw [if_neg h₀] at hb ⊢
          by_cases h₁ : s₁.address = address
          · rw [if_pos h₁] at hb'
            rw [← hb'.2] at hb
            exact absurd (hunused s₀ hs₀ hb) h₀
          · rw [if_neg h₁] at hb' ⊢
            exact hr.unique s₀ hs₀ s₁ hs₁ port hport hb hb'
    exact hports.congr hsockets

theorem Ports.connect {addr : SockaddrIn} (hr : Ports ⟨h, boundTo⟩) :
    Ports ⟨(sockConnect h address addr).1, boundTo⟩ := by
  rw [sockConnect]
  cases h.socketAt address with
  | none => exact hr
  | some s =>
    dsimp only
    split
    · exact hr
    · split
      · exact hr.setSocket (fun _ => rfl) (fun _ => rfl) fun _ => rfl
      · exact hr

theorem Ports.recv {len : ℕ} (hr : Ports ⟨h, boundTo⟩) :
    Ports ⟨(sockRecv h address len).1, boundTo⟩ := by
  rw [sockRecv]
  cases h.socketAt address with
  | none => exact hr
  | some s =>
    dsimp only
    split
    · exact hr
    · split
      · split
        · exact hr
        · exact hr.setSocket (fun _ => rfl) (fun _ => rfl) fun _ => rfl
      · exact hr

/-- A closed socket is gone. -/
theorem Ports.close (hr : Ports ⟨h, boundTo⟩) : Ports ⟨(sockClose h address).1, boundTo⟩ := by
  rw [sockClose]
  cases h.socketAt address with
  | none => exact hr
  | some s =>
    have hsub : (h.activeSockets.eraseP fun s => s.address = address).Sublist h.activeSockets :=
      List.eraseP_sublist
    refine ⟨(hsub.map _).nodup hr.nodup, ?_, ?_⟩
    · exact fun s hs => hr.port s (hsub.subset hs)
    · exact fun s hs s' hs' => hr.unique s (hsub.subset hs) s' (hsub.subset hs')

theorem Ports.deliver {data : List Byte} (hr : Ports ⟨h, boundTo⟩) :
    Ports ⟨h.deliver s data, boundTo⟩ := by
  have hwoken : Ports ⟨h.wake s.waitingThread, boundTo⟩ := hr.congr (wake_activeSockets _)
  exact hwoken.setSocket (fun _ => rfl) (fun _ => rfl) fun _ => rfl

theorem Ports.datagram {alloc : ℕ → Bool} {m : Memory} {udpHdr data : ℕ} {len : Word}
    (hr : Ports ⟨h, boundTo⟩) :
    Ports ⟨(sockUdpReceivePacketHandler alloc h m udpHdr data len).value, boundTo⟩ := by
  rw [sockUdpReceivePacketHandler_value]
  dsimp only
  split
  · exact hr.congr (dhcpHandlePacket_keeps Host.activeSockets fun _ _ _ _ _ _ => rfl)
  · cases h.findBound (load16 m (udpHdr + 2)) with
    | none => exact hr
    | some s =>
      dsimp only
      split
      · exact hr
      · exact hr.deliver

/-- The step lemma. -/
theorem Ports.step (hr : Ports r) (hstep : portSystem.step r e r') : Ports r' := by
  obtain ⟨hadm, rfl⟩ := hstep
  cases e with
  | create domain type protocol block buffer old => exact hr.create hadm
  | bind address addr => exact hr.bind
  | connect address addr => exact hr.connect
  | wait address thread =>
    have hwaiting : Ports ⟨r.host.setSocket address fun s => { s with waitingThread := thread },
        r.boundTo⟩ := hr.setSocket (fun _ => rfl) (fun _ => rfl) fun _ => rfl
    exact hwaiting.congr rfl
  | waited address => exact hr.setSocket (fun _ => rfl) (fun _ => rfl) fun _ => rfl
  | recv address len => exact hr.recv
  | close address => exact hr.close
  | datagram alloc m udpHdr data len => exact hr.datagram

/-- The run lemma. -/
theorem ports_of_reachable (h : portSystem.Reachable r) : Ports r := by
  apply h.invariant
  · intro r₀ hinit
    have hnone : ∀ s, s ∉ r₀.host.activeSockets := fun s => by
      rw [hinit]
      exact List.not_mem_nil
    refine ⟨?_, fun s hs => absurd hs (hnone s), fun s hs => absurd hs (hnone s)⟩
    rw [hinit]
    exact List.nodup_nil
  · intro r₀ e r₁ hr _ hstep
    exact hr.step hstep

/-! ### Delivery -/

theorem Ports.portsUnique (hr : Ports r) : PortsUnique r.host := by
  intro port hport
  obtain ⟨l, hl⟩ : ∃ l, l = r.host.activeSockets.filter fun s => s.Bound port := ⟨_, rfl⟩
  have hnodup : (l.map Socket.address).Nodup := by
    rw [hl]
    exact (List.filter_sublist.map _).nodup hr.nodup
  have hmem : ∀ s ∈ l, s ∈ r.host.activeSockets ∧ s.Bound port := by
    intro s hs
    rw [hl] at hs
    obtain ⟨hmem, hb⟩ := List.mem_filter.mp hs
    exact ⟨hmem, of_decide_eq_true hb⟩
  rw [← hl]
  match l with
  | [] => exact Nat.zero_le _
  | [_] => exact le_rfl
  | s :: s' :: rest =>
    obtain ⟨hs, hb⟩ := hmem s List.mem_cons_self
    obtain ⟨hs', hb'⟩ := hmem s' (List.mem_cons_of_mem _ List.mem_cons_self)
    have hsame := hr.unique s hs s' hs' port hport hb hb'
    have hnot := (List.nodup_cons.mp hnodup).1
    exact absurd (List.mem_cons.mpr (.inl hsame)) hnot

/-- An active socket is found at its address. -/
theorem socketAt_of_mem (hnodup : (h.activeSockets.map Socket.address).Nodup)
    (hs : s ∈ h.activeSockets) : h.socketAt s.address = some s := by
  cases hfind : h.socketAt s.address with
  | none => exact absurd (decide_eq_true rfl) (List.find?_eq_none.mp hfind s hs)
  | some s' =>
    have hs' := List.mem_of_find?_eq_some hfind
    rw [List.inj_on_of_nodup_map hnodup hs' hs (address_of_socketAt hfind)]

theorem Ports.socketAt (hr : Ports r) (hs : s ∈ r.host.activeSockets) :
    r.host.socketAt s.address = some s := socketAt_of_mem hr.nodup hs

/-- A delivery changes no other socket. -/
theorem address_of_changed {data : List Byte} (hchanged : Changed h (h.deliver s data) address) :
    address = s.address := by
  by_contra hne
  apply hchanged
  rw [socketAt_deliver]
  cases hs : h.socketAt address with
  | none => rfl
  | some s' =>
    have haddress := address_of_socketAt hs
    rw [Option.map_some, if_neg fun heq => hne (haddress.symm.trans heq)]

/-- A delivery changes its socket, unless there is no data and nobody waits. -/
theorem Ports.changed_deliver {data : List Byte} (hr : Ports r) (hs : s ∈ r.host.activeSockets)
    (hsome : data ≠ [] ∨ s.waitingThread ≠ 0) :
    Changed r.host (r.host.deliver s data) s.address := by
  intro heq
  rw [socketAt_deliver, hr.socketAt hs, Option.map_some, if_pos rfl] at heq
  have hsame := Option.some.inj heq
  rcases hsome with hdata | hwaiting
  · have hlen := congrArg (fun s => s.udpData.recvDataLen) hsame
    have hpos := List.length_pos_iff.mpr hdata
    simp only [UdpData.append] at hlen
    omega
  · exact hwaiting (congrArg Socket.waitingThread hsame).symm

theorem Ports.socketAt_deliver_nil (hr : Ports r) (hs : s ∈ r.host.activeSockets)
    (hwaiting : s.waitingThread = 0) :
    (r.host.deliver s []).socketAt s.address = r.host.socketAt s.address := by
  rw [socketAt_deliver, hr.socketAt hs, Option.map_some, if_pos rfl, UdpData.append_nil,
    ← hwaiting]

/-- In every reachable state no two active UDP sockets have one port other than 0, and a datagram
that is not for DHCP changes at most one socket, which was bound to its port, exactly when the
datagram is not for port 0, or finds a socket that was bound to port 0, or one that it does not
change. -/
theorem deliversByPort_iff {alloc : ℕ → Bool} {m : Memory} {udpHdr data : ℕ} {len : Word}
    (hr : portSystem.Reachable r)
    (hdhcp : ¬ (bswap16 (load16 m (udpHdr + 2)) = 68#16 ∨ bswap16 (load16 m (udpHdr + 2)) = 67#16)) :
    (PortsUnique r.host ∧ DeliversByPort r (load16 m (udpHdr + 2))
      (sockUdpReceivePacketHandler alloc r.host m udpHdr data len).value) ↔
    ToBound r (load16 m (udpHdr + 2)) len := by
  have hports := ports_of_reachable hr
  rw [and_iff_right hports.portsUnique, sockUdpReceivePacketHandler_value]
  dsimp only
  rw [if_neg hdhcp]
  have hsame : DeliversByPort r (load16 m (udpHdr + 2)) r.host :=
    ⟨fun a _ ha => absurd rfl ha, fun a ha => absurd rfl ha⟩
  cases hfound : r.host.findBound (load16 m (udpHdr + 2)) with
  | none =>
    refine iff_of_true hsame fun hzero s hs => ?_
    rw [hzero, hs] at hfound
    cases hfound
  | some s =>
    obtain ⟨hs, hb⟩ := bound_of_findBound _ hfound
    dsimp only
    by_cases hroom : s.udpData.spaceAvailable < len.toNat
    · rw [if_pos hroom]
      refine iff_of_true hsame fun hzero s' hs' => ?_
      rw [hzero, hs'] at hfound
      exact .inr (.inl (Option.some.inj hfound ▸ hroom))
    rw [if_neg hroom]
    constructor
    · intro hdelivers hzero s' hs'
      rw [hzero, hs'] at hfound
      obtain rfl := Option.some.inj hfound
      by_cases hsome : len.toNat = 0 ∧ s'.waitingThread = 0
      · exact .inr (.inr hsome)
      · have hchanged : Changed r.host (r.host.deliver s' (bytesAt m data len.toNat))
            s'.address := by
          apply hports.changed_deliver hs
          rcases not_and_or.mp hsome with hlen | hwaiting
          · left
            intro hnil
            have hlength := congrArg List.length hnil
            rw [length_bytesAt] at hlength
            exact hlen hlength
          · exact .inr hwaiting
        have hbound := hdelivers.bound _ hchanged
        rw [hzero] at hbound
        exact .inl hbound
    · intro hto
      refine ⟨fun a b ha hb => ?_, fun a ha => ?_⟩
      · exact (address_of_changed ha).trans (address_of_changed hb).symm
      · obtain rfl := address_of_changed ha
        have hport := hports.port s hs hb.1
        rw [hb.2] at hport
        by_cases hzero : load16 m (udpHdr + 2) = 0
        · rw [hzero] at hfound ⊢
          rcases hto hzero s hfound with hbound | hfull | ⟨hlen, hwaiting⟩
          · exact hbound
          · exact absurd hfull hroom
          · rw [hlen] at ha
            exact absurd (hports.socketAt_deliver_nil hs hwaiting) ha
        · cases hbound : r.boundTo s.address with
          | none =>
            rw [hbound] at hport
            exact absurd hport hzero
          | some port =>
            rw [hbound] at hport
            rw [hport]
            rfl

/-! ### One socket -/

/-- The state after an event. -/
def Bindings.after (r : Bindings) (e : SocketEvent) : Bindings := ⟨e.run r.host, e.bindings r⟩

def noSockets : Bindings := ⟨freshHost secondMac 0, fun _ => none⟩

/-- A UDP socket is created. -/
def createUdp : SocketEvent := .create 2 2 ipprotoUdp 0x1000 0x2000 fun _ => 0

theorem reachable_createUdp : portSystem.Reachable (noSockets.after createUdp) := by
  have hinit : portSystem.Reachable noSockets := .init rfl
  have hadm : createUdp.Admissible noSockets := fun s hs => absurd hs List.not_mem_nil
  exact hinit.step trivial ⟨hadm, rfl⟩

/-- The socket is bound to port 7. -/
def bindSeven : SocketEvent := .bind 0x1000 ⟨2, 7, 0⟩

/-- A datagram of three bytes comes to the socket that is bound to its port. -/
theorem deliversByPort_bindSeven :
    DeliversByPort ((noSockets.after createUdp).after bindSeven)
      (load16 (ofBytes (udpDatagram 9#16 7#16 [1, 2, 3])) (0 + 2))
      (sockUdpReceivePacketHandler (fun _ => true)
        ((noSockets.after createUdp).after bindSeven).host
        (ofBytes (udpDatagram 9#16 7#16 [1, 2, 3])) 0 8 3).value := by
  have hreach : portSystem.Reachable ((noSockets.after createUdp).after bindSeven) :=
    reachable_createUdp.step (a := bindSeven) trivial ⟨trivial, rfl⟩
  have hto : ToBound ((noSockets.after createUdp).after bindSeven)
      (load16 (ofBytes (udpDatagram 9#16 7#16 [1, 2, 3])) (0 + 2)) 3 :=
    fun hzero => absurd hzero (by decide)
  exact ((deliversByPort_iff hreach (by decide)).mpr hto).2

/-- A datagram of three bytes for port 0 comes to a socket that was never bound. -/
theorem not_deliversByPort : ¬ ∀ (r : Bindings) (alloc : ℕ → Bool) (m : Memory) (udpHdr data : ℕ)
    (len : Word), portSystem.Reachable r →
    ¬ (bswap16 (load16 m (udpHdr + 2)) = 68#16 ∨ bswap16 (load16 m (udpHdr + 2)) = 67#16) →
    PortsUnique r.host ∧ DeliversByPort r (load16 m (udpHdr + 2))
      (sockUdpReceivePacketHandler alloc r.host m udpHdr data len).value := by
  intro hall
  have hdelivers := (hall _ (fun _ => true) (ofBytes (udpDatagram 9#16 0#16 [1, 2, 3])) 0 8 3
    reachable_createUdp (by decide)).2
  have hchanged : Changed (noSockets.after createUdp).host
      (sockUdpReceivePacketHandler (fun _ => true) (noSockets.after createUdp).host
        (ofBytes (udpDatagram 9#16 0#16 [1, 2, 3])) 0 8 3).value 0x1000 := by
    intro heq
    have hlen := congrArg (Option.map fun s => s.udpData.recvDataLen) heq
    exact absurd hlen (by decide)
  exact absurd (hdelivers.bound _ hchanged) (by decide)

end

end KyroOS.Net

import KyroOS.Net.Dhcp

/-!
# Sockets

A UDP socket has a buffer for received bytes. Datagrams come to it in the receive interrupt, by way
of `sock_handle_incoming_packet`; the way by `udp_handle_packet` is not taken by the IP layer.

## Main definitions

* `UdpData.append`, `UdpData.take` — the buffer
* `sockUdpReceivePacketHandler`, `sockHandleIncomingPacket`, `udpHandlePacket` — the receive path
* `sockCreate`, `sockBind`, `sockConnect`, `sockSend`, `sockRecv` — the calls
-/

namespace KyroOS.Net

def afInet : BitVec 16 := 2
def ipprotoTcp : ℤ := 6
def ipprotoUdp : ℤ := 17

/-! ### The buffer -/

namespace UdpData

/-- `recv_buffer_size - recv_data_len` -/
def spaceAvailable (u : UdpData) : ℕ := u.recvBufferSize - u.recvDataLen

/-- The copy of received bytes to the buffer. -/
def append (u : UdpData) (data : List Byte) : UdpData :=
  { u with
    recvBuffer := fun i =>
      if u.recvDataLen ≤ i ∧ i < u.recvDataLen + data.length then data.getD (i - u.recvDataLen) 0
      else u.recvBuffer i
    recvDataLen := u.recvDataLen + data.length }

/-- The bytes that a call of `sock_recv` with room for `len` copies out. -/
def taken (u : UdpData) (len : ℕ) : List Byte :=
  bytesAt u.recvBuffer u.recvReadIdx (min len u.recvDataLen)

/-- The indices after such a call. -/
def take (u : UdpData) (len : ℕ) : UdpData :=
  let bytesToCopy := min len u.recvDataLen
  let recvDataLen := u.recvDataLen - bytesToCopy
  { u with
    recvReadIdx := if recvDataLen = 0 then 0 else u.recvReadIdx + bytesToCopy
    recvDataLen }

end UdpData

/-! ### The receive path -/

section

variable (alloc : ℕ → Bool) (h : Host) (m : Memory)

/-- The test of the loops over the sockets. -/
def Socket.Bound (port : BitVec 16) (s : Socket) : Prop :=
  s.protocol = ipprotoUdp ∧ s.localAddr.sinPort = port

instance (port : BitVec 16) : DecidablePred (Socket.Bound port) := fun _ =>
  inferInstanceAs (Decidable (_ ∧ _))

/-- The first socket that is bound to a port. -/
def Host.findBound (port : BitVec 16) : Option Socket :=
  h.activeSockets.find? fun s => s.Bound port

/-- The socket at an address. -/
def Host.socketAt (address : Word) : Option Socket :=
  h.activeSockets.find? fun s => s.address = address

/-- A change of the socket at an address. -/
def Host.setSocket (address : Word) (f : Socket → Socket) : Host :=
  { h with activeSockets := h.activeSockets.map fun s => if s.address = address then f s else s }

/-- A waiting thread is woken. -/
def Host.wake (thread : Word) : Host :=
  if thread ≠ 0 then { h with threadState := Function.update h.threadState thread .ready } else h

/-- A datagram is appended to the buffer of a socket, and the thread that waits is woken. -/
def Host.deliver (s : Socket) (data : List Byte) : Host :=
  (h.wake s.waitingThread).setSocket s.address fun s =>
    { s with udpData := s.udpData.append data, waitingThread := 0 }

/-- `sock_udp_receive_packet_handler`, for the header at `udpHdr` and the data at `data`. -/
def sockUdpReceivePacketHandler (udpHdr data : ℕ) (len : Word) : Rx Host := do
  let destPort ← Rx.load16 m (udpHdr + 2)
  if bswap16 destPort = 68#16 ∨ bswap16 destPort = 67#16 then
    Rx.pass .dhcpHandlePacket data len
    return dhcpHandlePacket alloc h m data len
  else
    match h.findBound destPort with
    | none => return h
    | some s =>
      if s.udpData.spaceAvailable < len.toNat then return h
      else
        Rx.pass .recvBuffer data len
        return h.deliver s (bytesAt m data len.toNat)

/-- What becomes of the host. -/
theorem sockUdpReceivePacketHandler_value (udpHdr data : ℕ) (len : Word) :
    (sockUdpReceivePacketHandler alloc h m udpHdr data len).value =
      let port := load16 m (udpHdr + 2)
      if bswap16 port = 68#16 ∨ bswap16 port = 67#16 then dhcpHandlePacket alloc h m data len
      else
        match h.findBound port with
        | none => h
        | some s =>
          if s.udpData.spaceAvailable < len.toNat then h
          else h.deliver s (bytesAt m data len.toNat) := by
  unfold sockUdpReceivePacketHandler
  rw [Rx.value_bind, Rx.value_ite]
  apply if_congr Iff.rfl rfl
  rw [Rx.value_load16]
  cases h.findBound (load16 m (udpHdr + 2)) with
  | none => rfl
  | some s => exact Rx.value_ite _ _ _

theorem bound_of_findBound {port : BitVec 16} {s : Socket} (hfound : h.findBound port = some s) :
    s ∈ h.activeSockets ∧ s.Bound port := by
  have hbound := List.find?_some hfound
  exact ⟨List.mem_of_find?_eq_some hfound, of_decide_eq_true hbound⟩

/-- `sock_handle_incoming_packet` -/
def sockHandleIncomingPacket (payload : ℕ) (payloadSize : Word) (protocol : Byte) : Rx Host := do
  if protocol = ipProtocolUdp then
    let udpDataLen ← Rx.sub payloadSize 8
    Rx.pass .sockUdpReceivePacketHandler (payload + 8) udpDataLen
    sockUdpReceivePacketHandler alloc h m payload (payload + 8) udpDataLen
  else return h

/-- `udp_handle_packet` -/
def udpHandlePacket (packet : ℕ) (size : Word) : Rx Host := do
  if size < 8#64 then return h
  let destPort := bswap16 (← Rx.load16 m (packet + 2))
  let length := bswap16 (← Rx.load16 m (packet + 4))
  if size < length.setWidth 64 then return h
  let dataLen ← Rx.sub (length.setWidth 64) 8
  if destPort ∈ h.udpHandlers then
    Rx.pass .sockUdpReceivePacketHandler (packet + 8) dataLen
    sockUdpReceivePacketHandler alloc h m packet (packet + 8) dataLen
  else return h

end

/-! ### The calls -/

section

variable (alloc : ℕ → Bool) (h : Host)

/-- `udp_register_handler` -/
def udpRegisterHandler (port : BitVec 16) : Host :=
  if h.udpHandlers.length < 64 then { h with udpHandlers := h.udpHandlers ++ [port] } else h

/-- `sock_create` of a UDP or TCP socket, with the blocks from `kmalloc` for it and for its buffer,
and what the buffer held. -/
def sockCreate (domain type protocol : ℤ) (block buffer : Word) (old : Memory) : Host × Word :=
  if domain ≠ 2 ∨ (type ≠ 1 ∧ type ≠ 2) ∨ (protocol ≠ ipprotoUdp ∧ protocol ≠ ipprotoTcp) then
    (h, 0)
  else if block = 0 ∨ (protocol = ipprotoUdp ∧ buffer = 0) then (h, 0)
  else
    let udpData : UdpData := ⟨old, if protocol = ipprotoUdp then 4096 else 0, 0, 0⟩
    let s : Socket := ⟨block, domain, protocol, .closed, ⟨0, 0, 0⟩, ⟨0, 0, 0⟩, udpData, 0⟩
    ({ h with activeSockets := s :: h.activeSockets }, block)

/-- `sock_connect` -/
def sockConnect (address : Word) (addr : SockaddrIn) : Host × ℤ :=
  match h.socketAt address with
  | none => (h, -1)
  | some s =>
    if s.domain ≠ 2 ∨ addr.sinFamily ≠ afInet then (h, -1)
    else if s.protocol = ipprotoUdp then
      (h.setSocket address fun s => { s with remoteAddr := addr, state := .connected }, 0)
    else (h, -1)

/-- `sock_bind` -/
def sockBind (address : Word) (addr : SockaddrIn) : Host × ℤ :=
  match h.socketAt address with
  | none => (h, -1)
  | some s =>
    if s.protocol = ipprotoUdp then
      if h.activeSockets.any fun s' => s'.address ≠ address ∧ s'.Bound addr.sinPort then (h, -1)
      else
        let h := h.setSocket address fun s => { s with localAddr := addr, state := .bound }
        (udpRegisterHandler h (bswap16 addr.sinPort), 0)
    else (h, -1)

/-- `sock_send`. The length comes back as an `int`. -/
def sockSend (address : Word) (buf : List Byte) : Host × ℤ :=
  match h.socketAt address with
  | none => (h, -1)
  | some s =>
    if buf.length = 0 then (h, -1)
    else if s.protocol = ipprotoUdp then
      if s.state ≠ .connected then (h, -1)
      else
        (udpSendPacket alloc h s.remoteAddr.sinAddr s.localAddr.sinPort s.remoteAddr.sinPort buf,
          (BitVec.ofNat 32 buf.length).toInt)
    else (h, -1)

/-- `sock_recv` once there is data in the buffer, with the bytes that it copies out. -/
def sockRecv (address : Word) (len : ℕ) : Host × ℤ × List Byte :=
  match h.socketAt address with
  | none => (h, -1, [])
  | some s =>
    if len = 0 then (h, -1, [])
    else if s.protocol = ipprotoUdp then
      if s.state = .closed then (h, -1, [])
      else
        (h.setSocket address fun s => { s with udpData := s.udpData.take len },
          (s.udpData.taken len).length, s.udpData.taken len)
    else (h, -1, [])

end

end KyroOS.Net

import KyroOS.Net.Checksum

/-!
# Hosts and the code that receives frames

A host is the data of the network code: the network device, the addresses of the IP layer, the cache
of ARP, the sockets and the DHCP client. Its device keeps the frames that were handed to it.

The code that receives frames computes with lengths and positions that the sender chose. It is
written here so that it notes what it does to the frame: which bytes it reads, which lengths it
subtracts and which ranges it passes on.

## Main definitions

* `Host` — the data of the network code
* `Rx` — a computation of the receive path with its notes
* `Host.sendPacket` — the device
-/

namespace KyroOS.Net

/-! ### The data -/

/-- A MAC address. -/
abbrev Mac := Fin 6 → Byte

namespace Mac

def bytes (a : Mac) : List Byte := List.ofFn a

def broadcast : Mac := fun _ => 0xFF

@[simp] theorem length_bytes (a : Mac) : a.bytes.length = 6 := List.length_ofFn

end Mac

/-- The MAC address at `p`. -/
def loadMac (m : Memory) (p : ℕ) : Mac := fun i => m (p + i)

theorem Contains.loadMac {m : Memory} {p : ℕ} {a : Mac} (h : Contains m p a.bytes) :
    loadMac m p = a := by
  funext i
  have hlt : (i : ℕ) < a.bytes.length := i.isLt.trans_eq (Mac.length_bytes a).symm
  exact (h i hlt).trans (List.getElem_ofFn _)

/-- `arp_cache_entry_t` -/
structure ArpCacheEntry where
  ipAddr : BitVec 32
  macAddr : Mac

/-- `arp_cache` and `arp_cache_next_idx` -/
structure ArpCache where
  entry : Fin 16 → ArpCacheEntry
  nextIdx : Fin 16

scoped instance neZero_arpCache : NeZero 16 := ⟨by decide⟩

/-- `sockaddr_in_t`, with the fields as they stand in memory. -/
structure SockaddrIn where
  sinFamily : BitVec 16
  sinPort : BitVec 16
  sinAddr : BitVec 32

/-- `socket_state_t` -/
inductive SocketState
  | closed
  | bound
  | connected
  | listening
  deriving DecidableEq, Repr

/-- `udp_data` of a socket. -/
structure UdpData where
  recvBuffer : Memory
  recvBufferSize : ℕ
  recvDataLen : ℕ
  recvReadIdx : ℕ

/-- `socket_t`, at its address. No thread waits when `waiting_thread` is 0. -/
structure Socket where
  address : Word
  domain : ℤ
  protocol : ℤ
  state : SocketState
  localAddr : SockaddrIn
  remoteAddr : SockaddrIn
  udpData : UdpData
  waitingThread : Word

/-- `dhcp_state_t` -/
inductive DhcpState
  | init
  | selecting
  | requesting
  | bound
  deriving DecidableEq, Repr

/-- The variables of the DHCP client. -/
structure DhcpClient where
  state : DhcpState
  localIp : BitVec 32
  gatewayIp : BitVec 32
  subnetMask : BitVec 32
  serverIp : BitVec 32

/-- The data of the network code of a host that has a network device. -/
structure Host where
  /-- The MAC address of the device. -/
  macAddr : Mac
  localIp : BitVec 32
  subnetMask : BitVec 32
  defaultGateway : BitVec 32
  arpCache : ArpCache
  /-- The ports of `udp_handlers`; the handler is always that of the sockets. -/
  udpHandlers : List (BitVec 16)
  activeSockets : List Socket
  dhcp : DhcpClient
  /-- The states of the threads, by their addresses. -/
  threadState : Word → ThreadState
  /-- The frames that were handed to the device. -/
  sent : List (List Byte)

/-- `e1000_send_packet`. A frame that is too large is dropped. -/
def Host.sendPacket (h : Host) (frame : List Byte) : Host :=
  if 2048 < frame.length then h else { h with sent := h.sent ++ [frame] }

/-- Sending a frame changes nothing but what was sent. -/
theorem sendPacket_eq (h : Host) (frame : List Byte) :
    h.sendPacket frame = { h with sent := (h.sendPacket frame).sent } := by
  unfold Host.sendPacket
  split <;> rfl

/-! ### Computations on a frame -/

/-- The functions that get a part of a frame. -/
inductive Receiver
  | arpHandlePacket
  | ipHandlePacket
  | icmpHandlePacket
  | sockHandleIncomingPacket
  | sockUdpReceivePacketHandler
  | dhcpHandlePacket
  | recvBuffer
  deriving DecidableEq, Repr

/-- A note on what is done to a frame. Positions are counted from its first byte. -/
inductive Note
  /-- Bytes are read. -/
  | read (first count : ℕ)
  /-- The second length is subtracted from the first. -/
  | sub (a b : Word)
  /-- A range is passed on. -/
  | pass (receiver : Receiver) (first : ℕ) (count : Word)
  deriving DecidableEq, Repr

/-- A computation on a frame: its result and its notes. -/
structure Rx (α : Type) where
  value : α
  notes : List Note

namespace Rx

variable {α β : Type}

instance : Monad Rx where
  pure a := ⟨a, []⟩
  bind x f := ⟨(f x.value).value, x.notes ++ (f x.value).notes⟩

@[simp] theorem value_pure (a : α) : (pure a : Rx α).value = a := rfl
@[simp] theorem notes_pure (a : α) : (pure a : Rx α).notes = [] := rfl

@[simp] theorem value_bind (x : Rx α) (f : α → Rx β) : (x >>= f).value = (f x.value).value := rfl

@[simp] theorem notes_bind (x : Rx α) (f : α → Rx β) :
    (x >>= f).notes = x.notes ++ (f x.value).notes := rfl

@[simp] theorem value_ite (c : Prop) [Decidable c] (x y : Rx α) :
    (if c then x else y).value = if c then x.value else y.value := by
  split <;> rfl

@[simp] theorem notes_ite (c : Prop) [Decidable c] (x y : Rx α) :
    (if c then x else y).notes = if c then x.notes else y.notes := by
  split <;> rfl

def load8 (m : Memory) (p : ℕ) : Rx Byte := ⟨m p, [.read p 1]⟩

def load16 (m : Memory) (p : ℕ) : Rx (BitVec 16) := ⟨Net.load16 m p, [.read p 2]⟩

def load32 (m : Memory) (p : ℕ) : Rx (BitVec 32) := ⟨Net.load32 m p, [.read p 4]⟩

/-- `memcpy` of a MAC address. -/
def loadMac (m : Memory) (p : ℕ) : Rx Mac := ⟨Net.loadMac m p, [.read p 6]⟩

/-- `memcpy` of a range. -/
def copy (m : Memory) (p n : ℕ) : Rx (List Byte) := ⟨bytesAt m p n, [.read p n]⟩

/-- A checksum of a range. -/
def checksum (m : Memory) (p n : ℕ) : Rx (BitVec 16) := ⟨ipChecksum m p n, [.read p n]⟩

/-- A difference of lengths. -/
def sub (a b : Word) : Rx Word := ⟨a - b, [.sub a b]⟩

/-- A range is passed on. -/
def pass (receiver : Receiver) (first : ℕ) (count : Word) : Rx Unit :=
  ⟨(), [.pass receiver first count]⟩

section Simp

variable (m : Memory) (p n : ℕ) (a b : Word) (receiver : Receiver)

@[simp] theorem value_load8 : (load8 m p).value = m p := rfl
@[simp] theorem value_load16 : (load16 m p).value = Net.load16 m p := rfl
@[simp] theorem value_load32 : (load32 m p).value = Net.load32 m p := rfl
@[simp] theorem value_loadMac : (loadMac m p).value = Net.loadMac m p := rfl
@[simp] theorem value_copy : (copy m p n).value = bytesAt m p n := rfl
@[simp] theorem value_checksum : (checksum m p n).value = ipChecksum m p n := rfl
@[simp] theorem value_sub : (sub a b).value = a - b := rfl
@[simp] theorem notes_load8 : (load8 m p).notes = [.read p 1] := rfl
@[simp] theorem notes_load16 : (load16 m p).notes = [.read p 2] := rfl
@[simp] theorem notes_load32 : (load32 m p).notes = [.read p 4] := rfl
@[simp] theorem notes_loadMac : (loadMac m p).notes = [.read p 6] := rfl
@[simp] theorem notes_copy : (copy m p n).notes = [.read p n] := rfl
@[simp] theorem notes_checksum : (checksum m p n).notes = [.read p n] := rfl
@[simp] theorem notes_sub : (sub a b).notes = [.sub a b] := rfl
@[simp] theorem notes_pass : (pass receiver p a).notes = [.pass receiver p a] := rfl

end Simp

end Rx

/-! ### The headers of Ethernet -/

def arpEtherType : BitVec 16 := 0x0806

def ipv4EtherType : BitVec 16 := 0x0800

/-- `ethernet_header_t` -/
def ethernetHeader (dest src : Mac) (etherType : BitVec 16) : List Byte :=
  dest.bytes ++ src.bytes ++ store16 (bswap16 etherType)

@[simp] theorem length_ethernetHeader (dest src : Mac) (etherType : BitVec 16) :
    (ethernetHeader dest src etherType).length = 14 := by
  simp [ethernetHeader]

/-- A host after the initialisation of the network code, with the address of its device and one of
the IP layer. -/
def freshHost (macAddr : Mac) (localIp : BitVec 32) : Host where
  macAddr
  localIp
  subnetMask := 0
  defaultGateway := 0
  arpCache := ⟨fun _ => ⟨0, fun _ => 0⟩, 0⟩
  udpHandlers := []
  activeSockets := []
  dhcp := ⟨.init, 0, 0, 0, 0⟩
  threadState _ := .ready
  sent := []

end KyroOS.Net

import KyroOS.Context.Schedule
import KyroOS.Lib.Custody
import KyroOS.Net.Ports
import KyroOS.Threads.Runnable
import KyroOS.Threads.UserSpace
import KyroOS.Vfs.Descriptors

/-!
# Sockets and the threads that hold them

`sys_socket` puts a socket on the list of active sockets and into the descriptor table of the
calling thread, and `sys_close` takes it from both. The table is in the record of the thread, which
a later call of `schedule` frees once the thread has exited. The list is not looked at then.

## Main definitions

* `SocketTables`, `sysSocket`, `sysBind`, `sysClose` — the threads and the sockets, and the calls
* `DescriptorEvent`, `DescriptorStep`, `descriptorSystem` — the runs from `thread_init` on
* `Released` — every active socket is in the table of a thread that was not freed, and a port that
  no such thread holds can be bound
* `ReapsClosed` — `schedule` frees no thread with an open socket

## Main results

* `SocketInv.step` — a descriptor refers to an active socket, and no other descriptor does
* `released_of_reachable` — sockets are released as long as threads are freed without them, and the
  first thread that is freed with one ends this
* `not_released` — a thread exits with a bound socket
-/

namespace KyroOS.Net

open KyroOS.Threads Transition Custody
open KyroOS.Vfs (fdIndex minusOne)

/-! ### The calls -/

/-- The threads with their descriptors, and the sockets. -/
structure SocketTables where
  kernel : Kernel
  host : Host

/-- The entry `i` of the descriptor table of the current thread is set. -/
def setFd (k : Kernel) (i : Fin 16) (entry : FdEntry) : Kernel :=
  k.setThread k.currentThread fun t => { t with fdTable := Function.update t.fdTable i entry }

/-- The blocks from `kmalloc` for a socket and for its buffer, and what the buffer held. -/
structure SocketBlocks where
  block : Word
  buffer : Word
  old : Memory

namespace SocketTables

/-- The descriptor table of the current thread. -/
def fdTable (s : SocketTables) : Fin 16 → FdEntry := (s.kernel.thread s.kernel.currentThread).fdTable

/-- The loop of `sys_socket` over the descriptors. It goes on to the next free one where
`sock_create` fails. -/
def sysSocketLoop (domain type protocol : BitVec 32) (blocks : Fin 16 → SocketBlocks) :
    List (Fin 16) → SocketTables → SocketTables × Word
  | [], s => (s, minusOne)
  | i :: fds, s =>
    if (s.fdTable i).type = .none then
      let b := blocks i
      let (host, sock) :=
        sockCreate s.host domain.toInt type.toInt protocol.toInt b.block b.buffer b.old
      if sock ≠ 0 then
        (⟨setFd s.kernel i { s.fdTable i with type := .socket, node := sock }, host⟩,
          BitVec.ofNat 64 i)
      else sysSocketLoop domain type protocol blocks fds { s with host }
    else sysSocketLoop domain type protocol blocks fds s

variable (s : SocketTables)

/-- `sys_socket` -/
def sysSocket (domain type protocol : BitVec 32) (blocks : Fin 16 → SocketBlocks) :
    SocketTables × Word :=
  sysSocketLoop domain type protocol blocks (List.finRange 16) s

/-- `sys_bind` -/
def sysBind (fd : BitVec 32) (addr : SockaddrIn) : SocketTables × ℤ :=
  match fdIndex fd with
  | none => (s, -1)
  | some i =>
    if (s.fdTable i).type ≠ .socket then (s, -1)
    else
      let (host, rax) := sockBind s.host (s.fdTable i).node addr
      ({ s with host }, rax)

/-- `sys_close` -/
def sysClose (fd : BitVec 32) : SocketTables × ℤ :=
  match fdIndex fd with
  | none => (s, -1)
  | some i =>
    match (s.fdTable i).type with
    | .none => (s, -1)
    | .file => ({ s with kernel := setFd s.kernel i emptyFd }, 0)
    | .socket =>
      let (host, _) := sockClose s.host (s.fdTable i).node
      (⟨setFd s.kernel i { s.fdTable i with type := .none, node := 0 }, host⟩, 0)

/-- The end of `sys_open`, for a node that was found or created. -/
def openFd (node offset : Word) (flags : BitVec 32) : SocketTables × Word :=
  match (List.finRange 16).find? fun i => (s.fdTable i).type = .none with
  | none => (s, minusOne)
  | some i =>
    ({ s with kernel := setFd s.kernel i ⟨.file, node, offset, flags⟩ }, BitVec.ofNat 64 i)

end SocketTables

/-! ### Runs -/

/-- A step of the threads, a call of the current thread, or a datagram. -/
inductive DescriptorEvent
  | threads (e : RingEvent)
  | socket (domain type protocol : BitVec 32) (blocks : Fin 16 → SocketBlocks)
  | bind (fd : BitVec 32) (addr : SockaddrIn)
  | close (fd : BitVec 32)
  | open (node offset : Word) (flags : BitVec 32)
  | traffic (e : SocketEvent)

/-- A call that neither creates nor binds nor closes a socket, or a datagram. -/
def SocketEvent.IsTraffic : SocketEvent → Prop
  | .create .. | .bind .. | .close .. => False
  | .connect .. | .wait .. | .waited .. | .recv .. | .datagram .. => True

/-- The table of `thread_create`, or one of `thread_create_userspace`. -/
def IsNewTable (fdTable : Fin 16 → FdEntry) : Prop :=
  fdTable = (fun _ => emptyFd) ∨ ∃ console old, fdTable = userFdTable console old

/-- One step. A thread that has exited makes no call, and `kmalloc` returns a block that is no
active socket. -/
inductive DescriptorStep : SocketTables → DescriptorEvent → SocketTables → Prop
  | threads {s : SocketTables} {e : RingEvent} {k : Kernel} (hstep : ringStep s.kernel e = some k)
    (hnew : ∀ p t, e = .add p t → IsNewTable t.fdTable) :
    DescriptorStep s (.threads e) { s with kernel := k }
  | socket {s : SocketTables} {domain type protocol : BitVec 32} {blocks : Fin 16 → SocketBlocks}
    (hruns : s.kernel.Runs)
    (hfresh : ∀ i, ∀ sock ∈ s.host.activeSockets, sock.address ≠ (blocks i).block) :
    DescriptorStep s (.socket domain type protocol blocks) (s.sysSocket domain type protocol blocks).1
  | bind {s : SocketTables} {fd : BitVec 32} {addr : SockaddrIn} (hruns : s.kernel.Runs) :
    DescriptorStep s (.bind fd addr) (s.sysBind fd addr).1
  | close {s : SocketTables} {fd : BitVec 32} (hruns : s.kernel.Runs) :
    DescriptorStep s (.close fd) (s.sysClose fd).1
  | open {s : SocketTables} {node offset : Word} {flags : BitVec 32} (hruns : s.kernel.Runs) :
    DescriptorStep s (.open node offset flags) (s.openFd node offset flags).1
  | traffic {s : SocketTables} {e : SocketEvent} (htraffic : e.IsTraffic) :
    DescriptorStep s (.traffic e) { s with host := e.run s.host }

/-- The runs from `thread_init` on, with no sockets at first. -/
def descriptorSystem : System SocketTables DescriptorEvent where
  init s := ringSystem.init s.kernel ∧ s.host.activeSockets = []
  step := DescriptorStep

/-! ### What is claimed of sockets -/

/-- The descriptor `i` of the thread `t` is the socket at `a`. -/
def HoldsSocket (k : Kernel) (t : Word) (i : Fin 16) (a : Word) : Prop :=
  ((k.thread t).fdTable i).type = .socket ∧ ((k.thread t).fdTable i).node = a

/-- A thread that was not freed holds a socket with the port. -/
def PortHeld (s : SocketTables) (port : BitVec 16) : Prop :=
  ∃ t ∈ s.kernel.live, ∃ i, ∃ sock ∈ s.host.activeSockets,
    HoldsSocket s.kernel t i sock.address ∧ sock.Bound port

/-- Every active socket is held by a thread that was not freed. So the current thread can bind any
UDP socket it holds to a port that no such thread holds, also if one that was freed had it. -/
structure Released (s : SocketTables) : Prop where
  held : ∀ sock ∈ s.host.activeSockets, ∃ t ∈ s.kernel.live, ∃ i,
    HoldsSocket s.kernel t i sock.address
  binds : ∀ fd addr i, ∀ sock ∈ s.host.activeSockets, fdIndex fd = some i →
    HoldsSocket s.kernel s.kernel.currentThread i sock.address → sock.protocol = ipprotoUdp →
      ¬ PortHeld s addr.sinPort → (s.sysBind fd addr).2 = 0

/-- A thread that `schedule` frees has no socket open. -/
def ReapsClosed (s : SocketTables) : DescriptorEvent → Prop
  | .threads (.schedule _ _) =>
    ∀ p, Reaps s.kernel p → ∀ i, ((s.kernel.thread p).fdTable i).type ≠ .socket
  | .threads _ | .socket .. | .bind .. | .close _ | .open .. | .traffic _ => True

/-! ### Descriptors as slots -/

/-- What the descriptors of the threads that were not freed hold. -/
def SocketTables.slots (s : SocketTables) : Word × Fin 16 → Option Word := fun (t, i) =>
  if t ∈ s.kernel.live ∧ ((s.kernel.thread t).fdTable i).type = .socket then
    some ((s.kernel.thread t).fdTable i).node
  else none

/-- The addresses of the active sockets. -/
def SocketTables.used (s : SocketTables) : Set Word :=
  {a | a ∈ s.host.activeSockets.map Socket.address}

/-- The ring is in order, and descriptors hold active sockets, each its own. -/
structure SocketInv (s : SocketTables) : Prop where
  ring : RingInv s.kernel
  nodup : (s.host.activeSockets.map Socket.address).Nodup
  exclusive : Exclusive s.slots s.used

section Slots

variable {s s' : SocketTables} {k : Kernel} {h h' : Host} {t a : Word} {i : Fin 16} {entry : FdEntry}
  {e : SocketEvent}

theorem slots_eq_some : s.slots (t, i) = some a ↔ t ∈ s.kernel.live ∧ HoldsSocket s.kernel t i a := by
  unfold SocketTables.slots HoldsSocket
  dsimp only
  split_ifs with hheld
  · rw [Option.some.injEq, and_iff_right hheld.1, and_iff_right hheld.2]
  · rw [← and_assoc]
    exact iff_of_false nofun fun hboth => hheld hboth.1

/-- Slots and sockets that are the same. -/
theorem slots_congr (hlive : k.live = s.kernel.live)
    (htable : ∀ t ∈ s.kernel.live, (k.thread t).fdTable = (s.kernel.thread t).fdTable) :
    SocketTables.slots ⟨k, h⟩ = s.slots := by
  funext ⟨t, i⟩
  unfold SocketTables.slots
  dsimp only
  rw [hlive]
  by_cases ht : t ∈ s.kernel.live
  · rw [htable t ht]
  · rw [if_neg fun hboth => ht hboth.1, if_neg fun hboth => ht hboth.1]

theorem setFd_next (k : Kernel) (i : Fin 16) (entry : FdEntry) : (setFd k i entry).next = k.next := by
  funext p
  by_cases hp : p = k.currentThread
  · rw [hp, Kernel.next, setFd, setThread_self]
    rfl
  · rw [Kernel.next, setFd, setThread_of_ne _ _ hp]
    rfl

theorem ringInv_setFd (hring : RingInv k) (i : Fin 16) (entry : FdEntry) :
    RingInv (setFd k i entry) := by
  refine ⟨hring.current, hring.zero, hring.ring.imp_right ?_⟩
  rintro ⟨l, hl⟩
  refine ⟨l, ?_, hl.entry, hl.live⟩
  rw [setFd_next]
  exact hl.ring

/-- The slots of the current thread. -/
theorem slots_current (hring : RingInv s.kernel) (i : Fin 16) :
    s.slots (s.kernel.currentThread, i) =
      if (s.fdTable i).type = .socket then some (s.fdTable i).node else none :=
  if_congr (and_iff_right hring.current) rfl rfl

/-- Setting a descriptor sets its slot. -/
theorem slots_setFd (hring : RingInv s.kernel) (i : Fin 16) (entry : FdEntry) (h : Host) :
    SocketTables.slots ⟨setFd s.kernel i entry, h⟩ =
      Function.update s.slots (s.kernel.currentThread, i)
        (if entry.type = .socket then some entry.node else none) := by
  funext ⟨t, j⟩
  by_cases ht : t = s.kernel.currentThread
  · subst ht
    have hslot := slots_current (s := ⟨setFd s.kernel i entry, h⟩) (ringInv_setFd hring i entry) j
    have htable : SocketTables.fdTable ⟨setFd s.kernel i entry, h⟩ =
        Function.update s.fdTable i entry := by
      show ((setFd s.kernel i entry).thread s.kernel.currentThread).fdTable = _
      rw [setFd, setThread_self]
      rfl
    rw [htable] at hslot
    refine hslot.trans ?_
    by_cases hj : j = i
    · subst hj
      rw [Function.update_self, Function.update_self]
    · have hne : (s.kernel.currentThread, j) ≠ (s.kernel.currentThread, i) :=
        fun heq => hj (Prod.mk.inj heq).2
      rw [Function.update_of_ne hj, Function.update_of_ne hne, slots_current hring]
  · have hne : (t, j) ≠ (s.kernel.currentThread, i) := fun heq => ht (Prod.mk.inj heq).1
    rw [Function.update_of_ne hne]
    unfold SocketTables.slots
    dsimp only
    rw [setFd, setThread_of_ne _ _ ht]
    rfl

/-- Every socket is held exactly when the slots cover the list. -/
theorem covered_iff : Covered s.slots s.used ↔ ∀ sock ∈ s.host.activeSockets,
    ∃ t ∈ s.kernel.live, ∃ i, HoldsSocket s.kernel t i sock.address := by
  constructor
  · intro hcovered sock hsock
    obtain ⟨⟨t, i⟩, hslot⟩ := hcovered _ (List.mem_map_of_mem hsock)
    obtain ⟨ht, hholds⟩ := slots_eq_some.mp hslot
    exact ⟨t, ht, i, hholds⟩
  · intro hheld a ha
    obtain ⟨sock, hsock, rfl⟩ := List.mem_map.mp ha
    obtain ⟨t, ht, i, hholds⟩ := hheld sock hsock
    exact ⟨(t, i), slots_eq_some.mpr ⟨ht, hholds⟩⟩

end Slots

/-! ### The steps -/

section Steps

variable {s s' : SocketTables} {k : Kernel} {h h' : Host} {t p a : Word} {i : Fin 16}
  {entry : FdEntry} {e : DescriptorEvent}

/-- What a call does to the slots: a new socket is held, or one is closed, or nothing changes. -/
inductive SlotStep (s s' : SocketTables) : Prop
  | acquire (i : Word × Fin 16) (a : Word) (hfree : s.slots i = none) (hnew : a ∉ s.used)
    (hslots : s'.slots = Function.update s.slots i (some a))
    (haddresses : s'.host.activeSockets.map Socket.address =
      a :: s.host.activeSockets.map Socket.address)
  | release (i : Word × Fin 16) (a : Word) (hslot : s.slots i = some a)
    (hslots : s'.slots = Function.update s.slots i none)
    (haddresses : s'.host.activeSockets.map Socket.address =
      (s.host.activeSockets.map Socket.address).erase a)
  | same (hslots : s'.slots = s.slots) (haddresses : s'.host.activeSockets.map Socket.address =
    s.host.activeSockets.map Socket.address)

theorem addresses_setSocket {f : Socket → Socket} (hf : ∀ x, (f x).address = x.address) (h : Host)
    (a : Word) : (h.setSocket a f).activeSockets.map Socket.address =
      h.activeSockets.map Socket.address := by
  rw [Host.setSocket, List.map_map]
  apply List.map_congr_left
  intro x _
  rw [Function.comp_apply]
  split
  · exact hf x
  · rfl

theorem used_congr (haddresses : s'.host.activeSockets.map Socket.address =
    s.host.activeSockets.map Socket.address) : s'.used = s.used := by
  unfold SocketTables.used
  rw [haddresses]

theorem used_of_cons (haddresses : s'.host.activeSockets.map Socket.address =
    a :: s.host.activeSockets.map Socket.address) : s'.used = insert a s.used := by
  ext b
  show b ∈ s'.host.activeSockets.map Socket.address ↔ _
  rw [haddresses]
  exact List.mem_cons

theorem used_of_erase (hinv : SocketInv s) (haddresses : s'.host.activeSockets.map Socket.address =
    (s.host.activeSockets.map Socket.address).erase a) : s'.used = s.used \ {a} := by
  ext b
  show b ∈ s'.host.activeSockets.map Socket.address ↔ _
  rw [haddresses, hinv.nodup.mem_erase_iff, and_comm]
  rfl

/-- The addresses after a call that neither creates nor closes a socket. -/
theorem addresses_run {e : SocketEvent} (he : e.IsTraffic) (h : Host) :
    (e.run h).activeSockets.map Socket.address = h.activeSockets.map Socket.address := by
  cases e with
  | create => exact he.elim
  | bind => exact he.elim
  | close => exact he.elim
  | connect a addr =>
    rw [SocketEvent.run, sockConnect]
    cases h.socketAt a with
    | none => rfl
    | some x =>
      dsimp only
      split_ifs
      · rfl
      · apply addresses_setSocket
        exact fun _ => rfl
      · rfl
  | wait a thread =>
    apply addresses_setSocket
    exact fun _ => rfl
  | waited a =>
    apply addresses_setSocket
    exact fun _ => rfl
  | recv a len =>
    rw [SocketEvent.run, sockRecv]
    cases h.socketAt a with
    | none => rfl
    | some x =>
      dsimp only
      split_ifs
      · rfl
      · rfl
      · apply addresses_setSocket
        exact fun _ => rfl
      · rfl
  | datagram alloc m udpHdr data len =>
    rw [SocketEvent.run, sockUdpReceivePacketHandler_value]
    dsimp only
    split
    · rw [dhcpHandlePacket_keeps Host.activeSockets fun _ _ _ _ _ _ => rfl]
    · cases h.findBound (load16 m (udpHdr + 2)) with
      | none => rfl
      | some x =>
        dsimp only
        split
        · rfl
        · rw [Host.deliver, addresses_setSocket, wake_activeSockets]
          exact fun _ => rfl

/-- `sys_socket` fails, or a free descriptor takes the new socket. -/
theorem sysSocketLoop_cases (domain type protocol : BitVec 32) (blocks : Fin 16 → SocketBlocks)
    (fds : List (Fin 16)) (s : SocketTables) :
    (s.sysSocketLoop domain type protocol blocks fds).1 = s ∨
      ∃ (i : Fin 16) (x : Socket), (s.fdTable i).type = .none ∧ x.address = (blocks i).block ∧
        (s.sysSocketLoop domain type protocol blocks fds).1 =
          ⟨setFd s.kernel i { s.fdTable i with type := .socket, node := x.address },
            { s.host with activeSockets := x :: s.host.activeSockets }⟩ := by
  induction fds with
  | nil => exact .inl rfl
  | cons i fds ih =>
    rw [SocketTables.sysSocketLoop]
    by_cases hfree : (s.fdTable i).type = .none
    · rw [if_pos hfree]
      dsimp only
      rcases sockCreate_cases s.host domain.toInt type.toInt protocol.toInt (blocks i).block
        (blocks i).buffer (blocks i).old with heq | ⟨x, hblock, haddress, -, heq⟩
      · rw [heq, if_neg (not_not.mpr rfl)]
        exact ih
      · rw [heq, if_pos hblock]
        exact .inr ⟨i, x, hfree, haddress, by rw [haddress]⟩
    · rw [if_neg hfree]
      exact ih

/-- `sys_socket` acquires a socket, or does nothing. -/
theorem slotStep_socket (hinv : SocketInv s) {domain type protocol : BitVec 32}
    {blocks : Fin 16 → SocketBlocks}
    (hfresh : ∀ i, ∀ x ∈ s.host.activeSockets, x.address ≠ (blocks i).block) :
    RingInv (s.sysSocket domain type protocol blocks).1.kernel ∧
      SlotStep s (s.sysSocket domain type protocol blocks).1 := by
  rcases sysSocketLoop_cases domain type protocol blocks (List.finRange 16) s with
    hsame | ⟨i, x, hfree, haddress, hnew⟩
  · rw [SocketTables.sysSocket, hsame]
    exact ⟨hinv.ring, SlotStep.same rfl rfl⟩
  · rw [SocketTables.sysSocket, hnew]
    refine ⟨ringInv_setFd hinv.ring i _, .acquire (s.kernel.currentThread, i) x.address ?_ ?_ ?_ rfl⟩
    · rw [slots_current hinv.ring, hfree]
      rfl
    · intro hmem
      obtain ⟨y, hy, heq⟩ := List.mem_map.mp hmem
      exact hfresh i y hy (heq.trans haddress)
    · exact slots_setFd hinv.ring i _ _

/-- `sys_bind` changes no slot. -/
theorem slotStep_bind (hinv : SocketInv s) {fd : BitVec 32} {addr : SockaddrIn} :
    RingInv (s.sysBind fd addr).1.kernel ∧ SlotStep s (s.sysBind fd addr).1 := by
  unfold SocketTables.sysBind
  cases fdIndex fd with
  | none => exact ⟨hinv.ring, SlotStep.same rfl rfl⟩
  | some i =>
    dsimp only
    split_ifs
    · exact ⟨hinv.ring, SlotStep.same rfl rfl⟩
    refine ⟨hinv.ring, SlotStep.same rfl ?_⟩
    show (sockBind s.host (s.fdTable i).node addr).1.activeSockets.map Socket.address = _
    rcases sockBind_cases s.host (s.fdTable i).node addr with heq | ⟨-, -, -, hsockets⟩
    · rw [heq]
    · rw [hsockets]
      apply addresses_setSocket
      exact fun _ => rfl

/-- A descriptor that is no socket is set to another one that is none. -/
theorem slotStep_setFd (hinv : SocketInv s) (hold : (s.fdTable i).type ≠ .socket)
    (hnew : entry.type ≠ .socket) : SlotStep s { s with kernel := setFd s.kernel i entry } := by
  refine SlotStep.same ?_ rfl
  rw [slots_setFd hinv.ring, if_neg hnew, Function.update_eq_self_iff, slots_current hinv.ring,
    if_neg hold]

/-- A closed socket is taken off the list. -/
theorem addresses_sockClose (ha : a ∈ h.activeSockets.map Socket.address) :
    (sockClose h a).1.activeSockets.map Socket.address =
      (h.activeSockets.map Socket.address).erase a := by
  obtain ⟨x, hx, hxa⟩ := List.mem_map.mp ha
  rw [sockClose]
  cases hfind : h.socketAt a with
  | none => exact absurd (decide_eq_true hxa) (List.find?_eq_none.mp hfind x hx)
  | some y =>
    rw [List.erase_eq_eraseP', List.eraseP_map]
    rfl

/-- `sys_close` releases the socket of the descriptor, if it is one. -/
theorem slotStep_close (hinv : SocketInv s) {fd : BitVec 32} :
    RingInv (s.sysClose fd).1.kernel ∧ SlotStep s (s.sysClose fd).1 := by
  unfold SocketTables.sysClose
  cases fdIndex fd with
  | none => exact ⟨hinv.ring, SlotStep.same rfl rfl⟩
  | some i =>
    dsimp only
    cases htype : (s.fdTable i).type with
    | none => exact ⟨hinv.ring, SlotStep.same rfl rfl⟩
    | file =>
      refine ⟨ringInv_setFd hinv.ring i _, slotStep_setFd hinv ?_ (by decide)⟩
      rw [htype]
      decide
    | socket =>
      have hslot : s.slots (s.kernel.currentThread, i) = some (s.fdTable i).node := by
        rw [slots_current hinv.ring, if_pos htype]
      refine ⟨ringInv_setFd hinv.ring i _, .release _ _ hslot (slots_setFd hinv.ring i _ _) ?_⟩
      -- the socket is on the list
      have hused := hinv.exclusive.used _ _ hslot
      exact addresses_sockClose hused

/-- `sys_open` changes no slot. -/
theorem slotStep_open (hinv : SocketInv s) {node offset : Word} {flags : BitVec 32} :
    RingInv (s.openFd node offset flags).1.kernel ∧ SlotStep s (s.openFd node offset flags).1 := by
  unfold SocketTables.openFd
  cases hfind : (List.finRange 16).find? fun i => (s.fdTable i).type = .none with
  | none => exact ⟨hinv.ring, SlotStep.same rfl rfl⟩
  | some i =>
    have hdecide := List.find?_some hfind
    have hfree : (s.fdTable i).type = .none := of_decide_eq_true hdecide
    refine ⟨ringInv_setFd hinv.ring i _,
      slotStep_setFd hinv ?_ (show FdType.file ≠ .socket by decide)⟩
    rw [hfree]
    decide

/-- The threads after a step. -/
theorem ringInv_threads (hring : RingInv k) {e : RingEvent} {k' : Kernel}
    (hstep : ringStep k e = some k') : RingInv k' :=
  hring.step (searchesEnd_of_step hring hstep) hstep

/-- Setting a state changes no slot. -/
theorem slotStep_setState (s : SocketTables) (p : Word) (state : ThreadState) :
    SlotStep s { s with kernel := s.kernel.setState p state } := by
  refine SlotStep.same (slots_congr rfl fun t _ => ?_) rfl
  exact setState_fields s.kernel p t state Thread.fdTable fun _ _ => rfl

/-- A new table holds no socket. -/
theorem IsNewTable.type_ne {fdTable : Fin 16 → FdEntry} (hnew : IsNewTable fdTable) (i : Fin 16) :
    (fdTable i).type ≠ .socket := by
  rcases hnew with rfl | ⟨console, old, rfl⟩
  · exact nofun
  · unfold userFdTable
    split_ifs
    · exact nofun
    · exact nofun
    · exact nofun
    · exact (by decide : emptyFd.type ≠ .socket)

theorem slotStep_add {t : Thread} (hp : p ∉ s.kernel.live)
    (hnew : IsNewTable t.fdTable) (hadd : schedulerAddThread (s.kernel.place p t) p = .ok k) :
    SlotStep s { s with kernel := k } := by
  have hlinks := relinks_schedulerAddThread hadd
  have hlive : k.live = insert p s.kernel.live := hlinks.live
  have hplace : (s.kernel.place p t).thread = Function.update s.kernel.thread p t := rfl
  have htable : ∀ q, (k.thread q).fdTable = ((s.kernel.place p t).thread q).fdTable := by
    intro q
    obtain ⟨next, hq⟩ := hlinks.thread q
    rw [hq]
  refine SlotStep.same ?_ rfl
  funext ⟨q, i⟩
  by_cases hq : q = p
  · -- the new thread has no socket, and it was not there before
    subst hq
    have hplaced : (k.thread q).fdTable = t.fdTable := by
      rw [htable, hplace, Function.update_self]
    exact (if_neg fun hboth => hnew.type_ne i (hplaced ▸ hboth.2)).trans
      (if_neg fun hboth => hp hboth.1).symm
  · have hkept : (k.thread q).fdTable = (s.kernel.thread q).fdTable := by
      rw [htable, hplace, Function.update_of_ne hq]
    have hmem : q ∈ k.live ↔ q ∈ s.kernel.live := by
      rw [hlive, Finset.mem_insert, or_iff_right hq]
    unfold SocketTables.slots
    dsimp only
    rw [hkept]
    exact if_congr (and_congr_left' hmem) rfl rfl

/-- The slots after a call of `schedule` are those of the threads that it did not free. -/
theorem slots_schedule {turns : ℕ} {rsp : Word}
    (hok : scheduleAndSwitch turns s.kernel rsp = .ok k) :
    SocketTables.slots ⟨k, h⟩ (t, i) = some a ↔ ¬ Reaps s.kernel t ∧ s.slots (t, i) = some a := by
  have htable : (k.thread t).fdTable = (s.kernel.thread t).fdTable :=
    Context.scheduleAndSwitch_field Thread.fdTable (fun _ _ => rfl) (fun _ _ => rfl) (fun _ _ => rfl)
      hok
  rw [slots_eq_some, slots_eq_some, HoldsSocket, HoldsSocket]
  show t ∈ k.live ∧ ((k.thread t).fdTable i).type = .socket ∧ _ ↔ _
  rw [mem_live_scheduleAndSwitch hok]
  show _ ∧ _ ∧ ((k.thread t).fdTable i).node = a ↔ _
  rw [htable]
  tauto

/-- A step of the threads changes no slot, or it is a call of `schedule`. -/
theorem slotStep_threads {e : RingEvent} (hstep : ringStep s.kernel e = some k)
    (hnew : ∀ p t, e = .add p t → IsNewTable t.fdTable) :
    SlotStep s { s with kernel := k } ∨
      ∃ turns rsp, e = .schedule turns rsp ∧ scheduleAndSwitch turns s.kernel rsp = .ok k := by
  cases e with
  | schedule turns rsp => exact .inr ⟨turns, rsp, rfl, ok_of_ringStep hstep⟩
  | add p t =>
    rw [ringStep] at hstep
    split_ifs at hstep with hguard
    exact .inl (slotStep_add hguard.2.2 (hnew p t rfl) (Outcome.toOption_eq_some.mp hstep))
  | block =>
    rw [ringStep] at hstep
    split_ifs at hstep
    exact .inl (Option.some.inj hstep ▸ slotStep_setState s _ _)
  | wake p =>
    rw [ringStep] at hstep
    split_ifs at hstep
    exact .inl (Option.some.inj hstep ▸ slotStep_setState s _ _)
  | exit =>
    rw [ringStep] at hstep
    split_ifs at hstep
    exact .inl (Option.some.inj hstep ▸ slotStep_setState s _ _)

/-- A call of `schedule`, with the threads after it. -/
def IsSchedule (s : SocketTables) (e : DescriptorEvent) (s' : SocketTables) : Prop :=
  ∃ turns rsp k, e = .threads (.schedule turns rsp) ∧
    scheduleAndSwitch turns s.kernel rsp = .ok k ∧ s' = { s with kernel := k }

theorem reapsClosed_of_ne (hne : ∀ turns rsp, e ≠ .threads (.schedule turns rsp)) :
    ReapsClosed s e := by
  cases e with
  | threads e =>
    cases e with
    | schedule turns rsp => exact absurd rfl (hne turns rsp)
    | add => trivial
    | block => trivial
    | wake => trivial
    | exit => trivial
  | socket => trivial
  | bind => trivial
  | close => trivial
  | «open» => trivial
  | traffic => trivial

/-- What any step does. -/
theorem slotStep_of_step (hinv : SocketInv s) (hstep : DescriptorStep s e s') :
    RingInv s'.kernel ∧ (SlotStep s s' ∧ ReapsClosed s e ∨ IsSchedule s e s') := by
  cases hstep with
  | @threads e k hstep hnew =>
    refine ⟨ringInv_threads hinv.ring hstep, ?_⟩
    by_cases hschedule : ∃ turns rsp, e = .schedule turns rsp
    · obtain ⟨turns, rsp, rfl⟩ := hschedule
      exact .inr ⟨turns, rsp, k, rfl, ok_of_ringStep hstep, rfl⟩
    · rcases slotStep_threads hstep hnew with hslot | ⟨turns, rsp, rfl, -⟩
      · refine .inl ⟨hslot, reapsClosed_of_ne fun turns rsp heq => hschedule ?_⟩
        cases heq
        exact ⟨turns, rsp, rfl⟩
      · exact absurd ⟨turns, rsp, rfl⟩ hschedule
  | socket hruns hfresh =>
    obtain ⟨hring, hslot⟩ := slotStep_socket hinv hfresh
    exact ⟨hring, .inl ⟨hslot, trivial⟩⟩
  | bind hruns =>
    obtain ⟨hring, hslot⟩ := slotStep_bind hinv
    exact ⟨hring, .inl ⟨hslot, trivial⟩⟩
  | close hruns =>
    obtain ⟨hring, hslot⟩ := slotStep_close hinv
    exact ⟨hring, .inl ⟨hslot, trivial⟩⟩
  | «open» hruns =>
    obtain ⟨hring, hslot⟩ := slotStep_open hinv
    exact ⟨hring, .inl ⟨hslot, trivial⟩⟩
  | traffic htraffic =>
    exact ⟨hinv.ring, .inl ⟨.same rfl (addresses_run htraffic _), trivial⟩⟩

/-- The step lemma. -/
theorem SocketInv.step (hinv : SocketInv s) (hstep : DescriptorStep s e s') : SocketInv s' := by
  obtain ⟨hring, ⟨hslot, -⟩ | ⟨turns, rsp, k, rfl, hok, rfl⟩⟩ := slotStep_of_step hinv hstep
  · cases hslot with
    | acquire i a hfree hnew hslots haddresses =>
      refine ⟨hring, ?_, ?_⟩
      · rw [haddresses]
        exact List.nodup_cons.mpr ⟨hnew, hinv.nodup⟩
      · rw [hslots, used_of_cons haddresses]
        exact hinv.exclusive.acquire hnew
    | release i a hslot hslots haddresses =>
      refine ⟨hring, haddresses ▸ hinv.nodup.erase a, ?_⟩
      rw [hslots, used_of_erase hinv haddresses]
      exact hinv.exclusive.release hslot
    | same hslots haddresses =>
      refine ⟨hring, haddresses ▸ hinv.nodup, ?_⟩
      rw [hslots, used_congr haddresses]
      exact hinv.exclusive
  · refine ⟨hring, hinv.nodup, hinv.exclusive.drop ?_⟩
    exact fun (t, i) a ha => ((slots_schedule hok).mp ha).2

/-- A thread that is freed was DEAD before. -/
theorem dead_of_reaps (h : Reaps k p) : k.Dead p := by
  obtain ⟨-, -, s, hs, hfrees, rfl⟩ := h
  have hdead : ∀ q, s.kernel.Dead q → k.Dead q :=
    hs.preserves (I := fun k' => ∀ q, k'.Dead q → k.Dead q)
      (fun _ _ hI hshuffles q hq => hI q (hshuffles.dead_back hq))
      (fun _ _ hI _ q hq => hI q ⟨Finset.mem_of_mem_erase hq.live, hq.dead, hq.id⟩) fun _ hq => hq
  exact hdead s.curr hfrees.dead

/-- A call of `schedule` keeps the sockets held exactly when it frees no thread with one. -/
theorem covered_schedule_iff (hinv : SocketInv s) (hcovered : Covered s.slots s.used) {turns : ℕ}
    {rsp : Word} (hok : scheduleAndSwitch turns s.kernel rsp = .ok k) :
    Covered (SocketTables.slots ⟨k, s.host⟩) s.used ↔
      ReapsClosed s (.threads (.schedule turns rsp)) := by
  rw [covered_drop_iff hinv.exclusive hcovered fun (t, i) a ha => ((slots_schedule hok).mp ha).2]
  constructor
  · intro hkept p hreaps i htype
    have hslot := slots_eq_some.mpr ⟨(dead_of_reaps hreaps).live, htype, rfl⟩
    exact ((slots_schedule hok).mp (hkept _ _ hslot)).1 hreaps
  · rintro hclosed ⟨t, i⟩ a ha
    refine (slots_schedule hok).mpr ⟨fun hreaps => ?_, ha⟩
    exact hclosed t hreaps i (slots_eq_some.mp ha).2.1

/-- A step keeps the sockets held exactly when it frees no thread with one. -/
theorem covered_iff_of_step (hinv : SocketInv s) (hcovered : Covered s.slots s.used)
    (hstep : DescriptorStep s e s') : Covered s'.slots s'.used ↔ ReapsClosed s e := by
  obtain ⟨-, ⟨hslot, hclosed⟩ | ⟨turns, rsp, k, rfl, hok, rfl⟩⟩ := slotStep_of_step hinv hstep
  · refine iff_of_true ?_ hclosed
    cases hslot with
    | acquire i a hfree hnew hslots haddresses =>
      rw [hslots, used_of_cons haddresses]
      exact hcovered.acquire hfree
    | release i a hslot hslots haddresses =>
      rw [hslots, used_of_erase hinv haddresses]
      exact hcovered.release hslot
    | same hslots haddresses =>
      rw [hslots, used_congr haddresses]
      exact hcovered
  · exact covered_schedule_iff hinv hcovered hok

/-- Where every socket is held, a port that nobody holds can be bound. -/
theorem released_iff (hinv : SocketInv s) : Released s ↔ Covered s.slots s.used := by
  refine ⟨fun h => covered_iff.mpr h.held, fun hcovered => ?_⟩
  have hheld := covered_iff.mp hcovered
  refine ⟨hheld, fun fd addr i x hx hfd hholds hudp hport => ?_⟩
  have hnode : (s.fdTable i).node = x.address := hholds.2
  have hat : s.host.socketAt (s.fdTable i).node = some x := by
    rw [hnode]
    exact socketAt_of_mem hinv.nodup hx
  unfold SocketTables.sysBind
  rw [hfd]
  dsimp only
  have htype : (s.fdTable i).type = .socket := hholds.1
  rw [if_neg (not_not.mpr htype)]
  show (sockBind s.host (s.fdTable i).node addr).2 = 0
  unfold sockBind
  rw [hat]
  dsimp only
  rw [if_pos hudp, if_neg]
  rw [List.any_eq_true]
  rintro ⟨y, hy, hbound⟩
  have hport' := (of_decide_eq_true hbound).2
  obtain ⟨t, ht, j, hholds'⟩ := hheld y hy
  exact hport ⟨t, ht, j, y, hy, hholds', hport'⟩

/-- The first thread starts with an empty table. -/
theorem slots_init (hring : ringSystem.init s.kernel) (i : Word × Fin 16) (a : Word) :
    s.slots i ≠ some a := by
  obtain ⟨t, i⟩ := i
  obtain ⟨k₀, block, rsp, hempty, hinit⟩ := hring
  rw [threadInit] at hinit
  split_ifs at hinit with hblock
  have hkernel := Except.ok.inj hinit
  intro hslot
  obtain ⟨ht, htype, -⟩ := slots_eq_some.mp hslot
  have hlive : s.kernel.live = insert block k₀.live := by rw [← hkernel]; rfl
  rw [hlive, hempty, insert_empty_eq, Finset.mem_singleton] at ht
  have htable : (s.kernel.thread block).fdTable = fun _ => emptyFd := by
    rw [← hkernel]
    dsimp only
    rw [setThread_self]
  rw [ht, htable] at htype
  exact absurd htype (by decide : emptyFd.type ≠ .socket)

/-- The run lemma. -/
theorem socketInv_of_reachable {C : SocketTables → DescriptorEvent → Prop}
    (h : descriptorSystem.ReachableUnder C s) : SocketInv s := by
  apply h.invariant
  · rintro s ⟨hring, hnone⟩
    refine ⟨ringInv_init hring, by rw [hnone]; exact List.nodup_nil, ?_, ?_⟩
    · exact fun i a ha => absurd ha (slots_init hring i a)
    · exact fun i j a ha => absurd ha (slots_init hring i a)
  · exact fun _ _ _ hinv _ hstep => hinv.step hstep

/-- In a run in which `schedule` frees no thread with an open socket, sockets are released in every
state, and the next step keeps this exactly when it frees no such thread either. -/
theorem released_of_reachable (h : descriptorSystem.ReachableUnder ReapsClosed s) :
    Released s ∧ ∀ e s', descriptorSystem.step s e s' → (Released s' ↔ ReapsClosed s e) := by
  have hinv := socketInv_of_reachable h
  have hcovered : Covered s.slots s.used := by
    apply h.invariant₂ (fun _ => socketInv_of_reachable)
    · rintro s ⟨-, hnone⟩ a ha
      rw [SocketTables.used, hnone] at ha
      exact absurd ha List.not_mem_nil
    · exact fun s e s' hinv hcovered hclosed hstep =>
        (covered_iff_of_step hinv hcovered hstep).mpr hclosed
  refine ⟨(released_iff hinv).mpr hcovered, fun e s' hstep => ?_⟩
  rw [released_iff (hinv.step hstep)]
  exact covered_iff_of_step hinv hcovered hstep

end Steps

/-! ### A thread that exits with a bound socket -/

section Exit

variable {s s' : SocketTables} {c : SocketChoice}

/-- A choice of a run: threads are created, take turns and exit, and the current thread has one UDP
socket as its first descriptor. -/
inductive SocketChoice
  | create (p id : Word)
  | schedule (turns : ℕ)
  | exit
  | socket (block buffer : Word)
  | bind (port : BitVec 16)
  | close

def SocketChoice.event : SocketChoice → DescriptorEvent
  | create p id => .threads (.add p (readyThread id))
  | schedule turns => .threads (.schedule turns 0)
  | exit => .threads .exit
  | socket block buffer => .socket 2 2 17 fun _ => ⟨block, buffer, fun _ => 0⟩
  | bind port => .bind 0 ⟨2, port, 0⟩
  | close => .close 0

/-- The state after a choice, if it can be taken. -/
def socketNext (s : SocketTables) : SocketChoice → Option SocketTables
  | .create p id =>
    (ringStep s.kernel (.add p (readyThread id))).map fun kernel => { s with kernel }
  | .schedule turns => (ringStep s.kernel (.schedule turns 0)).map fun kernel => { s with kernel }
  | .exit => (ringStep s.kernel .exit).map fun kernel => { s with kernel }
  | .socket block buffer =>
    if s.kernel.Runs ∧ ∀ x ∈ s.host.activeSockets, x.address ≠ block then
      some (s.sysSocket 2 2 17 fun _ => ⟨block, buffer, fun _ => 0⟩).1
    else none
  | .bind port => if s.kernel.Runs then some (s.sysBind 0 ⟨2, port, 0⟩).1 else none
  | .close => if s.kernel.Runs then some (s.sysClose 0).1 else none

theorem step_of_socketNext (h : socketNext s c = some s') : DescriptorStep s c.event s' := by
  cases c with
  | create p id =>
    obtain ⟨k, hstep, rfl⟩ := Option.map_eq_some_iff.mp h
    refine .threads hstep fun q t heq => ?_
    cases heq
    exact .inl rfl
  | schedule turns =>
    obtain ⟨k, hstep, rfl⟩ := Option.map_eq_some_iff.mp h
    exact .threads hstep nofun
  | exit =>
    obtain ⟨k, hstep, rfl⟩ := Option.map_eq_some_iff.mp h
    exact .threads hstep nofun
  | socket block buffer =>
    rw [socketNext] at h
    split_ifs at h with hguard
    rw [← Option.some.inj h]
    exact .socket hguard.1 fun _ => hguard.2
  | bind port =>
    rw [socketNext] at h
    split_ifs at h with hruns
    rw [← Option.some.inj h]
    exact .bind hruns
  | close =>
    rw [socketNext] at h
    split_ifs at h with hruns
    rw [← Option.some.inj h]
    exact .close hruns

instance (k : Kernel) (t : Word) (i : Fin 16) (a : Word) : Decidable (HoldsSocket k t i a) :=
  inferInstanceAs (Decidable (_ ∧ _))

/-- The threads after `thread_init`, and a host without sockets. -/
def bootTables : SocketTables := ⟨bootKernel, freshHost secondMac 0⟩

theorem init_bootTables : descriptorSystem.init bootTables := ⟨init_bootKernel, rfl⟩

/-- Three threads take turns. The first of them binds a socket to port 7, exits and is freed, and
the second one cannot bind its socket to the port. -/
theorem exists_leaked : ∃ s, descriptorSystem.Reachable s ∧
    s.kernel.live ⊆ {0x1000, 0x3000, 0x4000} ∧
    (∀ i, ¬ HoldsSocket s.kernel 0x1000 i 0x9000 ∧ ¬ HoldsSocket s.kernel 0x3000 i 0x9000 ∧
      ¬ HoldsSocket s.kernel 0x4000 i 0x9000) ∧
    0x9000 ∈ s.host.activeSockets.map Socket.address ∧ (s.sysBind 0 ⟨2, 7, 0⟩).2 = -1 :=
  System.exists_reachableUnder socketNext
    [.create 0x2000 1, .create 0x3000 2, .create 0x4000 3, .schedule 1, .socket 0x9000 0xA000,
      .bind 7, .exit, .schedule 1, .schedule 1, .schedule 2, .socket 0xB000 0xC000]
    (fun _ c _ h => ⟨c.event, trivial, step_of_socketNext h⟩) init_bootTables (by decide +kernel)

/-- No thread that is DEAD has an open socket. -/
def DeadClosed (k : Kernel) : Prop :=
  (k.live.filter fun p => (k.thread p).state = .dead ∧ ∃ i, ((k.thread p).fdTable i).type = .socket) = ∅

instance (k : Kernel) : Decidable (DeadClosed k) := inferInstanceAs (Decidable (_ = _))

theorem reapsClosed_of_deadClosed (h : DeadClosed s.kernel) (e : DescriptorEvent) :
    ReapsClosed s e := by
  by_cases hschedule : ∃ turns rsp, e = .threads (.schedule turns rsp)
  · obtain ⟨turns, rsp, rfl⟩ := hschedule
    intro p hreaps i htype
    have hdead := dead_of_reaps hreaps
    have hmem : p ∈ s.kernel.live.filter fun p => (s.kernel.thread p).state = .dead ∧
        ∃ i, ((s.kernel.thread p).fdTable i).type = .socket :=
      Finset.mem_filter.mpr ⟨hdead.live, hdead.dead, i, htype⟩
    rw [show _ = ∅ from h] at hmem
    exact absurd hmem (Finset.notMem_empty p)
  · exact reapsClosed_of_ne fun turns rsp heq => hschedule ⟨turns, rsp, heq⟩

/-- The first thread closes its socket before it exits, and the second one binds another one to the
port. -/
theorem released_closedSocket : ∃ s, (s.sysBind 0 ⟨2, 7, 0⟩).2 = 0 ∧ s.kernel.live.card = 3 ∧
    Released s ∧ ∀ e s', descriptorSystem.step s e s' → (Released s' ↔ ReapsClosed s e) := by
  obtain ⟨s, hs, hbind, hcard⟩ := System.exists_reachableUnder (S := descriptorSystem)
    (C := ReapsClosed) (P := fun s : SocketTables => (s.sysBind 0 ⟨2, 7, 0⟩).2 = 0 ∧
      s.kernel.live.card = 3)
    (fun s c => if DeadClosed s.kernel then socketNext s c else none)
    [.create 0x2000 1, .create 0x3000 2, .create 0x4000 3, .schedule 1, .socket 0x9000 0xA000,
      .bind 7, .close, .exit, .schedule 1, .schedule 1, .schedule 2, .socket 0xB000 0xC000]
    (fun s c s' h => by
      split_ifs at h with hclosed
      exact ⟨c.event, reapsClosed_of_deadClosed hclosed _, step_of_socketNext h⟩)
    init_bootTables (by decide +kernel)
  exact ⟨s, hbind, hcard, released_of_reachable hs⟩

/-- Not every run releases the sockets of threads that were freed. -/
theorem not_released : ¬ ∀ s, descriptorSystem.Reachable s → Released s := by
  intro hall
  obtain ⟨s, hs, hlive, hleaked, hactive, -⟩ := exists_leaked
  obtain ⟨x, hx, haddress⟩ := List.mem_map.mp hactive
  obtain ⟨t, ht, i, hholds⟩ := (hall s hs).held x hx
  rw [haddress] at hholds
  obtain ⟨hmain, hsecond, hthird⟩ := hleaked i
  have hmem := hlive ht
  simp only [Finset.mem_insert, Finset.mem_singleton] at hmem
  rcases hmem with rfl | rfl | rfl
  · exact hmain hholds
  · exact hsecond hholds
  · exact hthird hholds

end Exit

end KyroOS.Net

import KyroOS.Lib.AddressRange
import KyroOS.Disk.BlockDevice
import KyroOS.Mount.Vfs
import KyroOS.Net.Socket
import KyroOS.Vfs.Descriptors

/-!
# What the system calls touch

The handlers get their pointers in registers, and hand them on to the file systems, the drivers, the
sockets and the hash function. Here each of these functions is followed as far as it reads and writes
memory for its caller. The node of `sys_readdir` and the block of `sys_free` are addresses of kernel
objects, not of user memory. There are no nodes of `devfs`, which the kernel does not register.

## Main definitions

* `validateUserPointer` — the check of `uaccess.c`
* `Kernel`, `Registers` — what a call finds
* `Footprint` — the ranges that a call touches, and whether it turned a pointer down
* `vfsRead`, `vfsWrite`, `vfsReaddir`, `nodeStat`, `nodeIoctl` — operations of nodes
* `sockSend`, `sockRecv`, `sockConnect`, `sockBind`, `sha256Hash`, `eventPop` — the other functions
* `sysRead`, …, `syscallTable`, `syscallHandler` — the handlers
-/

namespace KyroOS.Syscalls

open Vfs Disk Mount AddressRange

/-! ### The check -/

/-- `EFAULT` -/
def eFault : Int := 14

/-- `validate_user_pointer`, where `USERSPACE_END` is `userspaceEnd`. -/
def validateUserPointer (userspaceEnd ptr size : Word) : Int :=
  let endAddr := ptr + size
  if userspaceEnd ≤ ptr ∨ userspaceEnd ≤ endAddr then -eFault
  else if endAddr < ptr then -eFault
  else 0

/-! ### The kernel -/

abbrev UserRange := Range 64

/-- `struct registers`, as far as the handlers read it. -/
structure Registers where
  rax : Word
  rdi : Word
  rsi : Word
  rdx : Word

/-- `fd_entry_t` -/
inductive FdSlot
  | none
  | file (node : VfsNode) (offset : Word) (flags : BitVec 32)
  | socket (sock : Word)

/-- What a system call of the current thread finds. -/
structure Kernel (ν σ : Type) where
  /-- `kernel_hhdm_offset` -/
  hhdmOffset : Word
  /-- Memory, through the page tables of the caller. -/
  mem : Word → Byte
  fdTable : Fin maxFiles → FdSlot
  vfs : MountState ν σ
  /-- The nodes that have the operations of the IDE driver. -/
  blockNode : Word → Option BlockNode
  net : Net.Host
  networkDevices : Bool
  /-- `fb_get_info()` gives a framebuffer with an address. -/
  framebuffer : Bool
  eventCount : ℕ
  /-- What `kmalloc` returns for a size. -/
  kmalloc : Word → Word
  /-- A wait for a key comes to an end. -/
  keyDown : Bool
  /-- The bytes in the buffer of a socket when a wait for them ends, or 0 if it does not. -/
  recvData : ℕ

namespace Kernel

variable {ν σ : Type} (k : Kernel ν σ) (p : Word)

/-- The `n` bytes at an address. -/
def bytes (n : ℕ) : List Byte := (List.range n).map fun i => k.mem (p + BitVec.ofNat 64 i)

def load16 : BitVec 16 := k.mem (p + 1) ++ k.mem p
def load32 : BitVec 32 := k.load16 (p + 2) ++ k.load16 p
def load64 : Word := k.load32 (p + 4) ++ k.load32 p

/-- The block `i` of a buffer. -/
def dataBlock (i : ℕ) : Block := fun j => k.mem (p + BitVec.ofNat 64 (512 * i + j))

/-- What `strncpy` copies of a string, with room for `n` bytes. -/
def string (n : ℕ) : CString := (k.bytes p n).takeWhile (· ≠ 0)

/-- The bytes of the string that `strncpy` looks at, the NUL among them. -/
def stringSize (n : ℕ) : ℕ := min ((k.string p n).length + 1) n

/-- The entry of a descriptor; one out of range is like one that is not open. -/
def descriptor (fd : BitVec 32) : FdSlot :=
  match fdIndex fd with
  | none => .none
  | some i => k.fdTable i

end Kernel

/-- What a call does with the memory of its caller: the ranges that it reads and writes, and whether
its own check of a pointer made it return -1. -/
structure Footprint where
  ranges : List UserRange
  denied : Bool

/-- A call that has no pointer to check. -/
def Footprint.of (ranges : List UserRange) : Footprint := ⟨ranges, false⟩

section Operations

variable {ν σ : Type} (D : Devices ν σ) (C : Controller σ) (k : Kernel ν σ)

/-! ### Files of KyroFS and the terminal -/

/-- `kyrofs_read` -/
def kyrofsRead (file : FileContent) (offset : Word) (size : BitVec 32) (buffer : Word) :
    List UserRange :=
  if file.content = none then []
  else if file.size.setWidth 64 ≤ offset then []
  else if file.size.setWidth 64 < offset + size.setWidth 64 then
    touch buffer (((file.size.setWidth 64 - offset).setWidth 32).setWidth 64)
  else touch buffer (size.setWidth 64)

/-- `kyrofs_write`; it panics where it gets no new buffer. -/
def kyrofsWrite (file : FileContent) (offset : Word) (size : BitVec 32) (buffer : Word) :
    List UserRange :=
  let stop : Word := offset + size.setWidth 64
  let newCap : BitVec 32 := (stop * 2).setWidth 32
  if file.capacity.setWidth 64 < stop ∧ k.kmalloc (newCap.setWidth 64) = 0 then []
  else touch buffer (size.setWidth 64)

/-- `tty_read` -/
def ttyRead (size : BitVec 32) (buffer : Word) : List UserRange :=
  if size = 0 then [] else if k.keyDown then touch buffer 1 else []

/-- `tty_write` -/
def ttyWrite (size : BitVec 32) (buffer : Word) : List UserRange := touch buffer (size.setWidth 64)

/-- `kyrofs_stat` -/
def kyrofsStat (statBuf : Word) : List UserRange := if statBuf = 0 then [] else touch statBuf 12

/-! ### Files on a disk -/

/-- The blocks that `fs_read_file` copies before a read fails, and the bytes that it is to copy. -/
def blocksRead (path : CString) (size : Word) : ℕ × ℕ :=
  match findFileEntry path k.vfs.disk.fs.fileTableCache with
  | .ok (some idx) =>
    match k.vfs.disk.entry idx with
    | .ok entry =>
      if k.vfs.disk.fs.mountedDiskNode.isNone ∨ entry.flags &&& fsFileFlagFile = 0 then (0, 0)
      else
        let bytesToRead := min size.toNat entry.sizeBytes.toNat
        let read : FsState ν σ → ℕ → FsState ν σ × Bool := fun s i =>
          (s, (readBlock D s (entry.startBlock + BitVec.ofNat 32 i)).isSome)
        (turns read k.vfs.disk ((bytesToRead + 511) / 512) 0, bytesToRead)
    | .error _ => (0, 0)
  | _ => (0, 0)

/-- `fs_read_file` -/
def fsReadFile (path : CString) (buffer size : Word) : List UserRange :=
  let (blocks, bytesToRead) := blocksRead D k path size
  blockRanges 512 blocks buffer bytesToRead

/-- The blocks that `fs_write_file` copies; that whose write fails is the last. -/
def blocksWritten (path : CString) (buffer size : Word) : ℕ :=
  match findFileEntry path k.vfs.disk.fs.fileTableCache with
  | .ok (some idx) =>
    match k.vfs.disk.entry idx with
    | .ok entry =>
      let needed := neededBlocks size
      if entry.flags &&& fsFileFlagFile = 0 then 0
      else if k.vfs.disk.fs.currentSuperblock.freeBlocks < needed then 0
      else
        let (s, first) := allocateBlock D k.vfs.disk
        let s := s.setEntry idx { entry with startBlock := first }
        let data := k.bytes buffer size.toNat
        let write : FsState ν σ → ℕ → FsState ν σ × Bool := fun s i =>
          writeBlock D s (first + BitVec.ofNat 32 i) (dataBlock data (blockOffset i))
        min needed.toNat (turns write s needed.toNat 0 + 1)
    | .error _ => 0
  | _ => 0

/-- `fs_write_file` -/
def fsWriteFile (path : CString) (buffer size : Word) : List UserRange :=
  blockRanges 512 (blocksWritten D k path buffer size) buffer size.toNat

/-- `fs_disk_vfs_read` -/
def fsDiskVfsRead (node : FileNode) (offset : Word) (size : BitVec 32) (buffer : Word) :
    List UserRange :=
  if node.has vfsDirectory then []
  else if offset ≠ 0 then []
  else fsReadFile D k node.name buffer (size.setWidth 64)

/-- `fs_disk_vfs_write` -/
def fsDiskVfsWrite (node : FileNode) (offset : Word) (size : BitVec 32) (buffer : Word) :
    List UserRange :=
  if node.has vfsDirectory then []
  else if offset ≠ 0 then []
  else fsWriteFile D k node.name buffer (size.setWidth 64)

/-- The file system has an entry of the name. -/
def hasFileInfo (path : CString) : Bool :=
  match fsGetFileInfo k.vfs.disk path with
  | .ok (some _) => true
  | _ => false

/-- `fs_disk_vfs_stat` -/
def fsDiskVfsStat (path : CString) (statBuf : Word) : List UserRange :=
  if hasFileInfo k path then touch statBuf 12 else []

/-! ### Block devices -/

/-- The driver goes on to move sectors. -/
def ideReady (drive : BitVec 8) : Bool := drive = 0 ∧ C.present ∧ C.ready k.vfs.disk.dev

/-- The sectors that `ide_read_sectors` moves. -/
def sectorsRead (drive : BitVec 8) (lba : BitVec 32) (numSectors : BitVec 8) : ℕ :=
  if ideReady C k drive then
    turns (fun dev i => (dev, (C.sector dev (sectorOf lba + i)).isSome)) k.vfs.disk.dev
      numSectors.toNat 0
  else 0

/-- `ide_read_sectors` -/
def ideReadSectors (drive : BitVec 8) (lba : BitVec 32) (numSectors : BitVec 8) (buffer : Word) :
    List UserRange :=
  let sectors := sectorsRead C k drive lba numSectors
  blockRanges 512 sectors buffer (512 * sectors)

/-- The sectors that `ide_write_sectors` moves. -/
def sectorsWritten (drive : BitVec 8) (lba : BitVec 32) (numSectors : BitVec 8) (buffer : Word) :
    ℕ :=
  if ideReady C k drive then
    turns (fun dev i => C.store dev (sectorOf lba + i) (k.dataBlock buffer i)) k.vfs.disk.dev
      numSectors.toNat 0
  else 0

/-- `ide_write_sectors` -/
def ideWriteSectors (drive : BitVec 8) (lba : BitVec 32) (numSectors : BitVec 8) (buffer : Word) :
    List UserRange :=
  let sectors := sectorsWritten C k drive lba numSectors buffer
  blockRanges 512 sectors buffer (512 * sectors)

/-- `ide_read_wrapper`, which reads sizes that are no multiple of 512 into a block of its own. -/
def ideReadWrapper (drive : BitVec 8) (offset : Word) (size : BitVec 32) (buffer : Word) :
    List UserRange :=
  let numSectors := wrapperSectors size
  if size % 512 ≠ 0 then
    let tempBuf := k.kmalloc (numSectors.setWidth 64 * 512)
    let result := (C.readSectors k.vfs.disk.dev drive (wrapperLba offset) numSectors).result
    if tempBuf = 0 ∨ result = none ∨ tempBuf = buffer then []
    else touch buffer (size.setWidth 64)
  else ideReadSectors C k drive (wrapperLba offset) numSectors buffer

/-- `ide_write_wrapper` -/
def ideWriteWrapper (drive : BitVec 8) (offset : Word) (size : BitVec 32) (buffer : Word) :
    List UserRange :=
  if size % 512 ≠ 0 then []
  else ideWriteSectors C k drive (wrapperLba offset) (wrapperSectors size) buffer

/-- The checks that `ide_partition_read_sectors` and `ide_partition_write_sectors` share. -/
def partitionRefuses (part : IdePartition) (offset : Word) (size : BitVec 32) : Prop :=
  size % 512 ≠ 0 ∨ part.partitionSize <
    (offset / 512).setWidth 32 + ((size / 512).setWidth 8 : BitVec 8).setWidth 32

instance (part : IdePartition) (offset : Word) (size : BitVec 32) :
    Decidable (partitionRefuses part offset size) :=
  inferInstanceAs (Decidable (_ ∨ _))

/-- The `read` of a block device: `ide_read_wrapper` or `ide_partition_read_sectors`. -/
def blockNodeRead (node : BlockNode) (offset : Word) (size : BitVec 32) (buffer : Word) :
    List UserRange :=
  match node with
  | .disk drive => ideReadWrapper C k drive offset size buffer
  | .partition part =>
    if partitionRefuses part offset size then []
    else
      ideReadSectors C k part.driveId (part.partitionLbaStart + (offset / 512).setWidth 32)
        ((size / 512).setWidth 8) buffer

/-- The `write` of a block device: `ide_write_wrapper` or `ide_partition_write_sectors`. -/
def blockNodeWrite (node : BlockNode) (offset : Word) (size : BitVec 32) (buffer : Word) :
    List UserRange :=
  match node with
  | .disk drive => ideWriteWrapper C k drive offset size buffer
  | .partition part =>
    if partitionRefuses part offset size then []
    else
      ideWriteSectors C k part.driveId (part.partitionLbaStart + (offset / 512).setWidth 32)
        ((size / 512).setWidth 8) buffer

/-- The drive and the first sector of the `ioctl`s for blocks; a partition refuses blocks behind its
end. -/
def ioctlTarget (node : BlockNode) (lba count : BitVec 32) : Option (BitVec 8 × BitVec 32) :=
  match node with
  | .disk _ => some (0, lba)
  | .partition part =>
    if part.partitionSize < lba + count then none
    else some (part.driveId, part.partitionLbaStart + lba)

/-- A request for blocks. The address of the buffer is read after the checks. -/
def ioctlBlocks (argp : Word) (target : Option (BitVec 8 × BitVec 32))
    (move : BitVec 8 → BitVec 32 → List UserRange) : List UserRange :=
  match target with
  | none => touch argp 8
  | some (drive, lba) => touch argp 16 ++ move drive lba

/-- `ide_ioctl` and `ide_partition_ioctl`. The structure that `argp` points to has the block number,
the count and the address of a buffer. -/
def blockNodeIoctl (node : BlockNode) (request : BitVec 32) (argp : Word) : List UserRange :=
  let count := k.load32 (argp + 4)
  let buffer := k.load64 (argp + 8)
  let target := ioctlTarget node (k.load32 argp) count
  if argp = 0 then []
  else if request = 1 then touch argp 12
  else if request = 2 then
    ioctlBlocks argp target fun drive lba =>
      ideReadSectors C k drive lba (count.setWidth 8) buffer
  else if request = 3 then
    ioctlBlocks argp target fun drive lba =>
      ideWriteSectors C k drive lba (count.setWidth 8) buffer
  else if request = 4 then touch argp 8
  else []

/-! ### Nodes -/

/-- `vfs_read` -/
def vfsRead (node : VfsNode) (offset : Word) (size : BitVec 32) (buffer : Word) : List UserRange :=
  match node with
  | .file node => fsDiskVfsRead D k node offset size buffer
  | .dirent n =>
    match k.blockNode n, k.vfs.driver n, (k.vfs.tree.node n).ptr with
    | some node, _, _ => blockNodeRead C k node offset size buffer
    | none, .fsDisk, _ => []
    | none, .kyrofs, .content file => kyrofsRead file offset size buffer
    | none, .kyrofs, .dirents _ =>
      if (k.vfs.tree.node n).has vfsChardevice then ttyRead k size buffer else []

/-- `vfs_write` -/
def vfsWrite (node : VfsNode) (offset : Word) (size : BitVec 32) (buffer : Word) :
    List UserRange :=
  match node with
  | .file node => fsDiskVfsWrite D k node offset size buffer
  | .dirent n =>
    match k.blockNode n, k.vfs.driver n, (k.vfs.tree.node n).ptr with
    | some node, _, _ => blockNodeWrite C k node offset size buffer
    | none, .fsDisk, _ => []
    | none, .kyrofs, .content file => kyrofsWrite k file offset size buffer
    | none, .kyrofs, .dirents _ =>
      if (k.vfs.tree.node n).has vfsChardevice then ttyWrite size buffer else []

/-- `node->length` -/
def nodeLength (node : VfsNode) : BitVec 32 :=
  match node with
  | .file node => node.length
  | .dirent n => (k.vfs.tree.node n).length

/-- `node->stat`, where there is one. -/
def nodeStat (node : VfsNode) (statBuf : Word) : List UserRange :=
  match node with
  | .file node => fsDiskVfsStat k node.name statBuf
  | .dirent n =>
    match k.vfs.driver n with
    | .fsDisk => fsDiskVfsStat k (k.vfs.tree.node n).name statBuf
    | .kyrofs => if (k.vfs.tree.node n).hasDirectoryOps then kyrofsStat statBuf else []

/-- `node->ioctl`; those of KyroFS and of `fs_disk` return -1. -/
def nodeIoctl (node : VfsNode) (request : BitVec 32) (argp : Word) : List UserRange :=
  match node with
  | .file _ => []
  | .dirent n =>
    match k.blockNode n with
    | some node => blockNodeIoctl C k node request argp
    | none => []

/-- The room for a name that `kyrofs_readdir` and `fs_disk_vfs_readdir` fill. -/
def nameSize (n : Word) : Word :=
  match k.vfs.driver n with
  | .kyrofs => 256
  | .fsDisk => 255

/-- There is an entry of the index. -/
def hasEntry (n : Word) (index : BitVec 32) : Bool :=
  match k.vfs.readdir index (.dirent n) with
  | .ok (some _) => true
  | _ => false

/-- `vfs_readdir`: the name and the inode of `struct dirent` are written. -/
def vfsReaddir (n : Word) (index : BitVec 32) (dirEntry : Word) : List UserRange :=
  if hasEntry k n index then touch dirEntry (nameSize k n) ++ touch (dirEntry + 256) 4 else []

/-! ### Sockets -/

/-- `udp_send_packet` -/
def udpSendPacket (data len : Word) : List UserRange :=
  if k.kmalloc (8 + len) = 0 then [] else touch data len

/-- `sock_send` -/
def sockSend (sock buf len : Word) : List UserRange :=
  match k.net.socketAt sock with
  | none => []
  | some s =>
    if buf = 0 ∨ len = 0 then []
    else if s.protocol = Net.ipprotoUdp then
      if s.state ≠ .connected then []
      else if k.networkDevices then udpSendPacket k buf len
      else []
    else []

/-- `sock_recv` -/
def sockRecv (sock buf len : Word) : List UserRange :=
  match k.net.socketAt sock with
  | none => []
  | some s =>
    if buf = 0 ∨ len = 0 then []
    else if s.protocol = Net.ipprotoUdp then
      if s.state = .closed then []
      else
        let recvDataLen :=
          if s.udpData.recvDataLen = 0 then k.recvData else s.udpData.recvDataLen
        touch buf (BitVec.ofNat 64 (min len.toNat recvDataLen))
    else []

/-- `sock_connect` -/
def sockConnect (sock addr : Word) : List UserRange :=
  match k.net.socketAt sock with
  | none => []
  | some s =>
    if addr = 0 then []
    else if s.domain ≠ 2 then []
    else if k.load16 addr ≠ Net.afInet then touch addr 2
    else touch addr 2 ++ (if s.protocol = Net.ipprotoUdp then touch addr 16 else [])

/-- The search of `sock_bind` for a socket that has the port: `addr->sin_port` is read for each
other UDP socket. -/
def portSearch (sock addr : Word) : List Net.Socket → List UserRange × Bool
  | [] => ([], false)
  | s :: rest =>
    if s.address ≠ sock ∧ s.protocol = Net.ipprotoUdp then
      if s.localAddr.sinPort = k.load16 (addr + 2) then (touch (addr + 2) 2, true)
      else
        let (ranges, used) := portSearch sock addr rest
        (touch (addr + 2) 2 ++ ranges, used)
    else portSearch sock addr rest

/-- `sock_bind`, which reads the port once more for `udp_register_handler`. -/
def sockBind (sock addr : Word) : List UserRange :=
  match k.net.socketAt sock with
  | none => []
  | some s =>
    if addr = 0 then []
    else if s.protocol = Net.ipprotoUdp then
      let search := portSearch k sock addr k.net.activeSockets
      if search.2 then search.1 else search.1 ++ touch addr 16 ++ touch (addr + 2) 2
    else []

/-! ### The other functions -/

/-- The loop of `sha256_update_ctx`, with `bufferLen` bytes in the buffer. A full buffer is hashed,
and empty then. -/
def sha256UpdateCtx (bufferLen : ℕ) (data : Word) (len : ℕ) : List UserRange :=
  if len = 0 then []
  else
    let bufferLen := bufferLen % 64
    let i := min (64 - bufferLen) len
    touch data (BitVec.ofNat 64 i) ++
      sha256UpdateCtx (bufferLen + i) (data + BitVec.ofNat 64 i) (len - i)
termination_by len
decreasing_by omega

/-- `sha256_hash` -/
def sha256Hash (data len hashOut : Word) : List UserRange :=
  sha256UpdateCtx 0 data len.toNat ++ touch hashOut 32

/-- `event_pop` -/
def eventPop (event : Word) : List UserRange := if 0 < k.eventCount then touch event 16 else []

/-! ### The handlers -/

/-- The copy of a string argument: a string that starts in the half of the kernel is denied. -/
def copyString (user : Word) (n : ℕ) (rest : CString → Footprint) : Footprint :=
  if k.hhdmOffset ≤ user then ⟨[], true⟩
  else
    let rest := rest (k.string user n)
    ⟨touch user (BitVec.ofNat 64 (k.stringSize user n)) ++ rest.ranges, rest.denied⟩

/-- A handler that uses nothing of user memory but a path. -/
def pathCall (user : Word) : Footprint := copyString k user 255 fun _ => .of []

variable (regs : Registers)

/-- `sys_write` -/
def sysWrite : Footprint :=
  match k.descriptor (regs.rdi.setWidth 32) with
  | .none => .of []
  | .file node offset flags =>
    let currentOffset : Word :=
      if flags &&& oAppend ≠ 0 then (nodeLength k node).setWidth 64 else offset
    .of (vfsWrite D C k node currentOffset (regs.rdx.setWidth 32) regs.rsi)
  | .socket sock => .of (sockSend k sock regs.rsi regs.rdx)

/-- `sys_open` -/
def sysOpen : Footprint := pathCall k regs.rdi

/-- `sys_read` -/
def sysRead : Footprint :=
  match k.descriptor (regs.rdi.setWidth 32) with
  | .none => .of []
  | .file node offset _ => .of (vfsRead D C k node offset (regs.rdx.setWidth 32) regs.rsi)
  | .socket sock => .of (sockRecv k sock regs.rsi regs.rdx)

/-- The node of a path; a node for a file on a disk comes from `kmalloc`. -/
def resolvePath (path : CString) : Option VfsNode :=
  match k.vfs.resolve (.dirent k.vfs.tree.root) path (k.kmalloc 384) with
  | .ok node => node
  | .error _ => none

/-- `sys_stat` -/
def sysStat : Footprint :=
  copyString k regs.rdi 255 fun path =>
    match resolvePath k path with
    | none => .of []
    | some node => .of (nodeStat k node regs.rsi)

/-- `sys_mkdir` -/
def sysMkdir : Footprint := pathCall k regs.rdi

/-- `sys_readdir`. A node that was freed is followed nowhere. -/
def sysReaddir : Footprint :=
  let node := if regs.rdi = 0 then k.vfs.tree.root else regs.rdi
  if node ∈ k.vfs.tree.live then .of (vfsReaddir k node (regs.rsi.setWidth 32) regs.rdx) else .of []

/-- `sys_unlink` -/
def sysUnlink : Footprint := pathCall k regs.rdi

/-- `sys_rmdir` -/
def sysRmdir : Footprint := pathCall k regs.rdi

/-- A handler that takes a socket, and nothing of other descriptors. -/
def socketCall (call : Word → List UserRange) : Footprint :=
  match k.descriptor (regs.rdi.setWidth 32) with
  | .socket sock => .of (call sock)
  | _ => .of []

/-- `sys_connect` -/
def sysConnect : Footprint := socketCall k regs fun sock => sockConnect k sock regs.rsi

/-- `sys_recv` -/
def sysRecv : Footprint := socketCall k regs fun sock => sockRecv k sock regs.rsi regs.rdx

/-- `sys_bind` -/
def sysBind : Footprint := socketCall k regs fun sock => sockBind k sock regs.rsi

/-- `sys_accept`: `sock_accept` returns `NULL`. -/
def sysAccept : Footprint := socketCall k regs fun _ => []

/-- `sys_sha256` -/
def sysSha256 : Footprint := .of (sha256Hash regs.rdi regs.rsi regs.rdx)

/-- `sys_ioctl` -/
def sysIoctl : Footprint :=
  match k.descriptor (regs.rdi.setWidth 32) with
  | .file node _ _ => .of (nodeIoctl C k node (regs.rsi.setWidth 32) regs.rdx)
  | _ => .of []

/-- `sys_mount`; the name of a file system has 31 bytes at most. -/
def sysMount : Footprint :=
  copyString k regs.rdi 255 fun _ =>
    copyString k regs.rsi 255 fun _ =>
      copyString k regs.rdx 31 fun _ => .of []

/-- `sys_unmount` -/
def sysUnmount : Footprint := pathCall k regs.rdi

/-- `sys_exec`, which is disabled. -/
def sysExec : Footprint := .of []

/-- `sys_gfx_get_fb_info`: `user_fb_info_t` is copied out. -/
def sysGfxGetFbInfo : Footprint := if k.framebuffer then .of (touch regs.rdi 24) else .of []

/-- `sys_input_poll_event` -/
def sysInputPollEvent : Footprint := .of (eventPop k regs.rdi)

/-- A handler that gets numbers only. -/
def sysNumbers : Footprint := .of []

/-- `syscall_table` -/
def syscallTable : ℕ → Footprint
  | 0 => sysNumbers -- `sys_exit`
  | 1 => sysWrite D C k regs
  | 2 => sysOpen k regs
  | 3 => sysNumbers -- `sys_close`
  | 4 => sysRead D C k regs
  | 5 => sysStat k regs
  | 6 => sysMkdir k regs
  | 7 => sysReaddir k regs
  | 8 => sysUnlink k regs
  | 9 => sysRmdir k regs
  | 10 => sysNumbers -- `sys_socket`
  | 11 => sysConnect k regs
  | 12 => sysWrite D C k regs
  | 13 => sysRecv k regs
  | 14 => sysBind k regs
  | 15 => sysNumbers -- `sys_listen`
  | 16 => sysAccept k regs
  | 17 => sysNumbers -- `sys_get_ticks`
  | 18 => sysSha256 regs
  | 19 => sysNumbers -- `sys_malloc`
  | 20 => sysNumbers -- `sys_free`
  | 21 => sysIoctl C k regs
  | 22 => sysMount k regs
  | 23 => sysUnmount k regs
  | 24 => sysExec
  | 25 => sysGfxGetFbInfo k regs
  | 26 => sysInputPollEvent k regs
  | 27 => sysNumbers -- `sys_sbrk`
  | _ => sysNumbers

/-- `syscall_handler` -/
def syscallHandler : Footprint :=
  if regs.rax < 256 then syscallTable D C k regs regs.rax.toNat else .of []

end Operations

end KyroOS.Syscalls

import KyroOS.Syscalls.Handlers

/-!
# Pointers from user space

No handler calls `validate_user_pointer`. Those that take a path look at its first address; the
others use what is in the registers. How far a call goes from a pointer on depends on what it finds:
a string up to its NUL, a file as far as there are bytes, a disk as far as it does not fail.

## Main definitions

* `Footprint.Safe` — all ranges are accepted, and a call that turns a pointer down touches nothing
* `PointersChecked` — what is wanted of a system call
* `vfsReadSize`, `vfsWriteSize`, `sockRecvSize`, … — how many bytes are moved
* `Permits` — the calls whose pointers stay in user space

## Main results

* `validateUserPointer_eq_zero` — what the check accepts
* `pointersChecked_iff` — the calls that do what is wanted
* `not_pointersChecked` — a hash is written to the kernel
-/

namespace KyroOS.Syscalls

open Vfs Disk Mount AddressRange

/-! ### What is wanted -/

/-- The check accepts the ranges that end before the end of user space without wrapping around. -/
theorem validateUserPointer_eq_zero {userspaceEnd ptr size : Word} :
    validateUserPointer userspaceEnd ptr size = 0 ↔
      ptr.toNat + size.toNat < userspaceEnd.toNat := by
  have hsum : (ptr + size).toNat = (ptr.toNat + size.toNat) % 2 ^ 64 := BitVec.toNat_add ..
  have hne : -eFault ≠ 0 := by decide
  unfold validateUserPointer
  dsimp only
  split_ifs with hout hwrap
  · rw [BitVec.le_def, BitVec.le_def] at hout
    exact iff_of_false hne (by omega)
  · rw [BitVec.le_def, BitVec.le_def] at hout
    rw [BitVec.lt_def] at hwrap
    exact iff_of_false hne (by omega)
  · rw [BitVec.le_def, BitVec.le_def] at hout
    rw [BitVec.lt_def] at hwrap
    exact iff_of_true rfl (by omega)

/-- Every range is accepted, and a call that turns a pointer down has touched nothing. -/
structure Footprint.Safe (userspaceEnd : Word) (f : Footprint) : Prop where
  accepted : ∀ r ∈ f.ranges, validateUserPointer userspaceEnd r.addr r.size = 0
  denied : f.denied = true → f.ranges = []

/-- The call keeps to user space. -/
def PointersChecked {ν σ : Type} (D : Devices ν σ) (C : Controller σ) (k : Kernel ν σ)
    (regs : Registers) : Prop :=
  (syscallHandler D C k regs).Safe k.hhdmOffset

/-- Every range is accepted, and no pointer was turned down. -/
structure Footprint.Granted (userspaceEnd : Word) (f : Footprint) : Prop where
  below : ∀ r ∈ f.ranges, r.Below userspaceEnd
  allowed : f.denied = false

section Footprints

variable {limit p q size : Word} {n m : ℕ} {rs rs' : List UserRange} {f : Footprint}

theorem accepted_iff : (∀ r ∈ rs, validateUserPointer limit r.addr r.size = 0) ↔
    ∀ r ∈ rs, r.Below limit :=
  forall₂_congr fun _ _ => validateUserPointer_eq_zero

theorem safe_of : (Footprint.of rs).Safe limit ↔ ∀ r ∈ rs, r.Below limit := by
  rw [← accepted_iff]
  exact ⟨fun h => h.accepted, fun h => ⟨h, fun hdenied => Bool.noConfusion hdenied⟩⟩

theorem granted_of : (Footprint.of rs).Granted limit ↔ ∀ r ∈ rs, r.Below limit :=
  ⟨fun h => h.below, fun h => ⟨h, rfl⟩⟩

theorem below_nil : ∀ r ∈ ([] : List UserRange), r.Below limit :=
  fun _ hr => absurd hr List.not_mem_nil

theorem safe_nil : (Footprint.of []).Safe limit := safe_of.mpr below_nil

theorem granted_nil : (Footprint.of []).Granted limit := granted_of.mpr below_nil

theorem safe_of_run (h : Run p n rs) : (Footprint.of rs).Safe limit ↔ Fits limit p n :=
  safe_of.trans h.forall_below_iff

theorem below_touch : (∀ r ∈ touch p size, r.Below limit) ↔ Fits limit p size.toNat :=
  run_touch.forall_below_iff

theorem below_append : (∀ r ∈ rs ++ rs', r.Below limit) ↔
    (∀ r ∈ rs, r.Below limit) ∧ ∀ r ∈ rs', r.Below limit :=
  List.forall_mem_append

/-- A function that touches something under a condition only. -/
theorem run_ite {c : Prop} [Decidable c] (hrun : c → Run p n rs) (hnone : ¬ c → rs = []) :
    Run p (if c then n else 0) rs := by
  split_ifs with hc
  · exact hrun hc
  · rw [hnone hc]
    exact .nil p

end Footprints

/-! ### How many bytes are moved -/

section Sizes

variable {ν σ : Type} (D : Devices ν σ) (C : Controller σ) (k : Kernel ν σ)

/-- The bytes of a file from an offset on, as many as are wanted. -/
def kyrofsReadSize (file : FileContent) (offset : Word) (size : BitVec 32) : ℕ :=
  if file.content = none then 0 else min size.toNat (file.size.toNat - offset.toNat)

/-- All bytes, unless the content has to grow and cannot. -/
def kyrofsWriteSize (file : FileContent) (offset : Word) (size : BitVec 32) : ℕ :=
  let stop : Word := offset + size.setWidth 64
  let newCap : BitVec 32 := (stop * 2).setWidth 32
  if file.capacity.setWidth 64 < stop ∧ k.kmalloc (newCap.setWidth 64) = 0 then 0 else size.toNat

/-- The bytes of the file, as far as the disk gives them. -/
def fsDiskReadSize (node : FileNode) (offset : Word) (size : BitVec 32) : ℕ :=
  if node.has vfsDirectory ∨ offset ≠ 0 then 0
  else
    let (blocks, bytesToRead) := blocksRead D k node.name (size.setWidth 64)
    min bytesToRead (512 * blocks)

/-- The bytes, as far as the disk takes them. -/
def fsDiskWriteSize (node : FileNode) (offset : Word) (size : BitVec 32) (buffer : Word) : ℕ :=
  if node.has vfsDirectory ∨ offset ≠ 0 then 0
  else min size.toNat (512 * blocksWritten D k node.name buffer (size.setWidth 64))

/-- Whole sectors, as far as the disk gives them, or all bytes of a size that is no multiple of
512. -/
def ideReadSize (drive : BitVec 8) (offset : Word) (size : BitVec 32) (buffer : Word) : ℕ :=
  let numSectors := wrapperSectors size
  if size % 512 ≠ 0 then
    let tempBuf := k.kmalloc (numSectors.setWidth 64 * 512)
    let result := (C.readSectors k.vfs.disk.dev drive (wrapperLba offset) numSectors).result
    if tempBuf = 0 ∨ result = none ∨ tempBuf = buffer then 0 else size.toNat
  else 512 * sectorsRead C k drive (wrapperLba offset) numSectors

def blockNodeReadSize (node : BlockNode) (offset : Word) (size : BitVec 32) (buffer : Word) : ℕ :=
  match node with
  | .disk drive => ideReadSize C k drive offset size buffer
  | .partition part =>
    if partitionRefuses part offset size then 0
    else
      512 * sectorsRead C k part.driveId (part.partitionLbaStart + (offset / 512).setWidth 32)
        ((size / 512).setWidth 8)

def blockNodeWriteSize (node : BlockNode) (offset : Word) (size : BitVec 32) (buffer : Word) : ℕ :=
  match node with
  | .disk drive =>
    if size % 512 ≠ 0 then 0
    else 512 * sectorsWritten C k drive (wrapperLba offset) (wrapperSectors size) buffer
  | .partition part =>
    if partitionRefuses part offset size then 0
    else
      512 * sectorsWritten C k part.driveId (part.partitionLbaStart + (offset / 512).setWidth 32)
        ((size / 512).setWidth 8) buffer

def vfsReadSize (node : VfsNode) (offset : Word) (size : BitVec 32) (buffer : Word) : ℕ :=
  match node with
  | .file node => fsDiskReadSize D k node offset size
  | .dirent n =>
    match k.blockNode n, k.vfs.driver n, (k.vfs.tree.node n).ptr with
    | some node, _, _ => blockNodeReadSize C k node offset size buffer
    | none, .fsDisk, _ => 0
    | none, .kyrofs, .content file => kyrofsReadSize file offset size
    | none, .kyrofs, .dirents _ =>
      if (k.vfs.tree.node n).has vfsChardevice ∧ k.keyDown then min 1 size.toNat else 0

def vfsWriteSize (node : VfsNode) (offset : Word) (size : BitVec 32) (buffer : Word) : ℕ :=
  match node with
  | .file node => fsDiskWriteSize D k node offset size buffer
  | .dirent n =>
    match k.blockNode n, k.vfs.driver n, (k.vfs.tree.node n).ptr with
    | some node, _, _ => blockNodeWriteSize C k node offset size buffer
    | none, .fsDisk, _ => 0
    | none, .kyrofs, .content file => kyrofsWriteSize k file offset size
    | none, .kyrofs, .dirents _ =>
      if (k.vfs.tree.node n).has vfsChardevice then size.toNat else 0

/-- The whole datagram, of a socket that is connected. -/
def sockSendSize (sock buf len : Word) : ℕ :=
  match k.net.socketAt sock with
  | none => 0
  | some s =>
    if buf ≠ 0 ∧ s.protocol = Net.ipprotoUdp ∧ s.state = .connected ∧ k.networkDevices ∧
        k.kmalloc (8 + len) ≠ 0 then len.toNat
    else 0

/-- The bytes that are there, or come while the call waits. -/
def sockRecvSize (sock buf len : Word) : ℕ :=
  match k.net.socketAt sock with
  | none => 0
  | some s =>
    if buf ≠ 0 ∧ s.protocol = Net.ipprotoUdp ∧ s.state ≠ .closed then
      min len.toNat
        (if s.udpData.recvDataLen = 0 then k.recvData else s.udpData.recvDataLen)
    else 0

/-- The address, or the family if that is not that of the internet. -/
def sockConnectSize (sock addr : Word) : ℕ :=
  match k.net.socketAt sock with
  | none => 0
  | some s =>
    if addr = 0 ∨ s.domain ≠ 2 then 0
    else if k.load16 addr = Net.afInet ∧ s.protocol = Net.ipprotoUdp then 16
    else 2

def writeSize (regs : Registers) : ℕ :=
  match k.descriptor (regs.rdi.setWidth 32) with
  | .none => 0
  | .file node offset flags =>
    let currentOffset : Word :=
      if flags &&& oAppend ≠ 0 then (nodeLength k node).setWidth 64 else offset
    vfsWriteSize D C k node currentOffset (regs.rdx.setWidth 32) regs.rsi
  | .socket sock => sockSendSize k sock regs.rsi regs.rdx

def readSize (regs : Registers) : ℕ :=
  match k.descriptor (regs.rdi.setWidth 32) with
  | .none => 0
  | .file node offset _ => vfsReadSize D C k node offset (regs.rdx.setWidth 32) regs.rsi
  | .socket sock => sockRecvSize k sock regs.rsi regs.rdx

end Sizes

/-! ### The ranges of the operations -/

section Runs

variable {ν σ : Type} {D : Devices ν σ} {C : Controller σ} {k : Kernel ν σ}
  {offset buffer : Word} {size : BitVec 32}

theorem toNat_widen : ((size.setWidth 64 : Word)).toNat = size.toNat := by
  rw [BitVec.toNat_setWidth]
  exact Nat.mod_eq_of_lt (Nat.lt_trans size.isLt (by decide))

theorem run_touch_widen : Run buffer size.toNat (touch buffer (size.setWidth 64 : Word)) := by
  have h : Run buffer (size.setWidth 64 : Word).toNat (touch buffer (size.setWidth 64)) :=
    run_touch
  rwa [toNat_widen] at h

theorem run_blocks {blocks left : ℕ} :
    Run buffer (min left (512 * blocks)) (blockRanges 512 blocks buffer left) :=
  run_blockRanges (by decide)

theorem run_sectors {sectors : ℕ} :
    Run buffer (512 * sectors) (blockRanges 512 sectors buffer (512 * sectors)) := by
  have h : Run buffer (min (512 * sectors) (512 * sectors))
      (blockRanges 512 sectors buffer (512 * sectors)) := run_blocks
  rwa [Nat.min_self] at h

theorem run_kyrofsRead {file : FileContent} :
    Run buffer (kyrofsReadSize file offset size) (kyrofsRead file offset size buffer) := by
  have hwide : ((file.size.setWidth 64 : Word)).toNat = file.size.toNat := toNat_widen
  unfold kyrofsReadSize kyrofsRead
  split_ifs with hnone hend hcut
  · exact .nil buffer
  · rw [BitVec.le_def, hwide] at hend
    rw [Nat.sub_eq_zero_of_le hend, Nat.min_zero]
    exact .nil buffer
  · -- fewer bytes are left than are wanted
    rw [BitVec.le_def, hwide] at hend
    rw [BitVec.lt_def, BitVec.toNat_add, hwide, toNat_widen] at hcut
    have hsize := file.size.isLt
    have hleft : (((file.size.setWidth 64 - offset).setWidth 32 : BitVec 32)).toNat =
        file.size.toNat - offset.toNat := by
      rw [BitVec.toNat_setWidth, BitVec.toNat_sub_of_le (by rw [BitVec.le_def, hwide]; omega),
        hwide]
      omega
    rw [Nat.min_eq_right (by omega), ← hleft]
    exact run_touch_widen
  · rw [BitVec.le_def, hwide] at hend
    rw [BitVec.lt_def, BitVec.toNat_add, hwide, toNat_widen] at hcut
    have hsize := file.size.isLt
    have hcount := size.isLt
    rw [Nat.min_eq_left (by omega)]
    exact run_touch_widen

theorem run_kyrofsWrite {file : FileContent} :
    Run buffer (kyrofsWriteSize k file offset size) (kyrofsWrite k file offset size buffer) := by
  unfold kyrofsWriteSize kyrofsWrite
  dsimp only
  split_ifs with hpanic
  · exact .nil buffer
  · exact run_touch_widen

theorem run_ttyRead : Run buffer (if k.keyDown then min 1 size.toNat else 0)
    (ttyRead k size buffer) := by
  unfold ttyRead
  split_ifs with hkey hzero hzero
  · rw [hzero]
    exact .nil buffer
  · have hpos : size.toNat ≠ 0 := fun h => hzero (BitVec.eq_of_toNat_eq h)
    rw [Nat.min_eq_left (by omega)]
    exact (run_touch : Run buffer (1 : Word).toNat (touch buffer 1))
  · exact .nil buffer
  · exact .nil buffer

theorem run_fsDiskVfsRead {node : FileNode} :
    Run buffer (fsDiskReadSize D k node offset size) (fsDiskVfsRead D k node offset size buffer) :=
  by
  unfold fsDiskReadSize fsDiskVfsRead
  by_cases hdir : node.has vfsDirectory = true
  · rw [if_pos (Or.inl hdir), if_pos hdir]
    exact .nil buffer
  · by_cases hoffset : offset ≠ 0
    · rw [if_pos (Or.inr hoffset), if_neg hdir, if_pos hoffset]
      exact .nil buffer
    · rw [if_neg (not_or.mpr ⟨hdir, hoffset⟩), if_neg hdir, if_neg hoffset]
      exact run_blocks

theorem run_fsDiskVfsWrite {node : FileNode} :
    Run buffer (fsDiskWriteSize D k node offset size buffer)
      (fsDiskVfsWrite D k node offset size buffer) := by
  unfold fsDiskWriteSize fsDiskVfsWrite fsWriteFile
  rw [toNat_widen]
  by_cases hdir : node.has vfsDirectory = true
  · rw [if_pos (Or.inl hdir), if_pos hdir]
    exact .nil buffer
  · by_cases hoffset : offset ≠ 0
    · rw [if_pos (Or.inr hoffset), if_neg hdir, if_pos hoffset]
      exact .nil buffer
    · rw [if_neg (not_or.mpr ⟨hdir, hoffset⟩), if_neg hdir, if_neg hoffset]
      exact run_blocks

theorem run_ideReadWrapper {drive : BitVec 8} :
    Run buffer (ideReadSize C k drive offset size buffer)
      (ideReadWrapper C k drive offset size buffer) := by
  unfold ideReadSize ideReadWrapper
  dsimp only
  split_ifs with hpartial hnone
  · exact .nil buffer
  · exact run_touch_widen
  · exact run_sectors

theorem run_blockNodeRead {node : BlockNode} :
    Run buffer (blockNodeReadSize C k node offset size buffer)
      (blockNodeRead C k node offset size buffer) := by
  cases node with
  | disk drive => exact run_ideReadWrapper
  | partition part =>
    unfold blockNodeReadSize blockNodeRead
    dsimp only
    split_ifs with hrefused
    · exact .nil buffer
    · exact run_sectors

theorem run_blockNodeWrite {node : BlockNode} :
    Run buffer (blockNodeWriteSize C k node offset size buffer)
      (blockNodeWrite C k node offset size buffer) := by
  cases node with
  | disk drive =>
    unfold blockNodeWriteSize blockNodeWrite ideWriteWrapper
    dsimp only
    split_ifs with hpartial
    · exact .nil buffer
    · exact run_sectors
  | partition part =>
    unfold blockNodeWriteSize blockNodeWrite
    dsimp only
    split_ifs with hrefused
    · exact .nil buffer
    · exact run_sectors

theorem run_vfsRead {node : VfsNode} :
    Run buffer (vfsReadSize D C k node offset size buffer)
      (vfsRead D C k node offset size buffer) := by
  cases node with
  | file node => exact run_fsDiskVfsRead
  | dirent n =>
    unfold vfsReadSize vfsRead
    dsimp only
    cases k.blockNode n with
    | some node => exact run_blockNodeRead
    | none =>
      cases k.vfs.driver n with
      | fsDisk => exact .nil buffer
      | kyrofs =>
        cases (k.vfs.tree.node n).ptr with
        | content file => exact run_kyrofsRead
        | dirents _ =>
          dsimp only
          by_cases hchar : (k.vfs.tree.node n).has vfsChardevice = true
          · rw [ite_and, if_pos hchar, if_pos hchar]
            exact run_ttyRead
          · rw [ite_and, if_neg hchar, if_neg hchar]
            exact .nil buffer

theorem run_vfsWrite {node : VfsNode} :
    Run buffer (vfsWriteSize D C k node offset size buffer)
      (vfsWrite D C k node offset size buffer) := by
  cases node with
  | file node => exact run_fsDiskVfsWrite
  | dirent n =>
    unfold vfsWriteSize vfsWrite
    dsimp only
    cases k.blockNode n with
    | some node => exact run_blockNodeWrite
    | none =>
      cases k.vfs.driver n with
      | fsDisk => exact .nil buffer
      | kyrofs =>
        cases (k.vfs.tree.node n).ptr with
        | content file => exact run_kyrofsWrite
        | dirents _ =>
          dsimp only
          split_ifs with hchar
          · exact run_touch_widen
          · exact .nil buffer

theorem run_sockSend {sock buf len : Word} :
    Run buf (sockSendSize k sock buf len) (sockSend k sock buf len) := by
  unfold sockSendSize sockSend
  cases k.net.socketAt sock with
  | none => exact .nil buf
  | some s =>
    dsimp only
    apply run_ite
    · rintro ⟨hbuf, hudp, hconnected, hdevice, hblock⟩
      by_cases hlen : len = 0
      · rw [if_pos (Or.inr hlen), hlen]
        exact .nil buf
      · rw [if_neg (not_or.mpr ⟨hbuf, hlen⟩), if_pos hudp, if_neg (not_not.mpr hconnected),
          if_pos hdevice, udpSendPacket, if_neg hblock]
        exact run_touch
    · intro hnot
      unfold udpSendPacket
      split_ifs with hempty hudp hstate hdevice hblock
      · rfl
      · rfl
      · rfl
      · exact absurd
          ⟨fun h => hempty (Or.inl h), hudp, not_not.mp hstate, hdevice, hblock⟩ hnot
      · rfl
      · rfl

theorem run_sockRecv {sock buf len : Word} :
    Run buf (sockRecvSize k sock buf len) (sockRecv k sock buf len) := by
  unfold sockRecvSize sockRecv
  cases k.net.socketAt sock with
  | none => exact .nil buf
  | some s =>
    dsimp only
    generalize (if s.udpData.recvDataLen = 0 then k.recvData else s.udpData.recvDataLen) = there
    have hcount : (BitVec.ofNat 64 (min len.toNat there)).toNat = min len.toNat there := by
      rw [BitVec.toNat_ofNat]
      exact Nat.mod_eq_of_lt (Nat.lt_of_le_of_lt (Nat.min_le_left ..) len.isLt)
    apply run_ite
    · rintro ⟨hbuf, hudp, hstate⟩
      by_cases hlen : len = 0
      · have hzero : min (0 : Word).toNat there = 0 := Nat.zero_min there
        rw [if_pos (Or.inr hlen), hlen, hzero]
        exact .nil buf
      · rw [if_neg (not_or.mpr ⟨hbuf, hlen⟩), if_pos hudp, if_neg hstate]
        nth_rewrite 1 [← hcount]
        exact run_touch
    · intro hnot
      split_ifs with hempty hudp hclosed
      · rfl
      · rfl
      · exact absurd ⟨fun h => hempty (Or.inl h), hudp, hclosed⟩ hnot
      · rfl

theorem run_sha256UpdateCtx {bufferLen len : ℕ} {data : Word} :
    Run data len (sha256UpdateCtx bufferLen data len) := by
  fun_induction sha256UpdateCtx bufferLen data len with
  | case1 bufferLen data => exact .nil data
  | case2 bufferLen data len hlen bufferLen' i ih =>
    have hmod : bufferLen' < 64 := Nat.mod_lt _ (by decide)
    have hi : (BitVec.ofNat 64 i).toNat = i := by
      rw [BitVec.toNat_ofNat]
      exact Nat.mod_eq_of_lt (by omega)
    have htouch : Run data (BitVec.ofNat 64 i).toNat (touch data (BitVec.ofNat 64 i)) := run_touch
    rw [hi] at htouch
    have htotal : i + (len - i) = len := by omega
    nth_rewrite 1 [← htotal]
    exact htouch.append ih

end Runs

/-! ### The bytes that the calls move -/

section Bytes

variable {ν σ : Type} {k : Kernel ν σ} {offset : Word} {size : BitVec 32}

theorem length_copyOut {bytes out : List Byte} {off n : ℕ} (h : copyOut bytes off n = .ok out) :
    out.length = n := by
  rw [copyOut] at h
  split_ifs at h with hin
  rw [← Except.ok.inj h, List.length_take, List.length_drop]
  omega

/-- `kyrofs_read` fills as much of the buffer as it touches. -/
theorem length_kyrofsRead {node : Dirent} {file : FileContent} {bytes : List Byte}
    (hptr : node.ptr = .content file) (h : Vfs.kyrofsRead node offset size = .ok bytes) :
    bytes.length = kyrofsReadSize file offset size := by
  have hwide : ((file.size.setWidth 64 : Word)).toNat = file.size.toNat := toNat_widen
  rw [Vfs.kyrofsRead, hptr] at h
  rw [kyrofsReadSize]
  cases hcontent : file.content with
  | none =>
    dsimp only at h
    rw [hcontent] at h
    rw [if_pos rfl, ← Except.ok.inj h]
    rfl
  | some content =>
    dsimp only at h
    rw [hcontent] at h
    rw [if_neg (Option.some_ne_none _)]
    have hsize := file.size.isLt
    have hcount := size.isLt
    dsimp only at h
    split_ifs at h with hend hcut
    · rw [BitVec.le_def, hwide] at hend
      rw [← Except.ok.inj h, Nat.sub_eq_zero_of_le hend, Nat.min_zero]
      rfl
    · rw [BitVec.le_def, hwide] at hend
      rw [BitVec.lt_def, BitVec.toNat_add, hwide, toNat_widen] at hcut
      rw [length_copyOut h, BitVec.toNat_setWidth,
        BitVec.toNat_sub_of_le (by rw [BitVec.le_def, hwide]; omega), hwide]
      omega
    · rw [BitVec.le_def, hwide] at hend
      rw [BitVec.lt_def, BitVec.toNat_add, hwide, toNat_widen] at hcut
      rw [length_copyOut h]
      omega

/-- `sock_recv` fills as much of the buffer as it touches, once there is data. -/
theorem length_sockRecv {sock buf len : Word} (hbuf : buf ≠ 0)
    (hdata : ∀ s, k.net.socketAt sock = some s → s.udpData.recvDataLen ≠ 0) :
    (Net.sockRecv k.net sock len.toNat).2.2.length = sockRecvSize k sock buf len := by
  unfold Net.sockRecv sockRecvSize
  cases hsock : k.net.socketAt sock with
  | none => rfl
  | some s =>
    dsimp only
    rw [if_neg (hdata s hsock)]
    by_cases hlen : len.toNat = 0
    · rw [if_pos hlen, hlen, Nat.zero_min, ite_self]
      rfl
    · rw [if_neg hlen]
      by_cases hudp : s.protocol = Net.ipprotoUdp
      · by_cases hclosed : s.state = .closed
        · rw [if_pos hudp, if_pos hclosed, if_neg fun h => h.2.2 hclosed]
          rfl
        · rw [if_pos hudp, if_neg hclosed, if_pos ⟨hbuf, hudp, hclosed⟩]
          exact Net.length_bytesAt
      · rw [if_neg hudp, if_neg fun h => hudp h.2.1]
        rfl

end Bytes

/-! ### The calls that keep to user space -/

section Permits

variable {ν σ : Type} (D : Devices ν σ) (C : Controller σ) (k : Kernel ν σ) (regs : Registers)

/-- The bytes from `p` on lie in user space. -/
def InUser (p : Word) (n : ℕ) : Prop := Fits k.hhdmOffset p n

/-- A path lies in user space up to its NUL, or starts in the half of the kernel. -/
def PathPermitted (user : Word) (n : ℕ) : Prop :=
  k.hhdmOffset ≤ user ∨ InUser k user (k.stringSize user n)

/-- The `stat` of a node fills the buffer. -/
def FillsStat (node : VfsNode) (statBuf : Word) : Prop :=
  match node with
  | .file node => hasFileInfo k node.name = true
  | .dirent n =>
    match k.vfs.driver n with
    | .fsDisk => hasFileInfo k (k.vfs.tree.node n).name = true
    | .kyrofs => (k.vfs.tree.node n).hasDirectoryOps = true ∧ statBuf ≠ 0

/-- The buffer of `stat` lies in user space, if the path leads to a node that fills it. -/
def StatPermitted (path : CString) (statBuf : Word) : Prop :=
  ∀ node, resolvePath k path = some node → FillsStat k node statBuf → InUser k statBuf 12

/-- The entry lies in user space, if there is one to be written. -/
def ReaddirPermitted : Prop :=
  let node := if regs.rdi = 0 then k.vfs.tree.root else regs.rdi
  node ∈ k.vfs.tree.live → hasEntry k node (regs.rsi.setWidth 32) = true → InUser k regs.rdx 260

/-- Another UDP socket has the port. -/
def PortTaken (sock addr : Word) : Prop :=
  ∃ s ∈ k.net.activeSockets,
    (s.address ≠ sock ∧ s.protocol = Net.ipprotoUdp) ∧
      s.localAddr.sinPort = k.load16 (addr + 2)

/-- The address lies in user space, or its port if that is taken. -/
def BindPermitted (sock addr : Word) : Prop :=
  ∀ s, k.net.socketAt sock = some s → addr ≠ 0 → s.protocol = Net.ipprotoUdp →
    (PortTaken k sock addr → InUser k (addr + 2) 2) ∧
      (¬ PortTaken k sock addr → InUser k addr 16)

/-- A request for blocks lies in user space, with its buffer if the request is not refused. -/
def BlocksPermitted (argp : Word) (target : Option (BitVec 8 × BitVec 32))
    (sectors : BitVec 8 → BitVec 32 → ℕ) : Prop :=
  match target with
  | none => InUser k argp 8
  | some (drive, lba) =>
    InUser k argp 16 ∧ InUser k (k.load64 (argp + 8)) (512 * sectors drive lba)

/-- The structure of an `ioctl` of a block device lies in user space. -/
def IoctlPermitted (node : BlockNode) (request : BitVec 32) (argp : Word) : Prop :=
  let count := k.load32 (argp + 4)
  let target := ioctlTarget node (k.load32 argp) count
  if argp = 0 then True
  else if request = 1 then InUser k argp 12
  else if request = 2 then
    BlocksPermitted k argp target fun drive lba => sectorsRead C k drive lba (count.setWidth 8)
  else if request = 3 then
    BlocksPermitted k argp target fun drive lba =>
      sectorsWritten C k drive lba (count.setWidth 8) (k.load64 (argp + 8))
  else if request = 4 then InUser k argp 8
  else True

/-- What is asked of a call that takes a socket. -/
def SocketPermitted (call : Word → Prop) : Prop :=
  ∀ sock, k.descriptor (regs.rdi.setWidth 32) = .socket sock → call sock

/-- The memory that a call with the given number moves lies in user space. -/
def Permits : ℕ → Prop
  | 1 | 12 => InUser k regs.rsi (writeSize D C k regs)
  | 2 | 6 | 8 | 9 | 23 => PathPermitted k regs.rdi 255
  | 4 => InUser k regs.rsi (readSize D C k regs)
  | 5 => k.hhdmOffset ≤ regs.rdi ∨
      (InUser k regs.rdi (k.stringSize regs.rdi 255) ∧
        StatPermitted k (k.string regs.rdi 255) regs.rsi)
  | 7 => ReaddirPermitted k regs
  | 11 => SocketPermitted k regs fun sock =>
      InUser k regs.rsi (sockConnectSize k sock regs.rsi)
  | 13 => SocketPermitted k regs fun sock =>
      InUser k regs.rsi (sockRecvSize k sock regs.rsi regs.rdx)
  | 14 => SocketPermitted k regs fun sock => BindPermitted k sock regs.rsi
  | 18 => InUser k regs.rdi regs.rsi.toNat ∧ InUser k regs.rdx 32
  | 21 => ∀ n offset flags node,
      k.descriptor (regs.rdi.setWidth 32) = .file (.dirent n) offset flags →
        k.blockNode n = some node → IoctlPermitted C k node (regs.rsi.setWidth 32) regs.rdx
  | 22 => k.hhdmOffset ≤ regs.rdi ∨
      (InUser k regs.rdi (k.stringSize regs.rdi 255) ∧
        InUser k regs.rsi (k.stringSize regs.rsi 255) ∧
          InUser k regs.rdx (k.stringSize regs.rdx 31))
  | 25 => k.framebuffer = true → InUser k regs.rdi 24
  | 26 => 0 < k.eventCount → InUser k regs.rdi 16
  | _ => True

end Permits

/-! ### The handlers -/

section Handlers

variable {ν σ : Type} {D : Devices ν σ} {C : Controller σ} {k : Kernel ν σ} {regs : Registers}
  {user addr sock : Word} {n : ℕ} {rest : CString → Footprint}

/-- A string has its NUL, or at least one other byte that is looked at. -/
theorem stringSize_pos (hn : 0 < n) : 0 < k.stringSize user n :=
  Nat.lt_min.mpr ⟨Nat.succ_pos _, hn⟩

theorem toNat_stringSize (hn : n ≤ 255) :
    (BitVec.ofNat 64 (k.stringSize user n)).toNat = k.stringSize user n := by
  have hle : k.stringSize user n ≤ n := Nat.min_le_right ..
  rw [BitVec.toNat_ofNat]
  exact Nat.mod_eq_of_lt (by omega)

theorem below_string (hn : n ≤ 255) :
    (∀ r ∈ touch user (BitVec.ofNat 64 (k.stringSize user n)), r.Below k.hhdmOffset) ↔
      InUser k user (k.stringSize user n) := by
  rw [below_touch, toNat_stringSize hn]
  rfl

/-- A string that lies in user space starts there. -/
theorem not_le_of_inUser (hn : 0 < n) (h : InUser k user (k.stringSize user n)) :
    ¬ k.hhdmOffset ≤ user := by
  have hpos : 0 < k.stringSize user n := stringSize_pos hn
  rw [BitVec.le_def]
  rcases h with hzero | hfits
  · omega
  · omega

/-- What is done with a string is granted when the string and the rest are. -/
theorem granted_copyString (hn : 0 < n) (hn' : n ≤ 255) :
    (copyString k user n rest).Granted k.hhdmOffset ↔
      InUser k user (k.stringSize user n) ∧ (rest (k.string user n)).Granted k.hhdmOffset := by
  unfold copyString
  split_ifs with hdeny
  · exact iff_of_false (fun h => Bool.noConfusion h.allowed)
      fun h => not_le_of_inUser hn h.1 hdeny
  · constructor
    · intro h
      obtain ⟨hstring, hrest⟩ := below_append.mp h.below
      exact ⟨(below_string hn').mp hstring, hrest, h.allowed⟩
    · rintro ⟨hstring, hrest⟩
      exact ⟨below_append.mpr ⟨(below_string hn').mpr hstring, hrest.below⟩, hrest.allowed⟩

/-- A first string that starts in the half of the kernel is turned down in time. -/
theorem safe_copyString (hn : 0 < n) (hn' : n ≤ 255) :
    (copyString k user n rest).Safe k.hhdmOffset ↔ k.hhdmOffset ≤ user ∨
      (InUser k user (k.stringSize user n) ∧
        (rest (k.string user n)).Granted k.hhdmOffset) := by
  rw [← granted_copyString hn hn']
  by_cases hdeny : k.hhdmOffset ≤ user
  · rw [copyString, if_pos hdeny]
    exact iff_of_true ⟨accepted_iff.mpr below_nil, fun _ => rfl⟩ (Or.inl hdeny)
  · rw [or_iff_right hdeny]
    constructor
    · intro h
      refine ⟨accepted_iff.mp h.accepted, Bool.eq_false_iff.mpr fun hdenied => ?_⟩
      -- the string was looked at before
      have hnil := h.denied hdenied
      rw [copyString, if_neg hdeny] at hnil
      have hsize : (BitVec.ofNat 64 (k.stringSize user n)).toNat = 0 :=
        congrArg BitVec.toNat (touch_eq_nil.mp (List.append_eq_nil_iff.mp hnil).1)
      rw [toNat_stringSize hn'] at hsize
      exact absurd hsize (Nat.ne_of_gt (stringSize_pos hn))
    · intro h
      exact ⟨accepted_iff.mpr h.below, fun hdenied => absurd hdenied (by rw [h.allowed]; decide)⟩

theorem safe_pathCall : (pathCall k user).Safe k.hhdmOffset ↔ PathPermitted k user 255 := by
  rw [pathCall, safe_copyString (by decide) (by decide), PathPermitted]
  exact or_congr_right (and_iff_left granted_nil)

theorem safe_sysMount : (sysMount k regs).Safe k.hhdmOffset ↔ Permits D C k regs 22 := by
  rw [sysMount, safe_copyString (by decide) (by decide),
    granted_copyString (by decide) (by decide), granted_copyString (by decide) (by decide),
    and_iff_left granted_nil]
  rfl

theorem safe_sysWrite : (sysWrite D C k regs).Safe k.hhdmOffset ↔
    InUser k regs.rsi (writeSize D C k regs) := by
  unfold sysWrite writeSize
  cases k.descriptor (regs.rdi.setWidth 32) with
  | none => exact iff_of_true safe_nil fits_zero
  | file node offset flags => exact safe_of_run run_vfsWrite
  | socket sock => exact safe_of_run run_sockSend

theorem safe_sysRead : (sysRead D C k regs).Safe k.hhdmOffset ↔
    InUser k regs.rsi (readSize D C k regs) := by
  unfold sysRead readSize
  cases k.descriptor (regs.rdi.setWidth 32) with
  | none => exact iff_of_true safe_nil fits_zero
  | file node offset flags => exact safe_of_run run_vfsRead
  | socket sock => exact safe_of_run run_sockRecv

/-- An access that is made under a condition. -/
theorem below_ite {c : Prop} [Decidable c] {p size : Word} :
    (∀ r ∈ (if c then touch p size else []), r.Below k.hhdmOffset) ↔
      (c → InUser k p size.toNat) := by
  split_ifs with hc
  · rw [below_touch, forall_prop_of_true hc]
    rfl
  · exact iff_of_true below_nil fun h => absurd h hc

theorem below_nodeStat {node : VfsNode} {statBuf : Word} :
    (∀ r ∈ nodeStat k node statBuf, r.Below k.hhdmOffset) ↔
      (FillsStat k node statBuf → InUser k statBuf 12) := by
  unfold nodeStat FillsStat fsDiskVfsStat kyrofsStat
  cases node with
  | file node => exact below_ite
  | dirent n =>
    dsimp only
    cases k.vfs.driver n with
    | fsDisk => exact below_ite
    | kyrofs =>
      dsimp only
      rw [← ite_not (statBuf = 0), ← ite_and]
      exact below_ite

theorem safe_sysStat : (sysStat k regs).Safe k.hhdmOffset ↔ Permits D C k regs 5 := by
  rw [sysStat, safe_copyString (by decide) (by decide)]
  apply or_congr_right
  apply and_congr_right
  intro _
  unfold StatPermitted
  cases resolvePath k (k.string regs.rdi 255) with
  | none => exact iff_of_true granted_nil fun node h => nomatch h
  | some node =>
    rw [granted_of, below_nodeStat]
    constructor
    · rintro h _ ⟨⟩
      exact h
    · intro h
      exact h node rfl

/-- The name and the inode of an entry lie in user space when the entry does. -/
theorem below_dirent {p size : Word} (hsize : size = 255 ∨ size = 256) :
    (∀ r ∈ touch p size ++ touch (p + 256) 4, r.Below k.hhdmOffset) ↔ InUser k p 260 := by
  rw [below_append, below_touch, below_touch]
  have hlt : size.toNat = 255 ∨ size.toNat = 256 := hsize.imp (congrArg _) (congrArg _)
  constructor
  · rintro ⟨hname, hino⟩
    have hlimit := k.hhdmOffset.isLt
    have hbehind : (p + 256).toNat = (p.toNat + 256) % 2 ^ 64 := BitVec.toNat_add ..
    have hname : p.toNat + size.toNat < k.hhdmOffset.toNat := hname.resolve_left (by omega)
    have hino : (p + 256).toNat + 4 < k.hhdmOffset.toNat := hino.resolve_left (by decide)
    right
    omega
  · intro h
    exact ⟨h.mono (by omega), h.part (d := 256) (m := 4) (by decide)⟩

theorem safe_sysReaddir : (sysReaddir k regs).Safe k.hhdmOffset ↔ Permits D C k regs 7 := by
  show _ ↔ ReaddirPermitted k regs
  unfold sysReaddir ReaddirPermitted
  generalize (if regs.rdi = 0 then k.vfs.tree.root else regs.rdi) = node
  dsimp only
  split_ifs with hlive
  · rw [safe_of, vfsReaddir, forall_prop_of_true hlive]
    split_ifs with hentry
    · rw [forall_prop_of_true hentry]
      apply below_dirent
      unfold nameSize
      cases k.vfs.driver node with
      | kyrofs => exact Or.inr rfl
      | fsDisk => exact Or.inl rfl
    · exact iff_of_true below_nil fun h => absurd h hentry
  · exact iff_of_true safe_nil fun h => absurd h hlive

/-- What is asked of a call that takes a socket is asked for the socket of the descriptor. -/
theorem safe_socketCall {call : Word → List UserRange} {P : Word → Prop}
    (h : ∀ sock, (∀ r ∈ call sock, r.Below k.hhdmOffset) ↔ P sock) :
    (socketCall k regs call).Safe k.hhdmOffset ↔ SocketPermitted k regs P := by
  unfold socketCall SocketPermitted
  cases k.descriptor (regs.rdi.setWidth 32) with
  | none => exact iff_of_true safe_nil fun sock heq => nomatch heq
  | file node offset flags => exact iff_of_true safe_nil fun sock heq => nomatch heq
  | socket sock =>
    rw [safe_of, h]
    constructor
    · rintro hcall _ ⟨⟩
      exact hcall
    · intro hcall
      exact hcall sock rfl

theorem safe_sysAccept : (sysAccept k regs).Safe k.hhdmOffset :=
  (safe_socketCall fun _ => iff_true_intro below_nil).mpr fun _ _ => trivial

theorem below_sockConnect : (∀ r ∈ sockConnect k sock addr, r.Below k.hhdmOffset) ↔
    InUser k addr (sockConnectSize k sock addr) := by
  have hnil : (∀ r ∈ ([] : List UserRange), r.Below k.hhdmOffset) ↔ InUser k addr 0 :=
    iff_of_true below_nil fits_zero
  unfold sockConnect sockConnectSize
  cases k.net.socketAt sock with
  | none => exact hnil
  | some s =>
    dsimp only
    by_cases haddr : addr = 0
    · rw [if_pos haddr, if_pos (Or.inl haddr)]
      exact hnil
    · by_cases hdomain : s.domain ≠ 2
      · rw [if_neg haddr, if_pos hdomain, if_pos (Or.inr hdomain)]
        exact hnil
      · rw [if_neg haddr, if_neg hdomain, if_neg (not_or.mpr ⟨haddr, hdomain⟩)]
        by_cases hfamily : k.load16 addr = Net.afInet
        · rw [if_neg (not_not.mpr hfamily), below_append, below_touch]
          split_ifs with hudp hboth hboth
          · -- the family is read before all of the address is
            rw [below_touch]
            exact and_iff_right_of_imp fun h => Fits.mono h (by decide)
          · exact absurd ⟨hfamily, hudp⟩ hboth
          · exact absurd hboth.2 hudp
          · exact and_iff_left below_nil
        · rw [if_pos hfamily, if_neg fun h => hfamily h.1]
          exact below_touch

/-- The socket has the port that is asked for. -/
theorem portSearch_used {l : List Net.Socket} : (portSearch k sock addr l).2 = true ↔
    ∃ s ∈ l, (s.address ≠ sock ∧ s.protocol = Net.ipprotoUdp) ∧
      s.localAddr.sinPort = k.load16 (addr + 2) := by
  induction l with
  | nil => exact iff_of_false Bool.noConfusion fun ⟨_, hs, _⟩ => absurd hs List.not_mem_nil
  | cons s rest ih =>
    rw [portSearch, List.exists_mem_cons_iff]
    split_ifs with hother hport
    · exact iff_of_true rfl (Or.inl ⟨hother, hport⟩)
    · exact ih.trans (or_iff_right fun h => hport h.2).symm
    · exact ih.trans (or_iff_right fun h => hother h.1).symm

theorem below_port :
    (∀ r ∈ touch (addr + 2) 2, r.Below k.hhdmOffset) ↔ InUser k (addr + 2) 2 :=
  below_touch

/-- The search reads nothing but the port. -/
theorem below_portSearch {l : List Net.Socket} (h : InUser k (addr + 2) 2) :
    ∀ r ∈ (portSearch k sock addr l).1, r.Below k.hhdmOffset := by
  induction l with
  | nil => exact below_nil
  | cons s rest ih =>
    rw [portSearch]
    split_ifs with hother hport
    · exact below_port.mpr h
    · exact below_append.mpr ⟨below_port.mpr h, ih⟩
    · exact ih

/-- A search that finds the port has read it. -/
theorem inUser_of_portSearch {l : List Net.Socket} (hused : (portSearch k sock addr l).2 = true)
    (hbelow : ∀ r ∈ (portSearch k sock addr l).1, r.Below k.hhdmOffset) :
    InUser k (addr + 2) 2 := by
  induction l with
  | nil => exact absurd hused Bool.noConfusion
  | cons s rest ih =>
    rw [portSearch] at hused hbelow
    split_ifs at hused hbelow with hother hport
    · exact below_port.mp hbelow
    · exact below_port.mp (below_append.mp hbelow).1
    · exact ih hused hbelow

/-- What is read of the address: the port, and the rest if the port is free. -/
theorem below_bindAddress :
    (∀ r ∈ (if (portSearch k sock addr k.net.activeSockets).2 = true then
        (portSearch k sock addr k.net.activeSockets).1
      else (portSearch k sock addr k.net.activeSockets).1 ++ touch addr 16 ++ touch (addr + 2) 2),
      r.Below k.hhdmOffset) ↔
      (PortTaken k sock addr → InUser k (addr + 2) 2) ∧
        (¬ PortTaken k sock addr → InUser k addr 16) := by
  have htaken : (portSearch k sock addr k.net.activeSockets).2 = true ↔ PortTaken k sock addr :=
    portSearch_used
  rw [← htaken]
  split_ifs with hused
  · constructor
    · intro h
      exact ⟨fun _ => inUser_of_portSearch hused h, fun hnot => absurd hused hnot⟩
    · intro h
      exact below_portSearch (h.1 hused)
  · rw [below_append, below_append, below_touch, below_touch]
    constructor
    · intro h
      exact ⟨fun h => absurd h hused, fun _ => h.1.2⟩
    · intro h
      have haddress : InUser k addr 16 := h.2 hused
      have hport : InUser k (addr + 2) 2 := haddress.part (d := 2) (m := 2) (by decide)
      exact ⟨⟨below_portSearch hport, haddress⟩, hport⟩

theorem below_sockBind : (∀ r ∈ sockBind k sock addr, r.Below k.hhdmOffset) ↔
    BindPermitted k sock addr := by
  unfold sockBind BindPermitted
  cases k.net.socketAt sock with
  | none => exact iff_of_true below_nil fun s h => nomatch h
  | some s =>
    dsimp only
    by_cases haddr : addr = 0
    · rw [if_pos haddr]
      exact iff_of_true below_nil fun _ _ hne => absurd haddr hne
    · by_cases hudp : s.protocol = Net.ipprotoUdp
      · rw [if_neg haddr, if_pos hudp, below_bindAddress]
        constructor
        · rintro h _ ⟨⟩ _ _
          exact h
        · intro h
          exact h s rfl haddr hudp
      · rw [if_neg haddr, if_neg hudp]
        refine iff_of_true below_nil ?_
        rintro _ ⟨⟩ _ h
        exact absurd h hudp

theorem below_ioctlBlocks {argp : Word} {target : Option (BitVec 8 × BitVec 32)}
    {move : BitVec 8 → BitVec 32 → List UserRange} {sectors : BitVec 8 → BitVec 32 → ℕ}
    (hmove : ∀ drive lba, Run (k.load64 (argp + 8)) (512 * sectors drive lba) (move drive lba)) :
    (∀ r ∈ ioctlBlocks argp target move, r.Below k.hhdmOffset) ↔
      BlocksPermitted k argp target sectors := by
  unfold ioctlBlocks BlocksPermitted
  cases target with
  | none => exact below_touch
  | some t =>
    rw [below_append, below_touch, (hmove t.1 t.2).forall_below_iff]
    rfl

theorem below_blockNodeIoctl {node : BlockNode} {request : BitVec 32} {argp : Word} :
    (∀ r ∈ blockNodeIoctl C k node request argp, r.Below k.hhdmOffset) ↔
      IoctlPermitted C k node request argp := by
  have hnil : (∀ r ∈ ([] : List UserRange), r.Below k.hhdmOffset) ↔ True :=
    iff_true_intro below_nil
  unfold blockNodeIoctl IoctlPermitted
  dsimp only
  split_ifs with hnull hinfo hread hwrite hformat
  · exact hnil
  · exact below_touch
  · exact below_ioctlBlocks fun drive lba => run_sectors
  · exact below_ioctlBlocks fun drive lba => run_sectors
  · exact below_touch
  · exact hnil

theorem safe_sysIoctl : (sysIoctl C k regs).Safe k.hhdmOffset ↔ Permits D C k regs 21 := by
  show _ ↔ ∀ n offset flags node, _ → _ → _
  unfold sysIoctl
  cases k.descriptor (regs.rdi.setWidth 32) with
  | none => exact iff_of_true safe_nil fun _ _ _ _ heq => nomatch heq
  | socket sock => exact iff_of_true safe_nil fun _ _ _ _ heq => nomatch heq
  | file node offset flags =>
    cases node with
    | file node => exact iff_of_true safe_nil fun _ _ _ _ heq => nomatch heq
    | dirent n =>
      show (Footprint.of (nodeIoctl C k (.dirent n) _ _)).Safe _ ↔ _
      rw [safe_of, nodeIoctl]
      cases hnode : k.blockNode n with
      | none =>
        refine iff_of_true below_nil ?_
        rintro _ _ _ node ⟨⟩ hsome
        exact absurd (hnode.symm.trans hsome) (by exact fun h => nomatch h)
      | some node =>
        rw [below_blockNodeIoctl]
        constructor
        · rintro h _ _ _ node' ⟨⟩ hsome
          exact Option.some.inj (hnode.symm.trans hsome) ▸ h
        · intro h
          exact h n offset flags node rfl hnode

theorem safe_sysGfxGetFbInfo : (sysGfxGetFbInfo k regs).Safe k.hhdmOffset ↔
    Permits D C k regs 25 := by
  show _ ↔ (k.framebuffer = true → InUser k regs.rdi 24)
  unfold sysGfxGetFbInfo
  split_ifs with hframebuffer
  · rw [safe_of, below_touch, forall_prop_of_true hframebuffer]
    rfl
  · exact iff_of_true safe_nil fun hsome => absurd hsome hframebuffer

theorem safe_sysInputPollEvent : (sysInputPollEvent k regs).Safe k.hhdmOffset ↔
    Permits D C k regs 26 :=
  safe_of.trans below_ite

theorem safe_sysSha256 : (sysSha256 regs).Safe k.hhdmOffset ↔ Permits D C k regs 18 := by
  rw [sysSha256, safe_of, sha256Hash, below_append, below_touch,
    run_sha256UpdateCtx.forall_below_iff]
  rfl

/-- A call that keeps to user space is one whose memory lies there. -/
theorem safe_syscallTable (num : ℕ) :
    (syscallTable D C k regs num).Safe k.hhdmOffset ↔ Permits D C k regs num := by
  have hnumbers : sysNumbers.Safe k.hhdmOffset ↔ True := iff_true_intro safe_nil
  match num with
  | 1 | 12 => exact safe_sysWrite
  | 2 | 6 | 8 | 9 | 23 => exact safe_pathCall
  | 4 => exact safe_sysRead
  | 5 => exact safe_sysStat
  | 7 => exact safe_sysReaddir
  | 11 => exact safe_socketCall fun _ => below_sockConnect
  | 13 => exact safe_socketCall fun _ => run_sockRecv.forall_below_iff
  | 14 => exact safe_socketCall fun _ => below_sockBind
  | 16 => exact iff_of_true safe_sysAccept trivial
  | 18 => exact safe_sysSha256
  | 21 => exact safe_sysIoctl
  | 22 => exact safe_sysMount
  | 25 => exact safe_sysGfxGetFbInfo
  | 26 => exact safe_sysInputPollEvent
  | 0 | 3 | 10 | 15 | 17 | 19 | 20 | 24 | 27 => exact hnumbers
  | _ + 28 => exact hnumbers

/-- A number that the table does not have is only logged. -/
theorem permits_of_le {num : ℕ} (h : 28 ≤ num) : Permits D C k regs num := by
  obtain ⟨m, rfl⟩ := Nat.exists_eq_add_of_le' h
  exact trivial

end Handlers

/-- A kernel with an empty root directory and no open file. -/
def bootKernel : Kernel IdeNode (ℕ → Block) where
  hhdmOffset := 0xFFFF800000000000
  mem := fun _ => 0
  fdTable := fun _ => .none
  vfs := ⟨bareRoot 0xFFFF800000001000, fun _ => .kyrofs,
    ⟨⟨none, 0, ⟨0, 0, 0, 0, 0, 0, 0, fun _ => 0⟩, none⟩, fun _ => zeroBlock⟩⟩
  blockNode := fun _ => none
  net := Net.freshHost (fun _ => 0) 0
  networkDevices := false
  framebuffer := true
  eventCount := 0
  kmalloc := fun _ => 0xFFFF800000100000
  keyDown := false
  recvData := 0

/-- `SYS_SHA256` of no bytes, with the first address of the kernel for the hash. -/
def hashToKernel : Registers := ⟨18, 0x400000, 0, 0xFFFF800000000000⟩

end KyroOS.Syscalls

import KyroOS.Vfs.Kyrofs
import KyroOS.Disk.FsDisk

/-!
# Mount points

A directory of KyroFS becomes a mount point by taking the operations of `fs_disk` in the place of
its own. These look at the flags of the node, and act on the one mounted file system, whichever
node they are called for.

## Main definitions

* `FileNode` — the node that `fs_disk` makes for a file
* `fsDiskVfsFinddir`, `fsDiskVfsRead`, `fsDiskVfsWrite`, `fsDiskVfsReaddir` — operations of
  `fs_disk`
* `MountState` — the tree, the drivers of its nodes, and the mounted file system
* `vfsMount`, `vfsUnmount` — the calls that make and end a mount point
* `MountState.resolve`, `MountState.callInParent` — the calls by path

## Main results

* `resolve_of_kyrofs` — without mount points a path leads where it leads in KyroFS
-/

namespace KyroOS.Mount

open Vfs Disk

/-! ### The operations of `fs_disk` -/

section FsDisk

/-- The node that `fs_disk_vfs_finddir` makes for an entry. -/
structure FileNode where
  name : CString
  flags : BitVec 32
  length : BitVec 32
  deriving DecidableEq

def FileNode.has (node : FileNode) (flag : BitVec 32) : Bool := node.flags &&& flag ≠ 0

variable {ν σ : Type} (D : Devices ν σ) (disk : FsState ν σ)

/-- The flags of the node for an entry. -/
def nodeFlags (info : FileEntry) : BitVec 32 :=
  (if info.flags &&& fsFileFlagFile ≠ 0 then vfsFile else 0) |||
    (if info.flags &&& fsFileFlagDirectory ≠ 0 then vfsDirectory else 0)

/-- `fs_disk_vfs_finddir` of a node with the given flags, where `kmalloc` returns `block`. -/
def fsDiskVfsFinddir (flags : BitVec 32) (name : CString) (block : Word) :
    Outcome (Option FileNode) :=
  if flags &&& vfsMountpoint ≠ 0 then do
    match ← fsGetFileInfo disk name with
    | none => .ok none
    | some info =>
      if block = 0 then .ok none
      else .ok (some ⟨name.take (maxFilenameLen - 1), nodeFlags info, info.sizeBytes⟩)
  else .ok none

/-- `(uint32_t)-1` -/
def minusOne32 : BitVec 32 := 0xFFFFFFFF

/-- `fs_disk_vfs_read`: the result and the bytes copied to the buffer. -/
def fsDiskVfsRead (node : FileNode) (offset : Word) (size : BitVec 32) :
    Outcome (BitVec 32 × List Byte) :=
  if node.has vfsDirectory then .ok (minusOne32, [])
  else if offset ≠ 0 then .ok (minusOne32, [])
  else (fsReadFile D disk node.name (size.setWidth 64)).map fun r => (BitVec.ofInt 32 r.1, r.2)

/-- `fs_disk_vfs_write` -/
def fsDiskVfsWrite (node : FileNode) (offset : Word) (data : List Byte) :
    Outcome (FsState ν σ × BitVec 32) :=
  if node.has vfsDirectory then .ok (disk, minusOne32)
  else if offset ≠ 0 then .ok (disk, minusOne32)
  else (fsWriteFile D disk node.name data).map fun r => (r.1, BitVec.ofInt 32 r.2)

/-- The name that is copied from an entry. -/
def entryName (info : FileEntry) : CString :=
  ((List.ofFn info.toBlock).takeWhile (· ≠ 0)).take (maxFilenameLen - 1)

/-- The search of `fs_disk_vfs_readdir` through the entries `i, …, i + n - 1`. -/
def readdirFrom (index : ℕ) : ℕ → ℕ → ℕ → Outcome (Option (CString × ℕ))
  | 0, _, _ => .ok none
  | n + 1, i, count => do
    match ← fsGetFileInfoByIndex disk i with
    | none => readdirFrom index n (i + 1) count
    | some info =>
      if info.isFree then readdirFrom index n (i + 1) count
      else if count = index then .ok (some (entryName info, i))
      else readdirFrom index n (i + 1) (count + 1)

/-- `fs_disk_vfs_readdir` of a node with the given flags: the name and the inode. -/
def fsDiskVfsReaddir (flags : BitVec 32) (index : BitVec 32) : Outcome (Option (CString × ℕ)) :=
  if flags &&& vfsMountpoint = 0 then .ok none else readdirFrom disk index.toNat fsMaxFiles 0 0

end FsDisk

/-! ### Nodes -/

/-- The calls that change a directory. -/
inductive DirCall
  | mkdir
  | create
  | remove
  | rmdir

/-- `fs_disk_vfs_mkdir`, `fs_disk_vfs_create`, `fs_disk_vfs_remove` and `fs_disk_vfs_rmdir`. -/
def fsDiskCall {ν σ : Type} (D : Devices ν σ) (disk : FsState ν σ) (name : CString) :
    DirCall → Outcome (FsState ν σ × Int)
  | .mkdir => fsCreateFile D disk name fsFileFlagDirectory
  | .create => fsCreateFile D disk name fsFileFlagFile
  | .remove => fsDeleteFile D disk name
  | .rmdir => fsDeleteFile D disk name

/-- The driver whose operations a directory has. -/
inductive Driver
  | kyrofs
  | fsDisk
  deriving DecidableEq

/-- A node of the tree, or one for a file on a disk. -/
inductive VfsNode
  | dirent (n : Word)
  | file (node : FileNode)
  deriving DecidableEq

/-- The tree, the drivers of its directories, and the mounted file system. -/
structure MountState (ν σ : Type) where
  tree : Kyrofs
  driver : Word → Driver
  disk : FsState ν σ

/-- `kyrofs_readdir`: the name, as every inode is 0. -/
def kyrofsReaddir (fs : Kyrofs) (n : Word) (index : BitVec 32) : Option (CString × ℕ) :=
  ((fs.names n)[index.toNat]?).map fun name => (name, 0)

section State

variable {ν σ : Type} (D : Devices ν σ) (s : MountState ν σ)

namespace MountState

/-- `vfs_finddir` -/
def finddir (block : Word) : VfsNode → CString → Outcome (Option VfsNode)
  | .dirent n, name =>
    if (s.tree.node n).has vfsDirectory then
      match s.driver n with
      | .kyrofs => .ok ((vfsFinddir s.tree n name).map .dirent)
      | .fsDisk => (fsDiskVfsFinddir s.disk (s.tree.node n).flags name block).map fun r =>
          r.map .file
    else .ok none
  | .file node, name =>
    if node.has vfsDirectory then
      (fsDiskVfsFinddir s.disk node.flags name block).map fun r => r.map .file
    else .ok none

/-- `vfs_readdir` -/
def readdir (index : BitVec 32) : VfsNode → Outcome (Option (CString × ℕ))
  | .dirent n =>
    if (s.tree.node n).has vfsDirectory then
      match s.driver n with
      | .kyrofs => .ok
          (if (s.tree.node n).hasDirectoryOps then kyrofsReaddir s.tree n index else none)
      | .fsDisk => fsDiskVfsReaddir s.disk (s.tree.node n).flags index
    else .ok none
  | .file node =>
    if node.has vfsDirectory then fsDiskVfsReaddir s.disk node.flags index else .ok none

/-- The node that the names lead to. -/
def walk (block : Word) : VfsNode → List CString → Outcome (Option VfsNode)
  | n, [] => .ok (some n)
  | n, name :: rest => do
    match ← s.finddir block n name with
    | none => .ok none
    | some m => walk block m rest

/-- `vfs_resolve_path` -/
def resolve (root : VfsNode) (path : CString) (block : Word) : Outcome (Option VfsNode) :=
  s.walk block root (pathComponents path)

/-- A call of the KyroFS operation of a directory. -/
def kyrofsCall (call : DirCall) (new : NewNode) (n : Word) (name : CString) :
    Outcome (MountState ν σ × Int) :=
  if (s.tree.node n).hasDirectoryOps then
    match call with
    | .mkdir => (kyrofsMkdir s.tree new n name).map fun r =>
        ({ s with tree := r.1, driver := Function.update s.driver new.dirent .kyrofs }, r.2)
    | .create => (kyrofsCreate s.tree new n name).map fun r =>
        ({ s with tree := r.1, driver := Function.update s.driver new.dirent .kyrofs }, r.2)
    | .remove => .ok ({ s with tree := (kyrofsRemove s.tree n name).1 },
        (kyrofsRemove s.tree n name).2)
    | .rmdir => .ok ({ s with tree := (kyrofsRmdir s.tree n name).1 },
        (kyrofsRmdir s.tree n name).2)
  else .ok (s, -1)

/-- A call of the operation that a node has; nodes for files have none. -/
def call (call : DirCall) (new : NewNode) (name : CString) :
    VfsNode → Outcome (MountState ν σ × Int)
  | .dirent n =>
    match s.driver n with
    | .kyrofs => s.kyrofsCall call new n name
    | .fsDisk => (fsDiskCall D s.disk name call).map fun r => ({ s with disk := r.1 }, r.2)
  | .file _ => .ok (s, -1)

/-- The node is a directory. -/
def isDirectory : VfsNode → Bool
  | .dirent n => (s.tree.node n).has vfsDirectory
  | .file node => node.has vfsDirectory

/-- `vfs_mkdir`, `vfs_create`, `vfs_remove` and `vfs_rmdir`. -/
def callInParent (c : DirCall) (new : NewNode) (root : VfsNode) (path : CString) (block : Word) :
    Outcome (MountState ν σ × Int) :=
  match splitLast path with
  | none => s.call D c new path root
  | some ([], name) => s.call D c new name root
  | some (dir, name) => do
    match ← s.resolve root dir block with
    | none => .ok (s, -1)
    | some parent => if s.isDirectory parent then s.call D c new name parent else .ok (s, -1)

/-- A flag of a node is set or cleared, and its `ptr` is `NULL` afterwards. -/
def setMount (n : Word) (flags : BitVec 32) (driver : Driver) : MountState ν σ :=
  { s with
    tree := s.tree.setNode n { s.tree.node n with flags, ptr := .dirents [] }
    driver := Function.update s.driver n driver }

section SetMount

variable {s : MountState ν σ} {n m : Word} {flags : BitVec 32} {driver : Driver}

@[simp]
theorem setMount_flags : ((s.setMount n flags driver).tree.node n).flags = flags := by
  have hnode : (s.setMount n flags driver).tree.node n =
      { s.tree.node n with flags, ptr := .dirents [] } := Function.update_self ..
  rw [hnode]

@[simp]
theorem setMount_driver : (s.setMount n flags driver).driver n = driver :=
  Function.update_self ..

@[simp]
theorem setMount_disk : (s.setMount n flags driver).disk = s.disk := rfl

/-- The other nodes stay. -/
theorem setMount_node_of_ne (h : m ≠ n) :
    (s.setMount n flags driver).tree.node m = s.tree.node m :=
  Function.update_of_ne h ..

theorem setMount_driver_of_ne (h : m ≠ n) :
    (s.setMount n flags driver).driver m = s.driver m :=
  Function.update_of_ne h ..

end SetMount

end MountState

/-! ### Mounting -/

/-- The device node that a mount is asked for: its `ioctl`s, its `ptr`, and whether the thread has
it open. -/
structure MountDevice (ν : Type) where
  node : ν
  ptr : Word
  isOpen : Bool

/-- The part of `fs_disk_mount_func` that mounts the file system; `kmalloc` returns `block`. -/
def fsDiskMountDevice (disk : FsState ν σ) (device : MountDevice ν) (block : Word) :
    FsState ν σ × Int :=
  if ¬ device.isOpen then (disk, -1)
  else fsMount D disk device.node (device.ptr.setWidth 32) block

/-- `fs_disk_mount_func` -/
def fsDiskMountFunc (n : Word) (device : MountDevice ν) (block : Word) : MountState ν σ × Int :=
  match fsDiskMountDevice D s.disk device block with
  | (disk, r) =>
    if r ≠ 0 then ({ s with disk }, -1)
    else
      ({ s with disk }.setMount n ((s.tree.node n).flags ||| (vfsMountpoint ||| vfsDirectory))
        .fsDisk, 0)

/-- `vfs_mount` of the one file system type that is registered. -/
def vfsMount (n : Word) (device : MountDevice ν) (block : Word) : MountState ν σ × Int :=
  if ¬ (s.tree.node n).has vfsDirectory then (s, -1)
  else if (s.tree.node n).has vfsMountpoint then (s, -1)
  else fsDiskMountFunc D s n device block

/-- `vfs_unmount` -/
def vfsUnmount (n : Word) : Outcome (MountState ν σ × Int) :=
  if ¬ (s.tree.node n).has vfsMountpoint then .ok (s, -1)
  else do
    let (disk, r) ← fsUnmount D s.disk
    if r ≠ 0 then .ok ({ s with disk }, -1)
    else
      .ok ({ s with disk }.setMount n ((s.tree.node n).flags &&& ~~~ vfsMountpoint) (s.driver n), 0)

end State

/-! ### Calls without mount points -/

section Plain

variable {ν σ : Type} {s : MountState ν σ}

/-- A name in a directory of KyroFS is looked up in KyroFS. -/
theorem finddir_of_kyrofs {n : Word} (h : s.driver n = .kyrofs) (block : Word) (name : CString) :
    s.finddir block (.dirent n) name = .ok ((vfsFinddir s.tree n name).map .dirent) := by
  rw [MountState.finddir, h]
  split_ifs with hdir
  · rfl
  · rw [vfsFinddir, if_neg fun hisDir => hdir hisDir.1]
    rfl

/-- Without mount points a path leads where it leads in KyroFS. -/
theorem resolve_of_kyrofs (h : ∀ n, s.driver n = .kyrofs) (root : Word) (path : CString)
    (block : Word) :
    s.resolve (.dirent root) path block = .ok ((s.tree.resolve root path).map .dirent) := by
  rw [MountState.resolve, Kyrofs.resolve, vfsResolvePath]
  generalize pathComponents path = names
  induction names generalizing root with
  | nil => rfl
  | cons name rest ih =>
    rw [MountState.walk, finddir_of_kyrofs (h root), List.foldlM_cons]
    cases vfsFinddir s.tree root name with
    | none => rfl
    | some m => exact ih m

end Plain

end KyroOS.Mount

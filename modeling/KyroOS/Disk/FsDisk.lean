import KyroOS.Disk.Layout

/-!
# The disk file system

`fs_disk` keeps the superblock and the file table of the one mounted file system in global
variables, and reads and writes blocks through the `ioctl` of the device node.

## Main definitions

* `Devices` — what the `ioctl` of a device node does with blocks
* `Cache`, `FsDisk`, `FsState` — the cached file table, the globals, and the devices beside them
* `fsFormat`, `fsMount`, `fsUnmount` — the calls for a whole file system
* `fsCreateFile`, `fsWriteFile`, `fsReadFile`, `fsDeleteFile` — those for a file
-/

namespace KyroOS.Disk

open Vfs (CString)

/-- The `ioctl`s of device nodes: a read gives the blocks it transfers, or fails, and a write of
one block may fail. -/
structure Devices (ν σ : Type) where
  read : ν → σ → BitVec 32 → BitVec 32 → Option (List Block)
  write : ν → σ → BitVec 32 → Block → σ × Bool

/-- `FS_MAX_FILES` -/
def fsMaxFiles : ℕ := 32

/-- The memory behind `file_table_cache`: its size in bytes, and the entries that were filled. -/
structure Cache where
  address : Word
  size : BitVec 32
  entries : List FileEntry

/-- The globals of `fs_disk.c`. -/
structure FsDisk (ν : Type) where
  mountedDiskNode : Option ν
  mountedPartitionLba : BitVec 32
  currentSuperblock : Superblock
  fileTableCache : Option Cache

/-- The globals and the devices. -/
structure FsState (ν σ : Type) where
  fs : FsDisk ν
  dev : σ

/-! ### Blocks -/

section Blocks

variable {ν σ : Type} (D : Devices ν σ) (s : FsState ν σ)

/-- `read_block` -/
def readBlock (lba : BitVec 32) : Option Block :=
  s.fs.mountedDiskNode.bind fun n =>
    (D.read n s.dev (s.fs.mountedPartitionLba + lba) 1).bind List.head?

/-- `write_block` -/
def writeBlock (lba : BitVec 32) (b : Block) : FsState ν σ × Bool :=
  match s.fs.mountedDiskNode with
  | none => (s, false)
  | some n =>
    let (dev, ok) := D.write n s.dev (s.fs.mountedPartitionLba + lba) b
    ({ s with dev }, ok)

/-- `update_superblock` -/
def updateSuperblock : FsState ν σ × Bool := writeBlock D s 0 s.fs.currentSuperblock.toBlock

end Blocks

/-! ### The file table -/

/-- `file_table_cache[i]`; it faults outside of the memory, and where that was never filled. -/
def Cache.get (c : Cache) (i : ℕ) : Outcome FileEntry :=
  if 512 * i < c.size.toNat then
    match c.entries[i]? with
    | some e => .ok e
    | none => .error .fault
  else .error .fault

/-- The first of the entries `i, …, i + n - 1` that meets the condition. -/
def findEntry (c : Cache) (p : FileEntry → Outcome Bool) : ℕ → ℕ → Outcome (Option ℕ)
  | 0, _ => .ok none
  | n + 1, i => do
    let e ← c.get i
    if ← p e then .ok (some i) else findEntry c p n (i + 1)

/-- `filename[0] == '\0'` -/
def FileEntry.isFree (e : FileEntry) : Bool := e.filename 0 = 0

/-- The entry is in use and has the name. -/
def FileEntry.isNamed (path : CString) (e : FileEntry) : Outcome Bool :=
  if e.isFree then .ok false else strcmpFilename e.filename path

/-- `find_free_file_entry` -/
def findFreeFileEntry : Option Cache → Outcome (Option ℕ)
  | none => .ok none
  | some c => findEntry c (fun e => .ok e.isFree) fsMaxFiles 0

/-- `find_file_entry` -/
def findFileEntry (path : CString) : Option Cache → Outcome (Option ℕ)
  | none => .ok none
  | some c => findEntry c (FileEntry.isNamed path) fsMaxFiles 0

section Table

variable {ν σ : Type} (D : Devices ν σ)

/-- The blocks `i, …, i + n - 1` of the file table are written. -/
def writeTable (c : Cache) : ℕ → ℕ → FsState ν σ → Outcome (FsState ν σ × Bool)
  | 0, _, s => .ok (s, true)
  | n + 1, i, s => do
    let e ← c.get i
    match writeBlock D s (s.fs.currentSuperblock.fileTableStartBlock + BitVec.ofNat 32 i)
        e.toBlock with
    | (s, true) => writeTable c n (i + 1) s
    | (s, false) => .ok (s, false)

/-- `update_file_table` -/
def updateFileTable (s : FsState ν σ) : Outcome (FsState ν σ × Bool) :=
  match s.fs.fileTableCache with
  | none => .ok (s, false)
  | some c => writeTable D c s.fs.currentSuperblock.fileTableNumBlocks.toNat 0 s

end Table

/-- `file_table_cache[i] = e` -/
def FsState.setEntry {ν σ : Type} (s : FsState ν σ) (i : ℕ) (e : FileEntry) : FsState ν σ :=
  { s with fs := { s.fs with
      fileTableCache := s.fs.fileTableCache.map fun c =>
        { c with entries := c.entries.set i e } } }

/-- `file_table_cache[i]`, in a state that has a cache. -/
def FsState.entry {ν σ : Type} (s : FsState ν σ) (i : ℕ) : Outcome FileEntry :=
  match s.fs.fileTableCache with
  | none => .error .fault
  | some c => c.get i

/-! ### Whole file systems -/

section Mount

variable {ν σ : Type} (D : Devices ν σ)

/-- The superblock of a new file system. -/
def newSuperblock (partitionSize : BitVec 32) : Superblock where
  signature := fsSignature
  version := 1
  totalBlocks := partitionSize
  freeBlocks := partitionSize - 33
  nextFreeBlock := 33
  fileTableStartBlock := 1
  fileTableNumBlocks := 32
  padding := fun _ => 0

/-- The blocks `i, …, i + n - 1` behind the superblock are zeroed. -/
def zeroTable (node : ν) (partitionLba : BitVec 32) : ℕ → ℕ → σ → σ × Int
  | 0, _, dev => (dev, 0)
  | n + 1, i, dev =>
    match D.write node dev (partitionLba + 1 + BitVec.ofNat 32 i) zeroBlock with
    | (dev, true) => zeroTable node partitionLba n (i + 1) dev
    | (dev, false) => (dev, -1)

/-- `fs_format` -/
def fsFormat (dev : σ) (node : ν) (partitionLba partitionSize : BitVec 32) : σ × Int :=
  match D.write node dev (partitionLba + 0) (newSuperblock partitionSize).toBlock with
  | (dev, false) => (dev, -1)
  | (dev, true) => zeroTable D node partitionLba 32 0 dev

/-- `fs_mount`, where `kmalloc` returns `block`. -/
def fsMount (s : FsState ν σ) (node : ν) (partitionLba : BitVec 32) (block : Word) :
    FsState ν σ × Int :=
  match D.read node s.dev (partitionLba + 0) 1 with
  | none => (s, -1)
  | some blocks =>
    let superblock := Superblock.ofBlock (blocks.headD zeroBlock)
    if superblock.signature ≠ fsSignature then (s, -1)
    else
      -- the old table is freed here, and the new one allocated
      let size := superblock.fileTableNumBlocks * 512
      let noCache : FsState ν σ := { s with fs := { s.fs with fileTableCache := none } }
      if block = 0 then (noCache, -1)
      else
        match D.read node s.dev (partitionLba + superblock.fileTableStartBlock)
            superblock.fileTableNumBlocks with
        | none => (noCache, -1)
        | some table =>
          ({ s with fs := ⟨some node, partitionLba, superblock,
              some ⟨block, size, table.map FileEntry.ofBlock⟩⟩ }, 0)

/-- `fs_unmount` -/
def fsUnmount (s : FsState ν σ) : Outcome (FsState ν σ × Int) :=
  match s.fs.mountedDiskNode with
  | none => .ok (s, 0)
  | some _ => do
    let (s, _) := updateSuperblock D s
    let (s, _) ← updateFileTable D s
    .ok ({ s with fs := { s.fs with
      mountedDiskNode := none, mountedPartitionLba := 0, fileTableCache := none } }, 0)

end Mount

/-! ### Files -/

section Files

variable {ν σ : Type} (D : Devices ν σ)

/-- `allocate_block` -/
def allocateBlock (s : FsState ν σ) : FsState ν σ × BitVec 32 :=
  let sb := s.fs.currentSuperblock
  if sb.freeBlocks = 0 then (s, 0)
  else
    let s : FsState ν σ := { s with fs := { s.fs with currentSuperblock := { sb with
      nextFreeBlock := sb.nextFreeBlock + 1, freeBlocks := sb.freeBlocks - 1 } } }
    ((updateSuperblock D s).1, sb.nextFreeBlock)

/-- `i * FS_BLOCK_SIZE` for a 32-bit `i`. -/
def blockOffset (i : ℕ) : ℕ := (BitVec.ofNat 32 i * 512).toNat

/-- The block of the data at an offset, padded with zeros. -/
def dataBlock (data : List Byte) (off : ℕ) : Block := fun j => data.getD (off + j) 0

/-- The data blocks `i, …, i + n - 1` are written from `first` on. -/
def writeData (first : BitVec 32) (data : List Byte) : ℕ → ℕ → FsState ν σ → FsState ν σ × Bool
  | 0, _, s => (s, true)
  | n + 1, i, s =>
    match writeBlock D s (first + BitVec.ofNat 32 i) (dataBlock data (blockOffset i)) with
    | (s, true) => writeData first data n (i + 1) s
    | (s, false) => (s, false)

/-- `(size + FS_BLOCK_SIZE - 1) / FS_BLOCK_SIZE` -/
def neededBlocks (size : Word) : BitVec 32 := ((size + 511) / 512).setWidth 32

/-- `fs_write_file` of `data`, whose length is the argument `size`. -/
def fsWriteFile (s : FsState ν σ) (path : CString) (data : List Byte) :
    Outcome (FsState ν σ × Int) := do
  match ← findFileEntry path s.fs.fileTableCache with
  | none => .ok (s, -1)
  | some idx =>
    let entry ← s.entry idx
    if entry.flags &&& fsFileFlagFile = 0 then .ok (s, -1)
    else
      let size := BitVec.ofNat 64 data.length
      let needed := neededBlocks size
      if s.fs.currentSuperblock.freeBlocks < needed then .ok (s, -1)
      else
        let (s, first) := allocateBlock D s
        let entry := { entry with startBlock := first }
        let s := s.setEntry idx entry
        match writeData D first data needed.toNat 0 s with
        | (s, false) => .ok (s, -1)
        | (s, true) =>
          let s := s.setEntry idx { entry with sizeBytes := size.setWidth 32 }
          let (s, _) ← updateFileTable D s
          .ok (s, (size.setWidth 32).toInt)

/-- The bytes of the blocks `i, …, i + n - 1` behind `first`, of which `left` are wanted. -/
def readData (s : FsState ν σ) (first : BitVec 32) : ℕ → ℕ → ℕ → Option (List Byte)
  | 0, _, _ => some []
  | n + 1, i, left => do
    let b ← readBlock D s (first + BitVec.ofNat 32 i)
    let rest ← readData s first n (i + 1) (left - 512)
    some ((List.ofFn b).take left ++ rest)

/-- `fs_read_file`: the result and the bytes copied to the buffer. -/
def fsReadFile (s : FsState ν σ) (path : CString) (size : Word) : Outcome (Int × List Byte) :=
  match s.fs.mountedDiskNode with
  | none => .ok (-1, [])
  | some _ => do
    match ← findFileEntry path s.fs.fileTableCache with
    | none => .ok (-1, [])
    | some idx =>
      let entry ← s.entry idx
      if entry.flags &&& fsFileFlagFile = 0 then .ok (-1, [])
      else
        let bytesToRead := min size.toNat entry.sizeBytes.toNat
        match readData D s entry.startBlock ((bytesToRead + 511) / 512) 0 bytesToRead with
        | none => .ok (-1, [])
        | some bytes => .ok ((BitVec.ofNat 32 bytesToRead).toInt, bytes)

/-- `fs_get_file_info` -/
def fsGetFileInfo (s : FsState ν σ) (path : CString) : Outcome (Option FileEntry) :=
  match s.fs.mountedDiskNode with
  | none => .ok none
  | some _ => do
    match ← findFileEntry path s.fs.fileTableCache with
    | none => .ok none
    | some idx => .ok (some (← s.entry idx))

/-- `fs_get_file_info_by_index` -/
def fsGetFileInfoByIndex (s : FsState ν σ) (index : Int) : Outcome (Option FileEntry) :=
  match s.fs.mountedDiskNode, s.fs.fileTableCache with
  | some _, some c =>
    if index < 0 ∨ (fsMaxFiles : Int) ≤ index then .ok none
    else do
      let e ← c.get index.toNat
      .ok (if e.isFree then none else some e)
  | _, _ => .ok none

/-- `fs_create_file` -/
def fsCreateFile (s : FsState ν σ) (path : CString) (flags : BitVec 32) :
    Outcome (FsState ν σ × Int) :=
  match s.fs.mountedDiskNode with
  | none => .ok (s, -1)
  | some _ => do
    if (← findFileEntry path s.fs.fileTableCache).isSome then .ok (s, -1)
    else
      match ← findFreeFileEntry s.fs.fileTableCache with
      | none => .ok (s, -1)
      | some idx =>
        let s := s.setEntry idx { FileEntry.zero with filename := copyFilename path, flags }
        let (s, _) ← updateFileTable D s
        .ok (s, 0)

/-- `fs_delete_file` -/
def fsDeleteFile (s : FsState ν σ) (path : CString) : Outcome (FsState ν σ × Int) :=
  match s.fs.mountedDiskNode with
  | none => .ok (s, -1)
  | some _ => do
    match ← findFileEntry path s.fs.fileTableCache with
    | none => .ok (s, -1)
    | some idx =>
      let s := s.setEntry idx FileEntry.zero
      let (s, _) ← updateFileTable D s
      .ok (s, 0)

end Files

end KyroOS.Disk

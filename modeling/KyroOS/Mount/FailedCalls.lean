import KyroOS.Disk.BlockDevice
import KyroOS.Mount.ReadToEnd

/-!
# Reads and writes that fail

Every file system reports an error by a 32-bit -1. `sys_read` and `sys_write` compare it with -1
after it was widened to 64 bits without its sign, and take it for the number of bytes moved.

## Main definitions

* `Backend` — what is behind an open file
* `KeepsOffset` — an error is passed on, and the offset stays

## Main results

* `keepsOffset_iff` — a call keeps its offset exactly when there is no error to pass on
* `not_keepsOffset` — a read of a file on a disk from its second byte on
-/

namespace KyroOS.Mount

open Vfs Disk

/-- What is behind an open file: a node of KyroFS, a file of `fs_disk`, or a node of an IDE disk
or of one of its partitions. It comes with what a call finds: a key that is pressed, or whether
`kmalloc` has a block and what follows the block in memory. -/
inductive Backend (ν σ τ : Type)
  | kyrofs (fs : Kyrofs) (n : Word) (key : Byte)
  | fsDisk (disk : FsState ν σ) (node : FileNode)
  | block (controller : Controller τ) (dev : τ) (node : BlockNode) (kmalloc : Bool)
    (behind : ℕ → Byte)

/-- The bytes of a buffer as blocks. -/
def blocksOf (buffer : ℕ → Byte) (k : ℕ) : Block := fun i => buffer (512 * k + i)

namespace Backend

variable {ν σ τ : Type} (D : Devices ν σ) (backend : Backend ν σ τ)

/-- `vfs_read` -/
def read (offset : Word) (size : BitVec 32) : Outcome (BitVec 32 × List Byte) :=
  match backend with
  | kyrofs fs n key => vfsRead fs n key offset size
  | fsDisk disk node => fsDiskVfsRead D disk node offset size
  | block controller dev node kmalloc behind =>
    let t := node.read controller dev offset size kmalloc behind
    .ok (t.value, t.bytes)

/-- The result of `vfs_write` of the bytes at `buffer`. -/
def write (buffer : ℕ → Byte) (room : Option (ℕ → Byte)) (offset : Word) (size : BitVec 32) :
    Outcome (BitVec 32) :=
  match backend with
  | kyrofs fs n _ =>
    (vfsWrite fs n offset ((List.range size.toNat).map buffer) room).map Prod.snd
  | fsDisk disk node =>
    (fsDiskVfsWrite D disk node offset ((List.range size.toNat).map buffer)).map Prod.snd
  | block controller dev node _ _ =>
    .ok (node.write controller dev offset size (blocksOf buffer)).value

end Backend

/-- An error in the result `res` of a backend is passed on as a 64-bit -1, and the offset of the
descriptor stays. -/
def KeepsOffset (res : BitVec 32) (entry entry' : FdEntry) (rax : Word) : Prop :=
  res = minusOne32 → rax = minusOne ∧ entry'.offset = entry.offset

section Calls

variable {ν σ τ : Type} {D : Devices ν σ} {entry entry' : FdEntry} {res : BitVec 32}

/-- A result that is widened without its sign is not -1. -/
theorem setWidth_ne_minusOne (res : BitVec 32) : res.setWidth 64 ≠ minusOne := by
  intro heq
  have hnat := congrArg BitVec.toNat heq
  have hlt := res.isLt
  have hone : minusOne.toNat = 2 ^ 64 - 1 := rfl
  rw [BitVec.toNat_setWidth, Nat.mod_eq_of_lt (by omega)] at hnat
  omega

/-- An error is not passed on. -/
theorem keepsOffset_setWidth_iff :
    KeepsOffset res entry entry' (res.setWidth 64) ↔ res ≠ minusOne32 :=
  ⟨fun hkeeps herror => setWidth_ne_minusOne res (hkeeps herror).1,
    fun hne herror => absurd herror hne⟩

theorem sysReadFile_eq {read : Word → BitVec 32 → Outcome (BitVec 32 × List Byte)} {size : Word}
    {bytes : List Byte} (hread : read entry.offset (size.setWidth 32) = .ok (res, bytes)) :
    sysReadFile read entry size =
      .ok ({ entry with offset := entry.offset + res.setWidth 64 }, res.setWidth 64, bytes) := by
  rw [sysReadFile, hread]
  show Except.ok (if _ then _ else _, _, _) = _
  rw [if_pos (setWidth_ne_minusOne res)]

theorem sysWriteFile_eq {write : Word → BitVec 32 → Outcome (BitVec 32)} {length : BitVec 32}
    {size offset : Word}
    (hoffset : offset =
      if entry.flags &&& oAppend ≠ 0 then length.setWidth 64 else entry.offset)
    (hwrite : write offset (size.setWidth 32) = .ok res) :
    sysWriteFile write length entry size =
      .ok ({ entry with offset := offset + res.setWidth 64 }, res.setWidth 64) := by
  rw [sysWriteFile]
  dsimp only
  rw [← hoffset, hwrite]
  show Except.ok (if _ then _ else _, _) = _
  rw [if_pos (setWidth_ne_minusOne res)]

/-- A read or a write of any backend comes back when the backend does, and keeps its offset exactly
when the backend reports no error. -/
theorem keepsOffset_iff (backend : Backend ν σ τ) (entry : FdEntry) (size : Word) :
    (∀ res bytes, backend.read D entry.offset (size.setWidth 32) = .ok (res, bytes) →
      ∃ entry' rax, sysReadFile (backend.read D) entry size = .ok (entry', rax, bytes) ∧
        (KeepsOffset res entry entry' rax ↔ res ≠ minusOne32)) ∧
    ∀ length buffer room offset res,
      offset = (if entry.flags &&& oAppend ≠ 0 then length.setWidth 64 else entry.offset) →
      backend.write D buffer room offset (size.setWidth 32) = .ok res →
      ∃ entry' rax, sysWriteFile (backend.write D buffer room) length entry size =
          .ok (entry', rax) ∧
        (KeepsOffset res entry entry' rax ↔ res ≠ minusOne32) := by
  constructor
  · intro res bytes hread
    exact ⟨_, _, sysReadFile_eq hread, keepsOffset_setWidth_iff⟩
  · intro length buffer room offset res hoffset hwrite
    exact ⟨_, _, sysWriteFile_eq hoffset hwrite, keepsOffset_setWidth_iff⟩

end Calls

/-! ### A file on a disk -/

section Small

/-- A file of two bytes on the disk in memory. -/
def shortFile : Backend Unit (BitVec 32 → Block) Unit := .fsDisk shortDisk ⟨[0x61], vfsFile, 2⟩

/-- A directory of KyroFS has nothing to read, and no error. -/
theorem keepsOffset_root : ∃ entry' rax bytes,
    sysReadFile ((Backend.kyrofs (bareRoot 0x1000) 0x1000 0 :
      Backend Unit (BitVec 32 → Block) Unit).read imageDevices) ⟨0x1000, 0, 0⟩ 1 =
        .ok (entry', rax, bytes) ∧ KeepsOffset 0 ⟨0x1000, 0, 0⟩ entry' rax := by
  obtain ⟨entry', rax, hok, hiff⟩ := (keepsOffset_iff (D := imageDevices)
    (Backend.kyrofs (bareRoot 0x1000) 0x1000 0 : Backend Unit (BitVec 32 → Block) Unit)
    ⟨0x1000, 0, 0⟩ 1).1 0 [] rfl
  exact ⟨entry', rax, [], hok, hiff.mpr (by decide)⟩

/-- From offset 1 on, a read of the file fails, and moves the offset. -/
theorem not_keepsOffset : ¬ ∀ (backend : Backend Unit (BitVec 32 → Block) Unit) (entry : FdEntry)
    (size : Word) res bytes entry' rax,
    backend.read imageDevices entry.offset (size.setWidth 32) = .ok (res, bytes) →
      sysReadFile (backend.read imageDevices) entry size = .ok (entry', rax, bytes) →
        KeepsOffset res entry entry' rax := by
  intro hall
  have hread : shortFile.read imageDevices 1 1 = .ok (minusOne32, []) := rfl
  obtain ⟨entry', rax, hok, hiff⟩ :=
    (keepsOffset_iff (D := imageDevices) shortFile ⟨0x1000, 1, 0⟩ 1).1 _ _ hread
  exact hiff.mp (hall shortFile ⟨0x1000, 1, 0⟩ 1 _ _ _ _ hread hok) rfl

end Small

end KyroOS.Mount

import KyroOS.Vfs.Path
import Mathlib.Tactic.IntervalCases

/-!
# The layout of a disk

The superblock and the file entries are packed structures of one block each, with 32-bit fields
in little-endian order.

## Main definitions

* `Block` — the bytes of a block
* `Superblock`, `FileEntry` — the structures on the disk
* `strcmpFilename` — the comparison of a file name with a path

## Main results

* `Superblock.toBlock_ofBlock`, `FileEntry.toBlock_ofBlock` — a block is read and written as it is
* `Superblock.ofBlock_toBlock`, `FileEntry.ofBlock_toBlock` — what is written is read back
-/

namespace KyroOS.Disk

open Vfs (CString)

/-- A block of `FS_BLOCK_SIZE` bytes. -/
abbrev Block := Fin 512 → Byte

def zeroBlock : Block := fun _ => 0

/-! ### 32-bit fields -/

def byteOf (v : BitVec 32) (k : ℕ) : Byte := v.extractLsb' (8 * k) 8

def le32 (b₀ b₁ b₂ b₃ : Byte) : BitVec 32 := b₃ ++ b₂ ++ b₁ ++ b₀

theorem le32_byteOf (v : BitVec 32) :
    le32 (byteOf v 0) (byteOf v 1) (byteOf v 2) (byteOf v 3) = v := by
  apply BitVec.eq_of_getLsbD_eq
  intro i hi
  simp only [le32, byteOf, BitVec.getLsbD_append, BitVec.getLsbD_extractLsb']
  by_cases h₀ : i < 8
  · simp [h₀]
  · by_cases h₁ : i - 8 < 8
    · simp [h₀, h₁, show 8 + (i - 8) = i by omega]
    · by_cases h₂ : i - 8 - 8 < 8
      · simp [h₀, h₁, h₂, show 16 + (i - 8 - 8) = i by omega]
      · simp [h₀, h₁, h₂, show i - 8 - 8 - 8 < 8 by omega,
          show 24 + (i - 8 - 8 - 8) = i by omega]

theorem byteOf_le32 {b₀ b₁ b₂ b₃ : Byte} {k : ℕ} (hk : k < 4) :
    byteOf (le32 b₀ b₁ b₂ b₃) k =
      if k = 0 then b₀ else if k = 1 then b₁ else if k = 2 then b₂ else b₃ := by
  apply BitVec.eq_of_getLsbD_eq
  intro i hi
  rw [byteOf, BitVec.getLsbD_extractLsb', decide_eq_true hi, Bool.true_and, le32]
  simp only [BitVec.getLsbD_append]
  interval_cases k <;> split_ifs <;> first | contradiction | omega | exact congrArg _ (by omega)

/-- A byte of a block, by its offset. -/
def byteAt (b : Block) (i : ℕ) : Byte := if h : i < 512 then b ⟨i, h⟩ else 0

/-- The field at an offset. -/
def get32 (b : Block) (off : ℕ) : BitVec 32 :=
  le32 (byteAt b off) (byteAt b (off + 1)) (byteAt b (off + 2)) (byteAt b (off + 3))

theorem byteOf_get32 {b : Block} {off k : ℕ} (hk : k < 4) :
    byteOf (get32 b off) k = byteAt b (off + k) := by
  rw [get32, byteOf_le32 hk]
  interval_cases k <;> rfl

/-! ### The superblock -/

/-- `FS_SIGNATURE` -/
def fsSignature : BitVec 32 := 0x4B59524F

/-- `fs_superblock_t` -/
@[ext]
structure Superblock where
  signature : BitVec 32
  version : BitVec 32
  totalBlocks : BitVec 32
  freeBlocks : BitVec 32
  nextFreeBlock : BitVec 32
  fileTableStartBlock : BitVec 32
  fileTableNumBlocks : BitVec 32
  padding : Fin 484 → Byte

namespace Superblock

/-- The fields in their order. -/
def field (s : Superblock) : ℕ → BitVec 32
  | 0 => s.signature
  | 1 => s.version
  | 2 => s.totalBlocks
  | 3 => s.freeBlocks
  | 4 => s.nextFreeBlock
  | 5 => s.fileTableStartBlock
  | _ => s.fileTableNumBlocks

/-- The bytes of the superblock. -/
def toBlock (s : Superblock) : Block := fun i =>
  if h : (i : ℕ) < 28 then byteOf (s.field (i / 4)) (i % 4)
  else s.padding ⟨i - 28, by omega⟩

/-- A block taken for a superblock. -/
def ofBlock (b : Block) : Superblock where
  signature := get32 b 0
  version := get32 b 4
  totalBlocks := get32 b 8
  freeBlocks := get32 b 12
  nextFreeBlock := get32 b 16
  fileTableStartBlock := get32 b 20
  fileTableNumBlocks := get32 b 24
  padding := fun i => b ⟨i + 28, by omega⟩

theorem field_ofBlock {b : Block} {k : ℕ} (hk : k < 7) :
    (ofBlock b).field k = get32 b (4 * k) := by
  interval_cases k <;> rfl

@[simp]
theorem toBlock_ofBlock (b : Block) : (ofBlock b).toBlock = b := by
  funext i
  rw [toBlock]
  split_ifs with hi
  · rw [field_ofBlock (by omega), byteOf_get32 (by omega), byteAt, dif_pos (by omega)]
    exact congrArg b (Fin.ext (by show 4 * ((i : ℕ) / 4) + (i : ℕ) % 4 = i; omega))
  · exact congrArg b (Fin.ext (by show (i : ℕ) - 28 + 28 = i; omega))

theorem get32_toBlock {s : Superblock} {k : ℕ} (hk : k < 7) :
    get32 s.toBlock (4 * k) = s.field k := by
  have hbyte : ∀ j < 4, byteAt s.toBlock (4 * k + j) = byteOf (s.field k) j := by
    intro j hj
    rw [byteAt, dif_pos (by omega), toBlock, dif_pos (by show 4 * k + j < 28; omega)]
    show byteOf (s.field ((4 * k + j) / 4)) ((4 * k + j) % 4) = _
    rw [show (4 * k + j) / 4 = k by omega, show (4 * k + j) % 4 = j by omega]
  have h₀ := hbyte 0 (by omega)
  rw [Nat.add_zero] at h₀
  rw [get32, h₀, hbyte 1 (by omega), hbyte 2 (by omega), hbyte 3 (by omega), le32_byteOf]

@[simp]
theorem ofBlock_toBlock (s : Superblock) : ofBlock s.toBlock = s := by
  have hfield : ∀ k, k < 7 → get32 s.toBlock (4 * k) = s.field k := fun k hk => get32_toBlock hk
  ext1
  · exact hfield 0 (by omega)
  · exact hfield 1 (by omega)
  · exact hfield 2 (by omega)
  · exact hfield 3 (by omega)
  · exact hfield 4 (by omega)
  · exact hfield 5 (by omega)
  · exact hfield 6 (by omega)
  · funext i
    show s.toBlock ⟨i + 28, _⟩ = s.padding i
    rw [toBlock, dif_neg (by show ¬ ((i : ℕ) + 28 < 28); omega)]
    rfl

end Superblock

/-! ### File entries -/

def fsFileFlagFile : BitVec 32 := 0x01
def fsFileFlagDirectory : BitVec 32 := 0x02

/-- `fs_file_entry_t` -/
@[ext]
structure FileEntry where
  filename : Fin 60 → Byte
  startBlock : BitVec 32
  sizeBytes : BitVec 32
  flags : BitVec 32
  padding : Fin 440 → Byte

namespace FileEntry

/-- The fields behind the name in their order. -/
def field (e : FileEntry) : ℕ → BitVec 32
  | 0 => e.startBlock
  | 1 => e.sizeBytes
  | _ => e.flags

/-- The bytes of the entry. -/
def toBlock (e : FileEntry) : Block := fun i =>
  if h : (i : ℕ) < 60 then e.filename ⟨i, h⟩
  else if h : (i : ℕ) < 72 then byteOf (e.field ((i - 60) / 4)) ((i - 60) % 4)
  else e.padding ⟨i - 72, by omega⟩

/-- A block taken for an entry. -/
def ofBlock (b : Block) : FileEntry where
  filename := fun i => b ⟨i, by omega⟩
  startBlock := get32 b 60
  sizeBytes := get32 b 64
  flags := get32 b 68
  padding := fun i => b ⟨i + 72, by omega⟩

/-- `memset(entry, 0, sizeof(fs_file_entry_t))` -/
def zero : FileEntry := ⟨fun _ => 0, 0, 0, 0, fun _ => 0⟩

theorem field_ofBlock {b : Block} {k : ℕ} (hk : k < 3) :
    (ofBlock b).field k = get32 b (60 + 4 * k) := by
  interval_cases k <;> rfl

@[simp]
theorem toBlock_ofBlock (b : Block) : (ofBlock b).toBlock = b := by
  funext i
  rw [toBlock]
  split_ifs with hname hfield
  · rfl
  · rw [field_ofBlock (by omega), byteOf_get32 (by omega), byteAt, dif_pos (by omega)]
    refine congrArg b (Fin.ext ?_)
    show 60 + 4 * (((i : ℕ) - 60) / 4) + ((i : ℕ) - 60) % 4 = i
    omega
  · exact congrArg b (Fin.ext (by show (i : ℕ) - 72 + 72 = i; omega))

theorem get32_toBlock {e : FileEntry} {k : ℕ} (hk : k < 3) :
    get32 e.toBlock (60 + 4 * k) = e.field k := by
  have hbyte : ∀ j < 4, byteAt e.toBlock (60 + 4 * k + j) = byteOf (e.field k) j := by
    intro j hj
    rw [byteAt, dif_pos (by omega), toBlock, dif_neg (by show ¬ (60 + 4 * k + j < 60); omega),
      dif_pos (by show 60 + 4 * k + j < 72; omega)]
    show byteOf (e.field ((60 + 4 * k + j - 60) / 4)) ((60 + 4 * k + j - 60) % 4) = _
    rw [show (60 + 4 * k + j - 60) / 4 = k by omega, show (60 + 4 * k + j - 60) % 4 = j by omega]
  have h₀ := hbyte 0 (by omega)
  rw [Nat.add_zero] at h₀
  rw [get32, h₀, hbyte 1 (by omega), hbyte 2 (by omega), hbyte 3 (by omega), le32_byteOf]

@[simp]
theorem ofBlock_toBlock (e : FileEntry) : ofBlock e.toBlock = e := by
  have hfield : ∀ k, k < 3 → get32 e.toBlock (60 + 4 * k) = e.field k :=
    fun k hk => get32_toBlock hk
  ext1
  · funext i
    show e.toBlock ⟨i, _⟩ = e.filename i
    rw [toBlock, dif_pos (by show (i : ℕ) < 60; omega)]
  · exact hfield 0 (by omega)
  · exact hfield 1 (by omega)
  · exact hfield 2 (by omega)
  · funext i
    show e.toBlock ⟨i + 72, _⟩ = e.padding i
    rw [toBlock, dif_neg (by show ¬ ((i : ℕ) + 72 < 60); omega),
      dif_neg (by show ¬ ((i : ℕ) + 72 < 72); omega)]
    rfl

/-- A zeroed block is a zeroed entry. -/
theorem ofBlock_zeroBlock : ofBlock zeroBlock = zero := by
  have hzero : zeroBlock = zero.toBlock := by
    funext i
    rw [toBlock]
    split_ifs
    · rfl
    · unfold field zero
      split <;> simp [byteOf, zeroBlock]
    · rfl
  rw [hzero, ofBlock_toBlock]

end FileEntry

/-! ### File names -/

/-- The character of a path that `strcmp` sees at an index: the NUL behind the last one. -/
def charAt (path : CString) (i : ℕ) : Byte := path.getD i 0

/-- `strcmp(filename, path) == 0` from the index `60 - n` on; it faults where it leaves the field
of the name. -/
def strcmpFrom (filename : Fin 60 → Byte) (path : CString) : ℕ → Outcome Bool
  | 0 => .error .fault
  | n + 1 =>
    let i := 59 - n
    let c : Byte := if h : i < 60 then filename ⟨i, h⟩ else 0
    if c ≠ 0 ∧ c = charAt path i then strcmpFrom filename path n
    else .ok (c = charAt path i)

/-- `strcmp(filename, path) == 0` -/
def strcmpFilename (filename : Fin 60 → Byte) (path : CString) : Outcome Bool :=
  strcmpFrom filename path 60

/-- `strncpy` of a path to a name, which leaves room for the NUL. -/
def copyFilename (path : CString) : Fin 60 → Byte :=
  fun i => if (i : ℕ) < 59 then charAt path i else 0

end KyroOS.Disk

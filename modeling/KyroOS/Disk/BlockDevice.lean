import KyroOS.Disk.Partition
import KyroOS.Vfs.Kyrofs

/-!
# The block devices as files

The functions of the driver return 0 or -1, and they are the `read` and the `write` of the nodes,
whose callers expect a count of bytes. One of these callers is the driver itself, when it reads the
partition table.

## Main definitions

* `ideReadWrapper`, `ideWriteWrapper` — reads and writes of the whole disk
* `ideInitPartitions` — the nodes for the partitions
* `BlockCall` — a read, a write, an `ioctl` or the start of the partitions
* `BlockCall.Contract` — what a caller expects of it

## Main results

* `ideInitPartitions_eq` — no partition gets a node
* `contract_iff` — the calls that do what is expected
-/

namespace KyroOS.Disk

open Vfs

/-! ### The functions of the nodes -/

/-- The value of a call of the driver. -/
def Transfer.value {σ : Type} (t : Transfer σ) : BitVec 32 := if t.result.isSome then 0 else -1

/-- A read of bytes: its value, what is in the buffer of the caller, and the drive. -/
structure ByteTransfer (σ : Type) where
  value : BitVec 32
  bytes : List Byte
  dev : σ

/-- The bytes of blocks. -/
def blockBytes (blocks : List Block) : List Byte := blocks.flatMap List.ofFn

section

variable {σ : Type} (C : Controller σ) (dev : σ) (drive : BitVec 8) (offset : Word)
  (size : BitVec 32)

/-- `num_sectors` of the wrappers -/
def wrapperSectors : BitVec 8 := ((size + 511) / 512).setWidth 8

/-- `lba` of the wrappers -/
def wrapperLba : BitVec 32 := (offset / 512).setWidth 32

/-- `ide_read_wrapper`. A size that is no multiple of 512 needs a block from `kmalloc`; `behind` is
what follows that block in memory. -/
def ideReadWrapper (kmalloc : Bool) (behind : ℕ → Byte) : ByteTransfer σ :=
  if size % 512 ≠ 0 ∧ kmalloc = false then ⟨-1, [], dev⟩
  else
    let t := C.readSectors dev drive (wrapperLba offset) (wrapperSectors size)
    match t.result with
    | none => ⟨-1, [], t.dev⟩
    | some blocks =>
      let temp := blockBytes blocks
      let bytes :=
        if size % 512 ≠ 0 then (List.range size.toNat).map fun i => temp.getD i (behind i) else temp
      ⟨0, bytes, t.dev⟩

/-- `ide_write_wrapper` -/
def ideWriteWrapper (buffer : ℕ → Block) : Transfer σ :=
  if size % 512 ≠ 0 then .refused dev
  else C.writeSectors dev drive (wrapperLba offset) (wrapperSectors size) buffer

end

/-! ### The partition table -/

/-- `MBR_PartitionEntry`, as far as it is read. -/
structure MbrEntry where
  type : Byte
  lbaFirstSector : BitVec 32
  sectorCount : BitVec 32

/-- `boot_signature` -/
def bootSignature (mbr : Block) : BitVec 16 := byteAt mbr 511 ++ byteAt mbr 510

/-- `partitions[i]` -/
def mbrEntry (mbr : Block) (i : Fin 4) : MbrEntry :=
  ⟨byteAt mbr (446 + 16 * i + 4), get32 mbr (446 + 16 * i + 8), get32 mbr (446 + 16 * i + 12)⟩

/-- The entry is skipped. -/
def MbrEntry.IsEmpty (e : MbrEntry) : Prop := e.type = 0 ∨ e.sectorCount = 0

instance (e : MbrEntry) : Decidable e.IsEmpty := inferInstanceAs (Decidable (_ ∨ _))

/-- The file system, and the nodes that have the operations of a partition. -/
structure DeviceTree where
  fs : Kyrofs
  partition : Word → Option IdePartition

/-- The name of a partition. -/
def partitionName (num : ℕ) : CString := cstring ['s', 'd', 'a', Char.ofNat (48 + num)]

def devName : CString := cstring ['d', 'e', 'v']

/-- `ide_create_partition_node`. `kmalloc` gives the address of the data of the partition. -/
def ideCreatePartitionNode (t : DeviceTree) (devDir : Word) (num : ℕ) (lbaStart size : BitVec 32)
    (driveId : BitVec 8) (new : NewNode) (kmalloc : Word) : Outcome DeviceTree := do
  let (fs, res) ← kyrofsCreateNode t.fs new devDir (partitionName num) (vfsFile ||| vfsChardevice)
  if res ≠ 0 then .ok { t with fs }
  else
    match vfsFinddir fs devDir (partitionName num) with
    | none => .ok { t with fs }
    | some n =>
      if kmalloc = 0 then .ok { t with fs }
      else
        .ok {
          fs := fs.setNode n { fs.node n with flags := (fs.node n).flags ||| vfsChardevice }
          partition := Function.update t.partition n
            (some ⟨⟨kmalloc, lbaStart, size⟩, driveId⟩) }

/-- `ide_init_partitions`, with what `kmalloc` and `kyrofs_create_node` get. -/
def ideInitPartitions {σ : Type} (C : Controller σ) (dev : σ) (t : DeviceTree)
    (driveId : BitVec 8) (kmalloc : Bool) (new : Fin 4 → NewNode) (data : Fin 4 → Word) :
    Outcome DeviceTree :=
  if kmalloc = false then .ok t
  else
    let mbr := ideReadWrapper C dev driveId 0 512 true fun _ => 0
    if mbr.value ≠ 512 then .ok t
    else
      let mbr : Block := fun i => mbr.bytes.getD i 0
      if bootSignature mbr ≠ 0xAA55 then .ok t
      else
        match vfsFinddir t.fs t.fs.root devName with
        | none => .ok t
        | some devDir =>
          (List.finRange 4).foldlM (fun t i =>
            let part := mbrEntry mbr i
            if part.IsEmpty then .ok t
            else
              ideCreatePartitionNode t devDir (i + 1) part.lbaFirstSector part.sectorCount driveId
                (new i) (data i)) t

section

variable {σ : Type} {C : Controller σ} {dev : σ} {drive : BitVec 8} {offset : Word}
  {size : BitVec 32} {kmalloc : Bool} {behind : ℕ → Byte}

theorem value_ideReadWrapper :
    (ideReadWrapper C dev drive offset size kmalloc behind).value = 0 ∨
      (ideReadWrapper C dev drive offset size kmalloc behind).value = -1 := by
  unfold ideReadWrapper
  split
  · exact .inr rfl
  · dsimp only
    split
    · exact .inr rfl
    · exact .inl rfl

theorem value_transfer (t : Transfer σ) : t.value = 0 ∨ t.value = -1 := by
  unfold Transfer.value
  split
  · exact .inl rfl
  · exact .inr rfl

/-- The driver does not take its own 0 for a success. -/
theorem ideInitPartitions_eq {t : DeviceTree} {new : Fin 4 → NewNode} {data : Fin 4 → Word} :
    ideInitPartitions C dev t drive kmalloc new data = .ok t := by
  have hvalue := @value_ideReadWrapper σ C dev drive 0 512 true fun _ => 0
  have hne : (ideReadWrapper C dev drive 0 512 true fun _ => 0).value ≠ 512 := by
    obtain hzero | hminus := hvalue
    · rw [hzero]
      decide
    · rw [hminus]
      decide
  unfold ideInitPartitions
  split
  · rfl
  · exact if_pos hne

end

/-! ### The nodes -/

/-- A block device: the whole disk with the drive in its `ptr`, or a partition. -/
inductive BlockNode
  | disk (drive : BitVec 8)
  | partition (part : IdePartition)

namespace BlockNode

/-- The first sector of the device. -/
def start : BlockNode → ℕ
  | disk _ => 0
  | partition part => part.partitionLbaStart.toNat

section

variable {σ : Type} (C : Controller σ) (dev : σ) (offset : Word) (size lba count : BitVec 32)
  (kmalloc : Bool) (behind : ℕ → Byte) (buffer : ℕ → Block)

/-- `node->read` -/
def read : BlockNode → ByteTransfer σ
  | disk drive => ideReadWrapper C dev drive offset size kmalloc behind
  | partition part =>
    let t := idePartitionReadSectors C dev part offset size
    ⟨t.value, blockBytes (t.result.getD []), t.dev⟩

/-- `node->write` -/
def write : BlockNode → Transfer σ
  | disk drive => ideWriteWrapper C dev drive offset size buffer
  | partition part => idePartitionWriteSectors C dev part offset size buffer

/-- `IDE_IOCTL_READ_BLOCKS`. The whole disk is always drive 0. -/
def readBlocks : BlockNode → Transfer σ
  | disk _ => C.readSectors dev 0 lba (count.setWidth 8)
  | partition part => idePartitionReadBlocks C dev part lba count

/-- `IDE_IOCTL_WRITE_BLOCKS` -/
def writeBlocks : BlockNode → Transfer σ
  | disk _ => C.writeSectors dev 0 lba (count.setWidth 8) buffer
  | partition part => idePartitionWriteBlocks C dev part lba count buffer

end

section

variable (present : Bool) (offset : Word) (size lba count : BitVec 32) (kmalloc : Bool)
  (buffer : ℕ → Block)

/-- A read fails. -/
def FailsRead : BlockNode → Prop
  | disk drive => (drive ≠ 0 ∨ present = false) ∨ (size % 512 ≠ 0 ∧ kmalloc = false)
  | partition part =>
    (part.driveId ≠ 0 ∨ present = false) ∨ (Request.read offset size).Refused part

/-- A write fails. -/
def FailsWrite : BlockNode → Prop
  | disk drive => (drive ≠ 0 ∨ present = false) ∨ size % 512 ≠ 0
  | partition part =>
    (part.driveId ≠ 0 ∨ present = false) ∨ (Request.write offset size buffer).Refused part

/-- An `ioctl` fails. -/
def FailsBlocks : BlockNode → Prop
  | disk _ => present = false
  | partition part => (part.driveId ≠ 0 ∨ present = false) ∨ part.partitionSize < lba + count

end

end BlockNode

section

variable {present : Bool} {d : ℕ → Block} {lba count size : BitVec 32} {buffer : ℕ → Block}
  {offset : Word} {kmalloc : Bool} {behind : ℕ → Byte} {node : BlockNode}

theorem value_eq_neg_one {t : Transfer (ℕ → Block)} : t.value = -1 ↔ t.result = none := by
  have hne : (0 : BitVec 32) ≠ -1 := by decide
  unfold Transfer.value
  cases t.result with
  | none => exact iff_of_true rfl rfl
  | some blocks => exact iff_of_false hne (Option.some_ne_none _)

/-- The reads that fail. -/
theorem value_read_eq_neg_one :
    (node.read (masterDrive present) d offset size kmalloc behind).value = -1 ↔
      node.FailsRead present offset size kmalloc := by
  have hne : (0 : BitVec 32) ≠ -1 := by decide
  cases node with
  | disk drive =>
    simp only [BlockNode.read, BlockNode.FailsRead, ideReadWrapper]
    by_cases hblock : size % 512 ≠ 0 ∧ kmalloc = false
    · rw [if_pos hblock]
      exact iff_of_true rfl (.inr hblock)
    · rw [if_neg hblock, result_readSectors, or_iff_left hblock]
      by_cases hdrive : drive ≠ 0 ∨ present = false
      · rw [if_pos hdrive]
        exact iff_of_true rfl hdrive
      · rw [if_neg hdrive]
        exact iff_of_false hne hdrive
  | partition part =>
    exact value_eq_neg_one.trans (@result_run_eq_none _ _ part (.read offset size))

/-- The writes that fail. -/
theorem result_write_eq_none :
    (node.write (masterDrive present) d offset size buffer).result = none ↔
      node.FailsWrite present offset size buffer := by
  cases node with
  | disk drive =>
    simp only [BlockNode.write, BlockNode.FailsWrite, ideWriteWrapper]
    by_cases hsize : size % 512 ≠ 0
    · rw [if_pos hsize]
      exact iff_of_true rfl (.inr hsize)
    · rw [if_neg hsize, result_writeSectors, or_iff_left hsize]
      by_cases hdrive : drive ≠ 0 ∨ present = false
      · rw [if_pos hdrive]
        exact iff_of_true rfl hdrive
      · rw [if_neg hdrive]
        exact iff_of_false (Option.some_ne_none _) hdrive
  | partition part => exact @result_run_eq_none _ _ part (.write offset size buffer)

/-- The `ioctl`s that fail. -/
theorem result_readBlocks_eq_none :
    (node.readBlocks (masterDrive present) d lba count).result = none ↔
      node.FailsBlocks present lba count := by
  cases node with
  | disk drive =>
    simp only [BlockNode.readBlocks, BlockNode.FailsBlocks, result_readSectors, ne_eq,
      not_true_eq_false, false_or]
    cases present <;> simp
  | partition part => exact @result_run_eq_none _ _ part (.readBlocks lba count)

theorem result_writeBlocks_eq_none :
    (node.writeBlocks (masterDrive present) d lba count buffer).result = none ↔
      node.FailsBlocks present lba count := by
  cases node with
  | disk drive =>
    simp only [BlockNode.writeBlocks, BlockNode.FailsBlocks, result_writeSectors, ne_eq,
      not_true_eq_false, false_or]
    cases present <;> simp
  | partition part => exact @result_run_eq_none _ _ part (.writeBlocks lba count buffer)

/-- The drive and the block of the `ioctl`s that do not fail. -/
theorem readBlocks_of_not_fails (h : ¬ node.FailsBlocks present lba count) :
    (node.readBlocks (masterDrive present) d lba count).result =
      some ((List.range' ((node.start + lba.toNat) % 2 ^ 28) (count.toNat % 2 ^ 8)).map d) := by
  have hcount : (count.setWidth 8).toNat = count.toNat % 2 ^ 8 := BitVec.toNat_setWidth ..
  cases node with
  | disk drive =>
    have hdrive : ¬ ((0 : BitVec 8) ≠ 0 ∨ present = false) := not_or.mpr ⟨fun hne => hne rfl, h⟩
    rw [BlockNode.readBlocks, result_readSectors, if_neg hdrive, hcount, sectorOf,
      BlockNode.start, Nat.zero_add]
  | partition part =>
    obtain ⟨hdrive, hbound⟩ := not_or.mp h
    rw [BlockNode.readBlocks, idePartitionReadBlocks, if_neg hbound, result_readSectors,
      if_neg hdrive, hcount, sectorOf_add, BlockNode.start]

theorem writeBlocks_of_not_fails (h : ¬ node.FailsBlocks present lba count) :
    (node.writeBlocks (masterDrive present) d lba count buffer).dev = fun j =>
      if (node.start + lba.toNat) % 2 ^ 28 ≤ j ∧
          j < (node.start + lba.toNat) % 2 ^ 28 + count.toNat % 2 ^ 8 then
        buffer (j - (node.start + lba.toNat) % 2 ^ 28)
      else d j := by
  have hcount : (count.setWidth 8).toNat = count.toNat % 2 ^ 8 := BitVec.toNat_setWidth ..
  cases node with
  | disk drive =>
    have hdrive : ¬ ((0 : BitVec 8) ≠ 0 ∨ present = false) := not_or.mpr ⟨fun hne => hne rfl, h⟩
    rw [BlockNode.writeBlocks, dev_writeSectors hdrive, hcount, sectorOf, BlockNode.start,
      Nat.zero_add]
  | partition part =>
    obtain ⟨hdrive, hbound⟩ := not_or.mp h
    rw [BlockNode.writeBlocks, idePartitionWriteBlocks, if_neg hbound, dev_writeSectors hdrive,
      hcount, sectorOf_add, BlockNode.start]

end

/-! ### What callers expect -/

theorem mod_blockSize_lt (k : ℕ) : k % 512 < 512 := Nat.mod_lt k (by decide)

/-- Byte `k` of the blocks. -/
def byteOfBlocks (d : ℕ → Block) (k : ℕ) : Byte := d (k / 512) ⟨k % 512, mod_blockSize_lt k⟩

/-- A node for an entry of the partition table. -/
def Registers (t t' : DeviceTree) (num : ℕ) (e : MbrEntry) (driveId : BitVec 8) : Prop :=
  ∃ devDir n address, vfsFinddir t'.fs t'.fs.root devName = some devDir ∧
    vfsFinddir t'.fs devDir (partitionName num) = some n ∧ t.partition n = none ∧
      t'.partition n = some ⟨⟨address, e.lbaFirstSector, e.sectorCount⟩, driveId⟩

/-- A call of the driver from outside, with all that it depends on except for the content of the
disk; the start of the partitions depends on that too. -/
inductive BlockCall
  | read (node : BlockNode) (offset : Word) (size : BitVec 32) (kmalloc : Bool) (behind : ℕ → Byte)
  | write (node : BlockNode) (offset : Word) (size : BitVec 32) (buffer : ℕ → Block)
  | readBlocks (node : BlockNode) (lba count : BitVec 32)
  | writeBlocks (node : BlockNode) (lba count : BitVec 32) (buffer : ℕ → Block)
  | initPartitions (d : ℕ → Block) (t : DeviceTree) (driveId : BitVec 8) (kmalloc : Bool)
    (new : Fin 4 → NewNode) (data : Fin 4 → Word)

namespace BlockCall

variable (present : Bool)

/-- A read or a write that does not return -1 returns the size and moves just the bytes from the
offset on, an `ioctl` that returns 0 moves all of the blocks, and a partition table that can be read
gives a node to each entry that is not empty. -/
def Contract : BlockCall → Prop
  | read node offset size kmalloc behind => ∀ d,
    let r := node.read (masterDrive present) d offset size kmalloc behind
    r.value ≠ -1 → r.value = size ∧ r.bytes = (List.range size.toNat).map fun i =>
      byteOfBlocks d (512 * node.start + offset.toNat + i)
  | write node offset size buffer => ∀ d,
    let t := node.write (masterDrive present) d offset size buffer
    let first := 512 * node.start + offset.toNat
    t.value ≠ -1 → t.value = size ∧ ∀ k, byteOfBlocks t.dev k =
      if first ≤ k ∧ k < first + size.toNat then byteOfBlocks buffer (k - first)
      else byteOfBlocks d k
  | readBlocks node lba count => ∀ d blocks,
    (node.readBlocks (masterDrive present) d lba count).result = some blocks →
      blocks = (List.range' (node.start + lba.toNat) count.toNat).map d
  | writeBlocks node lba count buffer => ∀ d,
    let t := node.writeBlocks (masterDrive present) d lba count buffer
    let first := node.start + lba.toNat
    t.result ≠ none → ∀ j, t.dev j =
      if first ≤ j ∧ j < first + count.toNat then buffer (j - first) else d j
  | initPartitions d t driveId kmalloc new data =>
    kmalloc = true → (ideReadWrapper (masterDrive present) d driveId 0 512 true fun _ => 0).value = 0 →
      bootSignature (d 0) = 0xAA55 → ∃ t',
        ideInitPartitions (masterDrive present) d t driveId kmalloc new data = .ok t' ∧
          ∀ i, ¬ (mbrEntry (d 0) i).IsEmpty → Registers t t' (i + 1) (mbrEntry (d 0) i) driveId

/-- The call fails, or there is nothing to do, or the blocks have a count of 8 bits and an address of
28 bits. -/
def Condition : BlockCall → Prop
  | read node offset size kmalloc _ => node.FailsRead present offset size kmalloc ∨ size = 0
  | write node offset size buffer => node.FailsWrite present offset size buffer ∨ size = 0
  | readBlocks node lba count | writeBlocks node lba count _ =>
    node.FailsBlocks present lba count ∨ count = 0 ∨
      (count.toNat < 2 ^ 8 ∧ node.start + lba.toNat < 2 ^ 28)
  | initPartitions d _ driveId kmalloc _ _ =>
    (kmalloc = false ∨ driveId ≠ 0 ∨ present = false) ∨ bootSignature (d 0) ≠ 0xAA55 ∨
      ∀ i, (mbrEntry (d 0) i).IsEmpty

section

variable {present : Bool} {node : BlockNode} {d : ℕ → Block} {offset : Word}
  {size lba count : BitVec 32} {kmalloc : Bool} {behind : ℕ → Byte} {buffer : ℕ → Block}

/-! ### Reads and writes of bytes -/

theorem value_read : (node.read (masterDrive present) d offset size kmalloc behind).value = 0 ∨
    (node.read (masterDrive present) d offset size kmalloc behind).value = -1 := by
  cases node with
  | disk drive => exact value_ideReadWrapper
  | partition part => exact value_transfer _

theorem bytes_read_zero :
    (node.read (masterDrive present) d offset 0 kmalloc behind).bytes = [] := by
  have hnone : ∀ drive lba, ((masterDrive present).readSectors d drive lba 0).result.getD [] = [] := by
    intro drive lba
    rw [result_readSectors]
    split <;> rfl
  cases node with
  | disk drive =>
    have hsize : ¬ ((0 : BitVec 32) % 512 ≠ 0 ∧ kmalloc = false) := fun hblock => hblock.1 rfl
    have hread := hnone drive (wrapperLba offset)
    rw [BlockNode.read, ideReadWrapper, if_neg hsize]
    have hsectors : wrapperSectors 0 = 0 := rfl
    rw [hsectors]
    dsimp only
    cases hresult : ((masterDrive present).readSectors d drive (wrapperLba offset) 0).result with
    | none => rfl
    | some blocks =>
      rw [hresult] at hread
      obtain rfl : blocks = [] := hread
      rfl
  | partition part =>
    simp only [BlockNode.read, idePartitionReadSectors]
    rw [if_neg (fun hne => hne rfl)]
    split
    · rfl
    · exact congrArg blockBytes (hnone _ _)

/-- No sectors are written. -/
theorem dev_write_zero (h : (node.write (masterDrive present) d offset 0 buffer).result ≠ none) :
    (node.write (masterDrive present) d offset 0 buffer).dev = d := by
  have hsame : ∀ drive lba,
      ((masterDrive present).writeSectors d drive lba 0 buffer).result ≠ none →
        ((masterDrive present).writeSectors d drive lba 0 buffer).dev = d := by
    intro drive lba hresult
    have hdrive : ¬ (drive ≠ 0 ∨ present = false) := fun hdrive =>
      hresult (result_writeSectors.trans (if_pos hdrive))
    rw [dev_writeSectors hdrive]
    funext j
    exact if_neg fun hin => absurd (hin.1.trans_lt hin.2) (lt_irrefl _)
  cases node with
  | disk drive => exact hsame _ _ h
  | partition part =>
    simp only [BlockNode.write, idePartitionWriteSectors] at h ⊢
    rw [if_neg (fun hne => hne rfl)] at h ⊢
    split at h
    · exact absurd rfl h
    · next hbound =>
      rw [if_neg hbound]
      exact hsame _ _ h

theorem contract_read : (read node offset size kmalloc behind).Contract present ↔
    (read node offset size kmalloc behind).Condition present := by
  dsimp only [Contract, Condition]
  constructor
  · intro hcontract
    by_contra hno
    obtain ⟨hfails, hsize⟩ := not_or.mp hno
    have hvalue := mt (@value_read_eq_neg_one present (fun _ => zeroBlock) _ _ _ behind _).mp hfails
    have hcount := (hcontract (fun _ => zeroBlock) hvalue).1
    rw [value_read.resolve_right hvalue] at hcount
    exact hsize hcount.symm
  · rintro (hfails | rfl) d
    · exact fun hvalue => absurd (value_read_eq_neg_one.mpr hfails) hvalue
    · intro hvalue
      exact ⟨value_read.resolve_right hvalue, bytes_read_zero⟩

theorem contract_write : (write node offset size buffer).Contract present ↔
    (write node offset size buffer).Condition present := by
  dsimp only [Contract, Condition]
  have hfailed : ∀ d, (node.write (masterDrive present) d offset size buffer).value = -1 ↔
      node.FailsWrite present offset size buffer :=
    fun d => value_eq_neg_one.trans result_write_eq_none
  constructor
  · intro hcontract
    by_contra hno
    obtain ⟨hfails, hsize⟩ := not_or.mp hno
    have hvalue := mt (hfailed fun _ => zeroBlock).mp hfails
    have hcount := (hcontract (fun _ => zeroBlock) hvalue).1
    rw [(value_transfer _).resolve_right hvalue] at hcount
    exact hsize hcount.symm
  · rintro (hfails | rfl) d
    · exact fun hvalue => absurd ((hfailed d).mpr hfails) hvalue
    · intro hvalue
      have hresult := mt value_eq_neg_one.mpr hvalue
      refine ⟨(value_transfer _).resolve_right hvalue, fun k => ?_⟩
      rw [dev_write_zero hresult, if_neg]
      exact fun hin => absurd (hin.1.trans_lt hin.2) (lt_irrefl _)

/-! ### Blocks -/

theorem toNat_eq_zero : count.toNat = 0 ↔ count = 0 :=
  ⟨fun h => BitVec.eq_of_toNat_eq h, fun h => congrArg BitVec.toNat h⟩

/-- Blocks that differ from zero blocks. -/
def onesBlock : Block := fun _ => 1

theorem zeroBlock_ne_onesBlock : zeroBlock ≠ onesBlock := fun h => absurd (congrFun h 0) (by decide)

/-- The blocks that are read are those that are asked for on every disk. -/
theorem forall_map_eq_iff {first n : ℕ} :
    (∀ d : ℕ → Block, (List.range' (first % 2 ^ 28) (n % 2 ^ 8)).map d =
        (List.range' first n).map d) ↔ n = 0 ∨ (n < 2 ^ 8 ∧ first < 2 ^ 28) := by
  constructor
  · intro hall
    by_contra hno
    obtain ⟨hn, hplace⟩ := not_or.mp hno
    have hlen := congrArg List.length (hall fun _ => zeroBlock)
    rw [List.length_map, List.length_map, List.length_range', List.length_range'] at hlen
    have hsmall : n < 2 ^ 8 := by omega
    have hfar : first % 2 ^ 28 ≠ first := by omega
    -- a disk on which the first block is unlike the others
    have hdiffer := hall fun j => if j = first then zeroBlock else onesBlock
    obtain ⟨k, rfl⟩ := Nat.exists_eq_succ_of_ne_zero hn
    rw [hlen, List.range'_succ, List.range'_succ, List.map_cons, List.map_cons] at hdiffer
    have hhead := (List.cons.inj hdiffer).1
    rw [if_neg hfar, if_pos rfl] at hhead
    exact zeroBlock_ne_onesBlock hhead.symm
  · rintro (rfl | ⟨hn, hfirst⟩) d
    · rfl
    · rw [Nat.mod_eq_of_lt hn, Nat.mod_eq_of_lt hfirst]

/-- The blocks that are written are those that are asked for on every disk. -/
theorem forall_ite_eq_iff {first n : ℕ} :
    (∀ (d : ℕ → Block) j,
      (if first % 2 ^ 28 ≤ j ∧ j < first % 2 ^ 28 + n % 2 ^ 8 then buffer (j - first % 2 ^ 28)
        else d j) = if first ≤ j ∧ j < first + n then buffer (j - first) else d j) ↔
      n = 0 ∨ (n < 2 ^ 8 ∧ first < 2 ^ 28) := by
  constructor
  · intro hall
    by_contra hno
    obtain ⟨hn, hplace⟩ := not_or.mp hno
    -- a block that is asked for and that is not written
    obtain ⟨k, hk, hmissed⟩ : ∃ k < n, ¬ (first % 2 ^ 28 ≤ first + k ∧
        first + k < first % 2 ^ 28 + n % 2 ^ 8) := by
      by_cases hfar : first < 2 ^ 28
      · exact ⟨n % 2 ^ 8, by omega, by omega⟩
      · exact ⟨0, by omega, by omega⟩
    have hsame : ∀ b, b = buffer k := by
      intro b
      have hat := hall (fun _ => b) (first + k)
      rwa [if_neg hmissed, if_pos (by omega), Nat.add_sub_cancel_left] at hat
    exact zeroBlock_ne_onesBlock ((hsame zeroBlock).trans (hsame onesBlock).symm)
  · rintro (rfl | ⟨hn, hfirst⟩) d j
    · rw [if_neg (by omega), if_neg (by omega)]
    · rw [Nat.mod_eq_of_lt hn, Nat.mod_eq_of_lt hfirst]

theorem contract_readBlocks : (readBlocks node lba count).Contract present ↔
    (readBlocks node lba count).Condition present := by
  by_cases hfails : node.FailsBlocks present lba count
  · refine iff_of_true (fun d blocks hresult => ?_) (.inl hfails)
    rw [result_readBlocks_eq_none.mpr hfails] at hresult
    exact absurd hresult.symm (Option.some_ne_none _)
  · have hread : (readBlocks node lba count).Contract present ↔ ∀ d : ℕ → Block,
        (List.range' ((node.start + lba.toNat) % 2 ^ 28) (count.toNat % 2 ^ 8)).map d =
          (List.range' (node.start + lba.toNat) count.toNat).map d := by
      simp only [Contract, readBlocks_of_not_fails hfails, Option.some.injEq, forall_eq']
    rw [hread, forall_map_eq_iff, Condition, or_iff_right hfails, toNat_eq_zero]

theorem contract_writeBlocks : (writeBlocks node lba count buffer).Contract present ↔
    (writeBlocks node lba count buffer).Condition present := by
  by_cases hfails : node.FailsBlocks present lba count
  · refine iff_of_true (fun d hresult => ?_) (.inl hfails)
    exact absurd (result_writeBlocks_eq_none.mpr hfails) hresult
  · have hresult : ∀ d, (node.writeBlocks (masterDrive present) d lba count buffer).result ≠ none :=
      fun d => mt result_writeBlocks_eq_none.mp hfails
    simp only [Contract, hresult, ne_eq, not_false_eq_true, true_imp_iff,
      writeBlocks_of_not_fails hfails]
    rw [forall_ite_eq_iff, Condition, or_iff_right hfails, toNat_eq_zero]

/-! ### The partition table -/

theorem value_ideReadWrapper_mbr {driveId : BitVec 8} :
    (ideReadWrapper (masterDrive present) d driveId 0 512 true behind).value = 0 ↔
      ¬ (driveId ≠ 0 ∨ present = false) := by
  have hfails := @value_read_eq_neg_one present d 512 0 true behind (.disk driveId)
  have hnone : (512 : BitVec 32) % 512 = 0 := rfl
  simp only [BlockNode.read, BlockNode.FailsRead, hnone, ne_eq, not_true_eq_false, false_and,
    or_false] at hfails
  rw [ne_eq, ← hfails]
  constructor
  · intro hzero
    rw [hzero]
    decide
  · exact value_ideReadWrapper.resolve_right

theorem contract_initPartitions {t : DeviceTree} {driveId : BitVec 8} {new : Fin 4 → NewNode}
    {data : Fin 4 → Word} : (initPartitions d t driveId kmalloc new data).Contract present ↔
      (initPartitions d t driveId kmalloc new data).Condition present := by
  simp only [Contract, Condition, value_ideReadWrapper_mbr, ideInitPartitions_eq]
  constructor
  · intro hcontract
    by_contra hno
    obtain ⟨hreadable, hvalid, hentries⟩ : ¬ (kmalloc = false ∨ driveId ≠ 0 ∨ present = false) ∧
        bootSignature (d 0) = 0xAA55 ∧ ¬ ∀ i, (mbrEntry (d 0) i).IsEmpty := by
      simpa only [not_or, ne_eq, not_not] using hno
    obtain ⟨hkmalloc, hdrive⟩ := not_or.mp hreadable
    obtain ⟨i, hi⟩ := not_forall.mp hentries
    obtain ⟨t', ht', hregisters⟩ := hcontract (by simpa using hkmalloc) hdrive hvalid
    -- nothing was registered
    obtain rfl := Except.ok.inj ht'
    obtain ⟨devDir, n, address, -, -, hnone, hsome⟩ := hregisters i hi
    rw [hnone] at hsome
    exact absurd hsome.symm (Option.some_ne_none _)
  · rintro (hunreadable | hinvalid | hempty) hkmalloc hdrive hvalid
    · rw [hkmalloc] at hunreadable
      exact absurd (hunreadable.resolve_left (by decide)) hdrive
    · exact absurd hvalid hinvalid
    · exact ⟨t, rfl, fun i hi => absurd (hempty i) hi⟩

end

/-- The calls that do what is expected of them. -/
theorem contract_iff (present : Bool) (call : BlockCall) :
    call.Contract present ↔ call.Condition present := by
  cases call with
  | read => exact contract_read
  | write => exact contract_write
  | readBlocks => exact contract_readBlocks
  | writeBlocks => exact contract_writeBlocks
  | initPartitions => exact contract_initPartitions

/-- A read of the first sector of the disk succeeds and returns 0. -/
theorem not_contract : ¬ ∀ present (call : BlockCall), call.Contract present := by
  intro hall
  have hcontract := hall true (.read (.disk 0) 0 512 true fun _ => 0)
  have hvalue : ((BlockNode.disk 0).read (masterDrive true) (fun _ => zeroBlock) 0 512 true
      fun _ => 0).value = 0 := value_ideReadWrapper_mbr.mpr (by decide)
  have hcount := (hcontract (fun _ => zeroBlock) (by rw [hvalue]; decide)).1
  rw [hvalue] at hcount
  exact absurd hcount (by decide)

end BlockCall

end KyroOS.Disk

import KyroOS.Disk.FsDisk

/-!
# The IDE driver

The driver moves sectors one by one between memory and the primary master. Its nodes are the whole
disk and the partitions; the `ioctl` of a partition takes block numbers relative to its start.

## Main definitions

* `Drive` — what a transfer of one sector does
* `ideReadSectors`, `ideWriteSectors` — the transfers of the driver
* `IdeNode`, `ideDevices` — the nodes and their `ioctl`s
-/

namespace KyroOS.Disk

/-- The primary master: what a sector reads as, unless the transfer fails, and what a write of one
does. -/
structure Drive (σ : Type) where
  sector : σ → ℕ → Option Block
  store : σ → ℕ → Block → σ × Bool

/-- The sector that the 28 bits of the address registers select. -/
def sectorOf (lba : BitVec 32) : ℕ := lba.toNat % 2 ^ 28

section Sectors

variable {σ : Type} (P : Drive σ) (dev : σ)

/-- The sectors from the given one on. -/
def readSectors : ℕ → ℕ → Option (List Block)
  | 0, _ => some []
  | n + 1, i => do
    let b ← P.sector dev i
    let rest ← readSectors n (i + 1)
    some (b :: rest)

/-- `ide_read_sectors` -/
def ideReadSectors (lba : BitVec 32) (numSectors : BitVec 8) : Option (List Block) :=
  readSectors P dev numSectors.toNat (sectorOf lba)

/-- `ide_write_sectors`, with a count of one. -/
def ideWriteSectors (lba : BitVec 32) (b : Block) : σ × Bool := P.store dev (sectorOf lba) b

/-- As many sectors are read as were asked for. -/
theorem length_readSectors {P : Drive σ} {dev : σ} {n i : ℕ} {blocks : List Block}
    (h : readSectors P dev n i = some blocks) : blocks.length = n := by
  induction n generalizing i blocks with
  | zero =>
    rw [← Option.some.inj h]
    rfl
  | succ n ih =>
    obtain ⟨b, -, hrest⟩ := Option.bind_eq_some_iff.mp h
    obtain ⟨rest, hread, heq⟩ := Option.bind_eq_some_iff.mp hrest
    rw [← Option.some.inj heq, List.length_cons, ih hread]

/-- The sectors that are read are those of the drive. -/
theorem getElem_readSectors {P : Drive σ} {dev : σ} {n i : ℕ} {blocks : List Block}
    (h : readSectors P dev n i = some blocks) (j : ℕ) (hj : j < blocks.length) :
    P.sector dev (i + j) = some (blocks.get ⟨j, hj⟩) := by
  induction n generalizing i blocks j with
  | zero =>
    obtain rfl := Option.some.inj h
    exact absurd hj (Nat.not_lt_zero j)
  | succ n ih =>
    obtain ⟨b, hb, hrest⟩ := Option.bind_eq_some_iff.mp h
    obtain ⟨rest, hread, heq⟩ := Option.bind_eq_some_iff.mp hrest
    obtain rfl := Option.some.inj heq
    cases j with
    | zero => exact hb
    | succ j =>
      have hj' : j < rest.length := Nat.lt_of_succ_lt_succ hj
      rw [← Nat.add_assoc, Nat.add_right_comm]
      exact ih hread j hj'

end Sectors

/-! ### Nodes -/

/-- `ide_partition_data_t`, and the address of the structure. -/
structure PartitionData where
  address : Word
  partitionLbaStart : BitVec 32
  partitionSize : BitVec 32

/-- The node of the whole disk, and those of the partitions. -/
inductive IdeNode
  | disk
  | partition (data : PartitionData)

namespace IdeNode

/-- The `ptr` of the node. -/
def ptr : IdeNode → Word
  | disk => 0
  | partition data => data.address

/-- The block of the disk for a block number of the `ioctl`. -/
def absoluteLba (lba : BitVec 32) : IdeNode → BitVec 32
  | disk => lba
  | partition data => data.partitionLbaStart + lba

/-- The `ioctl` does not refuse the blocks. -/
def Accepts (lba count : BitVec 32) : IdeNode → Prop
  | disk => True
  | partition data => lba + count ≤ data.partitionSize

instance (node : IdeNode) (lba count : BitVec 32) : Decidable (node.Accepts lba count) := by
  cases node
  · exact inferInstanceAs (Decidable True)
  · exact inferInstanceAs (Decidable (_ ≤ _))

end IdeNode

section Ioctl

variable {σ : Type} (P : Drive σ)

/-- `IDE_IOCTL_READ_BLOCKS`, of `ide_ioctl` and `ide_partition_ioctl`. -/
def ideIoctlRead (node : IdeNode) (dev : σ) (lba count : BitVec 32) : Option (List Block) :=
  if node.Accepts lba count then
    ideReadSectors P dev (node.absoluteLba lba) (count.setWidth 8)
  else none

/-- `IDE_IOCTL_WRITE_BLOCKS` with a count of one. -/
def ideIoctlWrite (node : IdeNode) (dev : σ) (lba : BitVec 32) (b : Block) : σ × Bool :=
  if node.Accepts lba 1 then ideWriteSectors P dev (node.absoluteLba lba) b else (dev, false)

/-- The nodes of the driver. -/
def ideDevices : Devices IdeNode σ := ⟨ideIoctlRead P, ideIoctlWrite P⟩

/-- `IDE_IOCTL_FORMAT` -/
def ideIoctlFormat (node : IdeNode) (dev : σ) (partitionLba partitionSize : BitVec 32) : σ × Int :=
  fsFormat (ideDevices P) dev node (node.absoluteLba partitionLba) partitionSize

end Ioctl

end KyroOS.Disk

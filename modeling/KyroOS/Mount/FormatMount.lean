import KyroOS.Mount.Vfs
import KyroOS.Disk.HostileImage

/-!
# Formatting and mounting a partition

The format request of a partition adds the start of the partition to a block number that the
`ioctl` adds it to once more, and a mount takes the low half of a pointer for the block number of
the file system.

## Main definitions

* `Platter`, `lbaDrive` — a drive that keeps the list of the sectors that were written
* `RoundTrip` — a format and a mount that succeed, inside of the partition and without a file
* `FormatFits`, `OwnSystem`, `OldSystem` — the partitions for which they do

## Main results

* `roundTrip_iff` — the round trip succeeds just for these
* `not_roundTrip` — an ordinary partition is not formatted
-/

namespace KyroOS.Mount

open Vfs Disk

/-! ### A drive -/

/-- The sectors, and the numbers of those that were written. -/
structure Platter where
  blocks : ℕ → Block
  written : List ℕ

/-- A drive with all sectors that 28 bits can address, which does not fail inside of them. -/
def lbaDrive : Drive Platter where
  sector := fun dev n => if n < 2 ^ 28 then some (dev.blocks n) else none
  store := fun dev n b => (⟨Function.update dev.blocks n b, n :: dev.written⟩, true)

/-- Sectors are read unless the transfer leaves the drive. -/
theorem readSectors_lbaDrive (dev : Platter) (n i : ℕ) (hi : i < 2 ^ 28) :
    readSectors lbaDrive dev n i =
      if i + n ≤ 2 ^ 28 then some ((List.range n).map fun j => dev.blocks (i + j)) else none := by
  induction n generalizing i with
  | zero =>
    rw [if_pos (by omega)]
    rfl
  | succ n ih =>
    have hsector : lbaDrive.sector dev i = some (dev.blocks i) := if_pos hi
    rw [readSectors, hsector]
    show (readSectors lbaDrive dev n (i + 1)).bind _ = _
    by_cases hlast : i + 1 < 2 ^ 28
    · rw [ih (i + 1) hlast]
      by_cases hfit : i + 1 + n ≤ 2 ^ 28
      · rw [if_pos hfit, if_pos (by omega), List.range_succ_eq_map, List.map_cons, List.map_map]
        refine congrArg some (congrArg _ (List.map_congr_left fun j _ => ?_))
        show dev.blocks (i + 1 + j) = dev.blocks (i + (j + 1))
        rw [Nat.add_assoc, Nat.add_comm 1 j]
      · rw [if_neg hfit, if_neg (by omega)]
        rfl
    · cases n with
      | zero =>
        rw [if_pos (by omega)]
        rfl
      | succ n =>
        have hnone : lbaDrive.sector dev (i + 1) = none := if_neg hlast
        rw [readSectors, hnone, if_neg (by omega)]
        rfl

/-! ### The round trip -/

/-- The request to format the partition. -/
def formatted (data : PartitionData) (blocks : ℕ → Block) : Platter × Int :=
  ideIoctlFormat lbaDrive (.partition data) ⟨blocks, []⟩ 0 data.partitionSize

/-- The mount of the partition, which an open descriptor has, after the request. -/
def mounted (data : PartitionData) (blocks : ℕ → Block) (fs : FsDisk IdeNode) (block : Word) :
    FsState IdeNode Platter × Int :=
  fsDiskMountDevice (ideDevices lbaDrive) ⟨fs, (formatted data blocks).1⟩
    ⟨.partition data, data.address, true⟩ block

/-- The request succeeds and writes to the partition only, and the mount succeeds and has no
file. -/
structure RoundTrip (data : PartitionData) (blocks : ℕ → Block) (fs : FsDisk IdeNode)
    (block : Word) : Prop where
  format : (formatted data blocks).2 = 0
  inside : ∀ n ∈ (formatted data blocks).1.written, data.partitionLbaStart.toNat ≤ n ∧
    n < data.partitionLbaStart.toNat + data.partitionSize.toNat
  mount : (mounted data blocks fs block).2 = 0
  empty : ∀ index, fsGetFileInfoByIndex (mounted data blocks fs block).1 index = .ok none

/-- The blocks of the file system lie in the partition also when its start is added to them, and
can be addressed when it is added twice. -/
def FormatFits (data : PartitionData) : Prop :=
  data.partitionLbaStart.toNat + 33 ≤ data.partitionSize.toNat ∧
    2 * data.partitionLbaStart.toNat + 32 < 2 ^ 28

/-- The block number that a mount takes from the `ptr` of the node. -/
def mountLba (data : PartitionData) : BitVec 32 := data.address.setWidth 32

/-- The image after a format: the superblock at twice the start, and the table behind it. -/
def formattedImage (data : PartitionData) (blocks : ℕ → Block) (n : ℕ) : Block :=
  if n = 2 * data.partitionLbaStart.toNat then (newSuperblock data.partitionSize).toBlock
  else if 2 * data.partitionLbaStart.toNat < n ∧ n ≤ 2 * data.partitionLbaStart.toNat + 32 then
    zeroBlock
  else blocks n

/-- The pointer names the block of the superblock that was written. -/
def OwnSystem (data : PartitionData) : Prop :=
  (mountLba data).toNat % 2 ^ 28 = data.partitionLbaStart.toNat ∧
    (mountLba data).toNat + 33 ≤ data.partitionSize.toNat

/-- The superblock on an image that the pointer names. -/
def namedSuperblock (image : ℕ → Block) (data : PartitionData) : Superblock :=
  .ofBlock (image (sectorOf (data.partitionLbaStart + mountLba data)))

/-- The first sector of the table that the superblock tells of. -/
def namedTable (image : ℕ → Block) (data : PartitionData) : ℕ :=
  sectorOf (data.partitionLbaStart +
    (mountLba data + (namedSuperblock image data).fileTableStartBlock))

/-- The pointer names a superblock on an image, and the table that it tells of is read and has no
name in its first 32 blocks. -/
structure EmptySystem (image : ℕ → Block) (data : PartitionData) : Prop where
  super : mountLba data + 1 ≤ data.partitionSize
  signature : (namedSuperblock image data).signature = fsSignature
  table : mountLba data + (namedSuperblock image data).fileTableStartBlock +
    (namedSuperblock image data).fileTableNumBlocks ≤ data.partitionSize
  sectors : namedTable image data + (namedSuperblock image data).fileTableNumBlocks.toNat % 256 ≤
    2 ^ 28
  enough : 32 ≤ (namedSuperblock image data).fileTableNumBlocks.toNat % 256
  free : ∀ i < 32, image (namedTable image data + i) 0 = 0

/-- The pointer names the block of an older file system, behind or before the blocks that were
written, and this has no file. -/
def OldSystem (data : PartitionData) (blocks : ℕ → Block) : Prop :=
  (sectorOf (data.partitionLbaStart + mountLba data) < 2 * data.partitionLbaStart.toNat ∨
    2 * data.partitionLbaStart.toNat + 32 < sectorOf (data.partitionLbaStart + mountLba data)) ∧
  EmptySystem (formattedImage data blocks) data

/-! ### The sectors of a format -/

section Format

variable {data : PartitionData} {lba : BitVec 32} {dev : Platter}

/-- The sector for a block number of the partition. -/
def partitionSector (data : PartitionData) (lba : BitVec 32) : ℕ :=
  sectorOf (data.partitionLbaStart + lba)

/-- A block that the partition takes is written. -/
theorem write_of_accepts {b : Block} (h : (IdeNode.partition data).Accepts lba 1) :
    (ideDevices lbaDrive).write (.partition data) dev lba b =
      (⟨Function.update dev.blocks (partitionSector data lba) b,
        partitionSector data lba :: dev.written⟩, true) :=
  if_pos h

theorem accepts_of_write {b : Block}
    (h : ((ideDevices lbaDrive).write (.partition data) dev lba b).2 = true) :
    (IdeNode.partition data).Accepts lba 1 := by
  by_contra hno
  have hrefused : (ideDevices lbaDrive).write (.partition data) dev lba b = (dev, false) :=
    if_neg hno
  rw [hrefused] at h
  cases h

/-- A table that is zeroed lies in blocks that the partition takes. -/
theorem accepts_of_zeroTable (n i : ℕ) (dev : Platter)
    (h : (zeroTable (ideDevices lbaDrive) (.partition data) lba n i dev).2 = 0) (j : ℕ)
    (hle : i ≤ j) (hlt : j < i + n) :
    (IdeNode.partition data).Accepts (lba + 1 + BitVec.ofNat 32 j) 1 := by
  induction n generalizing i dev with
  | zero => exact absurd hlt (by omega)
  | succ n ih =>
    rw [zeroTable] at h
    split at h
    next dev' hwrite =>
      rcases Nat.eq_or_lt_of_le hle with rfl | hlt'
      · exact accepts_of_write (congrArg Prod.snd hwrite)
      · exact ih (i + 1) dev' h hlt' (by omega)
    next => cases h

/-- The sectors that are zeroed. -/
theorem zeroTable_written (n i : ℕ) (dev : Platter)
    (h : ∀ j, i ≤ j → j < i + n →
      (IdeNode.partition data).Accepts (lba + 1 + BitVec.ofNat 32 j) 1) :
      (zeroTable (ideDevices lbaDrive) (.partition data) lba n i dev).2 = 0 ∧
      (∀ k, k ∈ (zeroTable (ideDevices lbaDrive) (.partition data) lba n i dev).1.written ↔
        k ∈ dev.written ∨ ∃ j, i ≤ j ∧ j < i + n ∧
          k = partitionSector data (lba + 1 + BitVec.ofNat 32 j)) ∧
      (∀ k, (∃ j, i ≤ j ∧ j < i + n ∧ k = partitionSector data (lba + 1 + BitVec.ofNat 32 j)) →
        (zeroTable (ideDevices lbaDrive) (.partition data) lba n i dev).1.blocks k = zeroBlock) ∧
      ∀ k, (¬ ∃ j, i ≤ j ∧ j < i + n ∧ k = partitionSector data (lba + 1 + BitVec.ofNat 32 j)) →
        (zeroTable (ideDevices lbaDrive) (.partition data) lba n i dev).1.blocks k =
          dev.blocks k := by
  induction n generalizing i dev with
  | zero =>
    have hnone : ∀ k, ¬ ∃ j, i ≤ j ∧ j < i + 0 ∧
        k = partitionSector data (lba + 1 + BitVec.ofNat 32 j) := by
      rintro k ⟨j, hle, hlt, -⟩
      omega
    refine ⟨rfl, fun k => ?_, fun k hk => absurd hk (hnone k), fun k _ => rfl⟩
    rw [or_iff_left (hnone k)]
    rfl
  | succ n ih =>
    obtain ⟨dev', hdev⟩ : ∃ dev' : Platter, dev' = ⟨Function.update dev.blocks
      (partitionSector data (lba + 1 + BitVec.ofNat 32 i)) zeroBlock,
      partitionSector data (lba + 1 + BitVec.ofNat 32 i) :: dev.written⟩ := ⟨_, rfl⟩
    obtain ⟨hres, hwritten, hzero, hkeep⟩ := ih (i + 1) dev'
      fun j hle hlt => h j (by omega) (by omega)
    have hstep : zeroTable (ideDevices lbaDrive) (.partition data) lba (n + 1) i dev =
        zeroTable (ideDevices lbaDrive) (.partition data) lba n (i + 1) dev' := by
      rw [zeroTable, write_of_accepts (h i le_rfl (by omega)), hdev]
    -- the first sector, and those behind it
    have hsplit : ∀ k, (∃ j, i ≤ j ∧ j < i + (n + 1) ∧
        k = partitionSector data (lba + 1 + BitVec.ofNat 32 j)) ↔
        k = partitionSector data (lba + 1 + BitVec.ofNat 32 i) ∨ ∃ j, i + 1 ≤ j ∧
          j < i + 1 + n ∧ k = partitionSector data (lba + 1 + BitVec.ofNat 32 j) := by
      intro k
      constructor
      · rintro ⟨j, hle, hlt, rfl⟩
        rcases Nat.eq_or_lt_of_le hle with rfl | hlt'
        · exact .inl rfl
        · exact .inr ⟨j, hlt', by omega, rfl⟩
      · rintro (rfl | ⟨j, hle, hlt, rfl⟩)
        · exact ⟨i, le_rfl, by omega, rfl⟩
        · exact ⟨j, by omega, by omega, rfl⟩
    rw [hstep]
    refine ⟨hres, fun k => ?_, fun k hk => ?_, fun k hk => ?_⟩
    · rw [hwritten, hsplit, hdev, List.mem_cons]
      tauto
    · by_cases hrest : ∃ j, i + 1 ≤ j ∧ j < i + 1 + n ∧
          k = partitionSector data (lba + 1 + BitVec.ofNat 32 j)
      · exact hzero k hrest
      · have hfirst := ((hsplit k).mp hk).resolve_right hrest
        rw [hkeep k hrest, hdev, hfirst]
        exact Function.update_self ..
    · rw [hkeep k fun hrest => hk ((hsplit k).mpr (.inr hrest)), hdev]
      exact Function.update_of_ne (fun hfirst => hk ((hsplit k).mpr (.inl hfirst))) ..

/-- The block numbers of a format, the first of which is `start + 0`. -/
theorem formatLba_eq (start : BitVec 32) (j : ℕ) :
    start + 0 + 1 + BitVec.ofNat 32 j = start + BitVec.ofNat 32 (j + 1) := by
  have hzero : start + 0 = start := BitVec.add_zero start
  rw [hzero, BitVec.add_assoc, Nat.add_comm, BitVec.ofNat_add]
  rfl

/-- The start of the partition is added twice. -/
theorem partitionSector_eq (data : PartitionData) {j : ℕ} (_ : j < 2 ^ 32) :
    partitionSector data (data.partitionLbaStart + BitVec.ofNat 32 j) =
      (2 * data.partitionLbaStart.toNat + j) % 2 ^ 28 := by
  have hlt := data.partitionLbaStart.isLt
  rw [partitionSector, sectorOf, BitVec.toNat_add, BitVec.toNat_add, BitVec.toNat_ofNat]
  omega

/-- The platter with the superblock, which is written first. -/
def superPlatter (data : PartitionData) (blocks : ℕ → Block) : Platter :=
  ⟨Function.update blocks (partitionSector data data.partitionLbaStart)
    (newSuperblock data.partitionSize).toBlock, [partitionSector data data.partitionLbaStart]⟩

theorem formatted_eq {blocks : ℕ → Block}
    (h : (IdeNode.partition data).Accepts data.partitionLbaStart 1) :
    formatted data blocks = zeroTable (ideDevices lbaDrive) (.partition data)
      (data.partitionLbaStart + 0) 32 0 (superPlatter data blocks) := by
  have hzero : data.partitionLbaStart + 0 + 0 = data.partitionLbaStart := by
    rw [BitVec.add_assoc]
    exact BitVec.add_zero _
  have habsolute : (IdeNode.partition data).absoluteLba 0 = data.partitionLbaStart + 0 := rfl
  rw [formatted, ideIoctlFormat, fsFormat, habsolute, hzero, write_of_accepts h]
  rfl

/-- A format that succeeds writes to blocks that the partition takes. -/
theorem accepts_of_formatted {blocks : ℕ → Block} (h : (formatted data blocks).2 = 0) :
    (IdeNode.partition data).Accepts data.partitionLbaStart 1 ∧ ∀ j, 0 ≤ j → j < 0 + 32 →
      (IdeNode.partition data).Accepts (data.partitionLbaStart + 0 + 1 + BitVec.ofNat 32 j) 1 := by
  have hzero : data.partitionLbaStart + 0 + 0 = data.partitionLbaStart := by
    rw [BitVec.add_assoc]
    exact BitVec.add_zero _
  have hsuper : (IdeNode.partition data).Accepts data.partitionLbaStart 1 := by
    rw [formatted, ideIoctlFormat, fsFormat] at h
    split at h
    · cases h
    next dev' hwrite =>
      rw [← hzero]
      exact accepts_of_write (congrArg Prod.snd hwrite)
  rw [formatted_eq hsuper] at h
  exact ⟨hsuper, accepts_of_zeroTable 32 0 _ h⟩

/-- The sectors that a format writes to. -/
theorem mem_written_formatted {blocks : ℕ → Block}
    (hsuper : (IdeNode.partition data).Accepts data.partitionLbaStart 1)
    (htable : ∀ j, 0 ≤ j → j < 0 + 32 →
      (IdeNode.partition data).Accepts (data.partitionLbaStart + 0 + 1 + BitVec.ofNat 32 j) 1)
    (k : ℕ) : k ∈ (formatted data blocks).1.written ↔
      ∃ j < 33, k = (2 * data.partitionLbaStart.toNat + j) % 2 ^ 28 := by
  have hfirst : partitionSector data data.partitionLbaStart =
      (2 * data.partitionLbaStart.toNat + 0) % 2 ^ 28 := by
    rw [← partitionSector_eq data (by omega)]
    exact congrArg (partitionSector data) (BitVec.add_zero _).symm
  obtain ⟨-, hwritten, -⟩ := zeroTable_written 32 0 (superPlatter data blocks) htable
  rw [formatted_eq hsuper, hwritten, superPlatter, List.mem_singleton, hfirst]
  constructor
  · rintro (hk | ⟨j, -, hlt, hk⟩)
    · exact ⟨0, by omega, hk⟩
    · rw [formatLba_eq, partitionSector_eq data (by omega)] at hk
      exact ⟨j + 1, by omega, hk⟩
  · rintro ⟨j, hlt, hk⟩
    cases j with
    | zero => exact .inl hk
    | succ j =>
      refine .inr ⟨j, Nat.zero_le j, by omega, ?_⟩
      rw [formatLba_eq, partitionSector_eq data (by omega)]
      exact hk

/-- A format that succeeds inside of the partition is one of a partition that it fits. -/
theorem formatFits_of_formatted {blocks : ℕ → Block} (h : (formatted data blocks).2 = 0)
    (hinside : ∀ n ∈ (formatted data blocks).1.written, data.partitionLbaStart.toNat ≤ n ∧
      n < data.partitionLbaStart.toNat + data.partitionSize.toNat) : FormatFits data := by
  obtain ⟨hsuper, htable⟩ := accepts_of_formatted h
  have hrange : ∀ j < 33, data.partitionLbaStart.toNat ≤
      (2 * data.partitionLbaStart.toNat + j) % 2 ^ 28 ∧
      (2 * data.partitionLbaStart.toNat + j) % 2 ^ 28 <
        data.partitionLbaStart.toNat + data.partitionSize.toNat :=
    fun j hj => hinside _ ((mem_written_formatted hsuper htable _).mpr ⟨j, hj, rfl⟩)
  have hfirst := hrange 0 (by omega)
  have hlast := hrange 32 (by omega)
  rw [FormatFits]
  omega

/-- A partition that a format fits takes its blocks. -/
theorem FormatFits.accepts (h : FormatFits data) {j : ℕ} (_ : j < 33) :
    (IdeNode.partition data).Accepts (data.partitionLbaStart + BitVec.ofNat 32 j) 1 := by
  obtain ⟨hsize, hsectors⟩ := h
  show data.partitionLbaStart + BitVec.ofNat 32 j + 1 ≤ data.partitionSize
  rw [BitVec.le_def, BitVec.toNat_add, BitVec.toNat_add, BitVec.toNat_ofNat]
  show (((data.partitionLbaStart.toNat + j % 2 ^ 32) % 2 ^ 32) + 1) % 2 ^ 32 ≤ _
  omega

/-- What a format makes of a partition that it fits. -/
theorem FormatFits.formatted (h : FormatFits data) (blocks : ℕ → Block) :
    (Mount.formatted data blocks).2 = 0 ∧
      (∀ n ∈ (Mount.formatted data blocks).1.written, data.partitionLbaStart.toNat ≤ n ∧
        n < data.partitionLbaStart.toNat + data.partitionSize.toNat) ∧
      (Mount.formatted data blocks).1.blocks = formattedImage data blocks := by
  obtain ⟨hsize, hsectors⟩ := id h
  have hzero : data.partitionLbaStart + BitVec.ofNat 32 0 = data.partitionLbaStart :=
    BitVec.add_zero _
  have hsuper : (IdeNode.partition data).Accepts data.partitionLbaStart 1 :=
    hzero ▸ h.accepts (j := 0) (by omega)
  have htable : ∀ j, 0 ≤ j → j < 0 + 32 →
      (IdeNode.partition data).Accepts (data.partitionLbaStart + 0 + 1 + BitVec.ofNat 32 j) 1 := by
    intro j _ hlt
    rw [formatLba_eq]
    exact h.accepts (by omega)
  have hsector : ∀ j < 33,
      partitionSector data (data.partitionLbaStart + BitVec.ofNat 32 j) =
        2 * data.partitionLbaStart.toNat + j := by
    intro j hj
    rw [partitionSector_eq data (by omega)]
    omega
  obtain ⟨hres, -, hnew, hkeep⟩ := zeroTable_written 32 0 (superPlatter data blocks) htable
  refine ⟨?_, fun n hn => ?_, funext fun k => ?_⟩
  · rw [formatted_eq hsuper]
    exact hres
  · obtain ⟨j, hj, rfl⟩ := (mem_written_formatted hsuper htable n).mp hn
    omega
  · have hbehind : (∃ j, 0 ≤ j ∧ j < 0 + 32 ∧
        k = partitionSector data (data.partitionLbaStart + 0 + 1 + BitVec.ofNat 32 j)) ↔
        2 * data.partitionLbaStart.toNat < k ∧ k ≤ 2 * data.partitionLbaStart.toNat + 32 := by
      constructor
      · rintro ⟨j, -, hlt, rfl⟩
        rw [formatLba_eq, hsector (j + 1) (by omega)]
        omega
      · rintro ⟨hlt, hle⟩
        refine ⟨k - 2 * data.partitionLbaStart.toNat - 1, Nat.zero_le _, by omega, ?_⟩
        rw [formatLba_eq, hsector _ (by omega)]
        omega
    have hown : partitionSector data data.partitionLbaStart =
        2 * data.partitionLbaStart.toNat := by
      have hfirst := hsector 0 (by omega)
      rw [hzero] at hfirst
      exact hfirst
    rw [formatted_eq hsuper, formattedImage]
    split_ifs with hk hk'
    · rw [hkeep k fun hex => by have hlt := (hbehind.mp hex).1; omega, superPlatter, hk, hown]
      exact Function.update_self ..
    · exact hnew k (hbehind.mpr hk')
    · rw [hkeep k fun hex => hk' (hbehind.mp hex), superPlatter, hown]
      exact Function.update_of_ne hk ..

end Format

/-! ### What a mount finds -/

section Mounted

variable {data : PartitionData} {dev : Platter} {lba n : BitVec 32} {table : List Block}
  {fs : FsDisk IdeNode} {block : Word}

/-- The blocks that the partition reads. -/
theorem read_eq_some_iff :
    (ideDevices lbaDrive).read (.partition data) dev lba n = some table ↔
      lba + n ≤ data.partitionSize ∧ partitionSector data lba + n.toNat % 256 ≤ 2 ^ 28 ∧
        table = (List.range (n.toNat % 256)).map fun j =>
          dev.blocks (partitionSector data lba + j) := by
  have hlt : partitionSector data lba < 2 ^ 28 := Nat.mod_lt _ (by decide)
  have hcount : (n.setWidth 8).toNat = n.toNat % 256 := by rw [BitVec.toNat_setWidth]
  show ideIoctlRead lbaDrive (.partition data) dev lba n = some table ↔ _
  rw [ideIoctlRead]
  by_cases haccepts : (IdeNode.partition data).Accepts lba n
  · rw [if_pos haccepts, ideReadSectors, hcount]
    have hread := readSectors_lbaDrive dev (n.toNat % 256) (partitionSector data lba) hlt
    have hsector : sectorOf ((IdeNode.partition data).absoluteLba lba) =
        partitionSector data lba := rfl
    rw [hsector, hread]
    by_cases hfit : partitionSector data lba + n.toNat % 256 ≤ 2 ^ 28
    · rw [if_pos hfit, Option.some.injEq]
      exact ⟨fun heq => ⟨haccepts, hfit, heq.symm⟩, fun h => h.2.2.symm⟩
    · rw [if_neg hfit]
      exact ⟨fun heq => (by cases heq), fun h => absurd h.2.1 hfit⟩
  · rw [if_neg haccepts]
    exact ⟨fun heq => (by cases heq), fun h => absurd h.1 haccepts⟩

/-- Nothing is listed just where 32 entries were read and all are free. -/
theorem infoByIndex_eq_none_iff {ν σ : Type} {node : ν} {lba : BitVec 32} {sb : Superblock}
    {u : FsState ν σ} {c : Cache} (h : Indexed node lba sb u c) :
    (∀ index, fsGetFileInfoByIndex u index = .ok none) ↔ 32 ≤ c.entries.length ∧
      ∀ i < 32, ∀ hi : i < c.entries.length, (c.entries.get ⟨i, hi⟩).isFree = true := by
  have hentry : ∀ i < 32, fsGetFileInfoByIndex u (i : ℕ) =
      (c.get i >>= fun e => .ok (if e.isFree then none else some e)) := by
    intro i hi
    rw [fsGetFileInfoByIndex, h.node, h.cache]
    have hrange : ¬ ((i : Int) < 0 ∨ (fsMaxFiles : Int) ≤ i) := by
      rw [fsMaxFiles]
      omega
    exact if_neg hrange
  constructor
  · intro hnone
    refine ⟨?_, fun i hi hlt => ?_⟩
    · have hlast := hnone (31 : ℕ)
      rw [hentry 31 (by omega)] at hlast
      obtain ⟨e, he, -⟩ := Outcome.bind_eq_ok.mp hlast
      exact lt_length_of_get he
    · have hfree := hnone i
      rw [hentry i hi, h.get hlt] at hfree
      by_contra hused
      have hsome := Except.ok.inj hfree
      rw [if_neg hused] at hsome
      cases hsome
  · rintro ⟨hlen, hfree⟩ index
    by_cases hrange : index < 0 ∨ (fsMaxFiles : Int) ≤ index
    · rw [fsGetFileInfoByIndex, h.node, h.cache]
      exact if_pos hrange
    · rw [fsMaxFiles] at hrange
      obtain ⟨i, rfl⟩ : ∃ i : ℕ, (i : Int) = index :=
        ⟨index.toNat, Int.toNat_of_nonneg (by omega)⟩
      have hlt : i < c.entries.length := by omega
      rw [hentry i (by omega), h.get hlt]
      exact congrArg Except.ok (if_pos (hfree i (by omega) hlt))

/-- A mount succeeds and has no file just where the pointer names an empty file system. -/
theorem mount_iff_emptySystem : ((fsDiskMountDevice (ideDevices lbaDrive) ⟨fs, dev⟩
      ⟨.partition data, data.address, true⟩ block).2 = 0 ∧
    ∀ index, fsGetFileInfoByIndex (fsDiskMountDevice (ideDevices lbaDrive) ⟨fs, dev⟩
      ⟨.partition data, data.address, true⟩ block).1 index = .ok none) ↔
    block ≠ 0 ∧ EmptySystem dev.blocks data := by
  have hdevice : fsDiskMountDevice (ideDevices lbaDrive) ⟨fs, dev⟩
      ⟨.partition data, data.address, true⟩ block =
        fsMount (ideDevices lbaDrive) ⟨fs, dev⟩ (.partition data) (mountLba data) block := rfl
  have hzero : mountLba data + 0 = mountLba data := BitVec.add_zero _
  have hone : (1 : BitVec 32).toNat % 256 = 1 := rfl
  -- the superblock that is read when it can be read
  have hsuper : ∀ blocks, (ideDevices lbaDrive).read (.partition data) dev (mountLba data + 0) 1 =
      some blocks ↔ mountLba data + 1 ≤ data.partitionSize ∧
        blocks = [dev.blocks (partitionSector data (mountLba data))] := by
    intro blocks
    have hlt : partitionSector data (mountLba data) < 2 ^ 28 := Nat.mod_lt _ (by decide)
    rw [hzero, read_eq_some_iff, hone]
    constructor
    · exact fun h => ⟨h.1, h.2.2⟩
    · exact fun h => ⟨h.1, by omega, h.2⟩
  -- the table that is read, and what it is for the searches
  obtain ⟨sb, hsb⟩ : ∃ sb, sb = namedSuperblock dev.blocks data := ⟨_, rfl⟩
  obtain ⟨entries, hentries⟩ : ∃ entries,
      entries = (List.range (sb.fileTableNumBlocks.toNat % 256)).map
        fun j => dev.blocks (namedTable dev.blocks data + j) := ⟨_, rfl⟩
  have htable : ∀ table, (ideDevices lbaDrive).read (.partition data) dev
      (mountLba data + sb.fileTableStartBlock) sb.fileTableNumBlocks = some table ↔
      mountLba data + sb.fileTableStartBlock + sb.fileTableNumBlocks ≤ data.partitionSize ∧
        namedTable dev.blocks data + sb.fileTableNumBlocks.toNat % 256 ≤ 2 ^ 28 ∧
        table = entries := by
    intro table
    have hsector : partitionSector data (mountLba data + sb.fileTableStartBlock) =
        namedTable dev.blocks data := by
      rw [hsb]
      rfl
    rw [read_eq_some_iff, hsector, hentries]
  have hindexed : Indexed (.partition data) (mountLba data) sb
      (⟨⟨some (.partition data), mountLba data, sb, some ⟨block, sb.fileTableNumBlocks * 512,
        entries.map FileEntry.ofBlock⟩⟩, dev⟩ : FsState IdeNode Platter)
      ⟨block, sb.fileTableNumBlocks * 512, entries.map FileEntry.ofBlock⟩ :=
    ⟨rfl, rfl, rfl, rfl, rfl, rfl, by rw [hentries, List.length_map, List.length_map,
      List.length_range]⟩
  have hfree : (32 ≤ (entries.map FileEntry.ofBlock).length ∧ ∀ i < 32,
      ∀ hi : i < (entries.map FileEntry.ofBlock).length,
        ((entries.map FileEntry.ofBlock).get ⟨i, hi⟩).isFree = true) ↔
      32 ≤ sb.fileTableNumBlocks.toNat % 256 ∧
        ∀ i < 32, dev.blocks (namedTable dev.blocks data + i) 0 = 0 := by
    have hlen : (entries.map FileEntry.ofBlock).length = sb.fileTableNumBlocks.toNat % 256 :=
      hindexed.length
    have hentry : ∀ i, ∀ hi : i < (entries.map FileEntry.ofBlock).length,
        ((entries.map FileEntry.ofBlock).get ⟨i, hi⟩).isFree = true ↔
          dev.blocks (namedTable dev.blocks data + i) 0 = 0 := by
      intro i hi
      have hget : (entries.map FileEntry.ofBlock).get ⟨i, hi⟩ =
          FileEntry.ofBlock (dev.blocks (namedTable dev.blocks data + i)) := by
        simp [hentries]
      rw [hget]
      exact decide_eq_true_iff
    constructor
    · exact fun ⟨henough, hall⟩ => ⟨hlen ▸ henough, fun i hi =>
        (hentry i (by omega)).mp (hall i hi (by omega))⟩
    · exact fun ⟨henough, hall⟩ => ⟨hlen.symm ▸ henough, fun i hi hlt =>
        (hentry i hlt).mpr (hall i hi)⟩
  rw [hdevice]
  constructor
  · rintro ⟨hres, hempty⟩
    obtain ⟨t, ht⟩ : ∃ t, fsMount (ideDevices lbaDrive) ⟨fs, dev⟩ (.partition data)
        (mountLba data) block = (t, 0) := ⟨_, Prod.ext rfl hres⟩
    obtain ⟨blocks, table, sb', hblocks, hsb', hsignature, hread, rfl⟩ := fsMount_eq_zero ht
    obtain ⟨hfits, rfl⟩ := (hsuper blocks).mp hblocks
    obtain rfl : sb' = sb := hsb'.trans hsb.symm
    obtain ⟨hbounds, hsectors, rfl⟩ := (htable table).mp hread
    rw [ht] at hempty
    obtain ⟨henough, hnames⟩ := hfree.mp ((infoByIndex_eq_none_iff hindexed).mp hempty)
    have hblock : block ≠ 0 := by
      rintro rfl
      rw [fsMount, hblocks] at hres
      dsimp only at hres
      rw [← hsb', if_neg (not_not.mpr hsignature), if_pos rfl] at hres
      cases hres
    rw [hsb] at hsignature hbounds hsectors henough
    exact ⟨hblock, hfits, hsignature, hbounds, hsectors, henough, hnames⟩
  · rintro ⟨hblock, h⟩
    have hread := (hsuper _).mpr ⟨h.super, rfl⟩
    have htable' := (htable entries).mpr ⟨hsb ▸ h.table, hsb ▸ h.sectors, rfl⟩
    have hmount : fsMount (ideDevices lbaDrive) ⟨fs, dev⟩ (.partition data) (mountLba data) block =
        (⟨⟨some (.partition data), mountLba data, sb, some ⟨block, sb.fileTableNumBlocks * 512,
          entries.map FileEntry.ofBlock⟩⟩, dev⟩, 0) := by
      have hhead : Superblock.ofBlock
          ([dev.blocks (partitionSector data (mountLba data))].headD zeroBlock) = sb := hsb.symm
      rw [fsMount, hread]
      dsimp only
      rw [hhead, if_neg (not_not.mpr (hsb ▸ h.signature)), if_neg hblock, htable']
    rw [hmount]
    exact ⟨rfl, (infoByIndex_eq_none_iff hindexed).mpr
      (hfree.mpr ⟨hsb ▸ h.enough, h.free⟩)⟩

end Mounted

/-! ### The partitions that are formatted and mounted -/

section RoundTrip

variable {data : PartitionData} {blocks : ℕ → Block}

/-- The sector that the pointer names. -/
theorem sectorOf_mountLba (data : PartitionData) :
    sectorOf (data.partitionLbaStart + mountLba data) =
      (data.partitionLbaStart.toNat + (mountLba data).toNat) % 2 ^ 28 := by
  rw [sectorOf, BitVec.toNat_add]
  omega

/-- The pointer names the superblock that was written just where the two partition numbers agree in
28 bits. -/
theorem emptySystem_iff_ownSystem (h : FormatFits data)
    (hown : sectorOf (data.partitionLbaStart + mountLba data) =
      2 * data.partitionLbaStart.toNat) :
    EmptySystem (formattedImage data blocks) data ↔ OwnSystem data := by
  obtain ⟨hsize, hsectors⟩ := h
  have hlt := (mountLba data).isLt
  have hltSize := data.partitionSize.isLt
  have hsb : namedSuperblock (formattedImage data blocks) data =
      newSuperblock data.partitionSize := by
    rw [namedSuperblock, hown, formattedImage, if_pos rfl, Superblock.ofBlock_toBlock]
  have hsector := sectorOf_mountLba data
  rw [hown] at hsector
  have htable : namedTable (formattedImage data blocks) data =
      2 * data.partitionLbaStart.toNat + 1 := by
    rw [namedTable, hsb]
    show sectorOf (data.partitionLbaStart + (mountLba data + 1)) = _
    rw [sectorOf, BitVec.toNat_add, BitVec.toNat_add]
    show (data.partitionLbaStart.toNat + ((mountLba data).toNat + 1) % 2 ^ 32) % 2 ^ 32 % 2 ^ 28 = _
    omega
  have hsuper : mountLba data + 1 ≤ data.partitionSize ↔
      ((mountLba data).toNat + 1) % 2 ^ 32 ≤ data.partitionSize.toNat := by
    rw [BitVec.le_def, BitVec.toNat_add]
    rfl
  have hbounds : mountLba data + 1 + 32 ≤ data.partitionSize ↔
      (((mountLba data).toNat + 1) % 2 ^ 32 + 32) % 2 ^ 32 ≤ data.partitionSize.toNat := by
    rw [BitVec.le_def, BitVec.toNat_add, BitVec.toNat_add]
    rfl
  constructor
  · intro hempty
    have hrange := hempty.table
    rw [hsb] at hrange
    have hrange' := hbounds.mp hrange
    exact ⟨by omega, by omega⟩
  · rintro ⟨hmod, hle⟩
    exact {
      super := hsuper.mpr (by omega)
      signature := by
        rw [hsb]
        rfl
      table := by
        rw [hsb]
        exact hbounds.mpr (by omega)
      sectors := by
        rw [htable, hsb]
        show 2 * data.partitionLbaStart.toNat + 1 + 32 % 256 ≤ 2 ^ 28
        omega
      enough := by
        rw [hsb]
        show 32 ≤ 32 % 256
        decide
      free := by
        intro i hi
        rw [htable, formattedImage, if_neg (by omega), if_pos (by omega)]
        rfl }

/-- The empty file systems that a mount finds after a format. -/
theorem emptySystem_iff (h : FormatFits data) :
    EmptySystem (formattedImage data blocks) data ↔ OwnSystem data ∨ OldSystem data blocks := by
  have hsector := sectorOf_mountLba data
  obtain ⟨hsize, hsectors⟩ := id h
  by_cases hown : sectorOf (data.partitionLbaStart + mountLba data) =
      2 * data.partitionLbaStart.toNat
  · rw [emptySystem_iff_ownSystem h hown]
    refine ⟨.inl, fun hor => hor.resolve_right fun hold => ?_⟩
    obtain ⟨hout, -⟩ := hold
    omega
  · have hno : ¬ OwnSystem data := by
      rintro ⟨hmod, -⟩
      omega
    by_cases hinside : 2 * data.partitionLbaStart.toNat <
        sectorOf (data.partitionLbaStart + mountLba data) ∧
        sectorOf (data.partitionLbaStart + mountLba data) ≤
          2 * data.partitionLbaStart.toNat + 32
    · -- a zeroed block is no superblock
      have hzero : (namedSuperblock (formattedImage data blocks) data).signature = 0 := by
        rw [namedSuperblock, formattedImage, if_neg hown, if_pos hinside]
        rfl
      constructor
      · intro hempty
        have hsignature := hempty.signature
        rw [hzero] at hsignature
        exact absurd hsignature (by decide)
      · rintro (hyes | ⟨hout, -⟩)
        · exact absurd hyes hno
        · omega
    · constructor
      · exact fun hempty => .inr ⟨by omega, hempty⟩
      · rintro (hyes | ⟨-, hempty⟩)
        · exact absurd hyes hno
        · exact hempty

/-- A partition is formatted inside of its bounds and mounted as an empty file system just where
the blocks fit when its start is added twice, memory for the table is there, and the low half of
the pointer to its data names the new superblock, or that of an old file system without a file. -/
theorem roundTrip_iff (data : PartitionData) (blocks : ℕ → Block) (fs : FsDisk IdeNode)
    (block : Word) : RoundTrip data blocks fs block ↔
      FormatFits data ∧ block ≠ 0 ∧ (OwnSystem data ∨ OldSystem data blocks) := by
  constructor
  · rintro ⟨hformat, hinside, hmount, hempty⟩
    have hfits := formatFits_of_formatted hformat hinside
    obtain ⟨-, -, himage⟩ := hfits.formatted blocks
    obtain ⟨hblock, hsystem⟩ := mount_iff_emptySystem.mp ⟨hmount, hempty⟩
    rw [himage, emptySystem_iff hfits] at hsystem
    exact ⟨hfits, hblock, hsystem⟩
  · rintro ⟨hfits, hblock, hsystem⟩
    obtain ⟨hformat, hinside, himage⟩ := hfits.formatted blocks
    rw [← emptySystem_iff hfits, ← himage] at hsystem
    obtain ⟨hmount, hempty⟩ := mount_iff_emptySystem.mpr ⟨hblock, hsystem⟩
    exact ⟨hformat, hinside, hmount, hempty⟩

/-- A partition of 100 sectors at sector 2048 is not formatted. -/
theorem not_roundTrip : ¬ ∀ data blocks fs block, 33 ≤ data.partitionSize → block ≠ 0 →
    RoundTrip data blocks fs block := by
  intro hall
  have hformat := (hall ⟨0xFFFFFFFF80200000, 2048, 100⟩ (fun _ => zeroBlock)
    ⟨none, 0, .ofBlock zeroBlock, none⟩ 0x1000 (by decide) (by decide)).format
  exact absurd hformat (by decide)

end RoundTrip

end KyroOS.Mount

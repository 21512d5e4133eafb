import KyroOS.Disk.Exits
import KyroOS.Disk.WriteThrough

/-!
# The space on the disk

The superblock counts the free blocks of the partition, and where the next of them is. A format
subtracts the 33 blocks of the metadata from the size of the partition, in 32 bits.

## Main definitions

* `Superblock.Balanced` — the blocks in front of the next free one and the free ones are all
* `Devices.recording` — a device that remembers which blocks are written
* `SpaceKept` — the blocks are accounted for from the format on, and no other block is written

## Main results

* `Spaced.run` — a call keeps the account
* `spaceKept_iff` — the blocks are accounted for just in partitions of 33 blocks or more
* `not_spaceKept` — a partition of 10 blocks is formatted with more than 4 billion free blocks
-/

namespace KyroOS.Disk

open Transition
open Vfs (CString)

/-- The blocks in front of the next free one, and the free ones behind it, are all there are. -/
def Superblock.Balanced (sb : Superblock) : Prop :=
  sb.nextFreeBlock.toNat + sb.freeBlocks.toNat = sb.totalBlocks.toNat

section Space

variable {ν σ : Type}

/-- The device, which also remembers the blocks that it was told to write. -/
def Devices.recording (D : Devices ν σ) : Devices ν (σ × List (BitVec 32)) where
  read := fun node dev lba n => D.read node dev.1 lba n
  write := fun node dev lba b =>
    (((D.write node dev.1 lba b).1, dev.2 ++ [lba]), (D.write node dev.1 lba b).2)

/-- The blocks that were written lie in the partition that is mounted. -/
def WritesInside (s : FsState ν (σ × List (BitVec 32))) : Prop :=
  ∀ a ∈ s.dev.2, (a - s.fs.mountedPartitionLba).toNat < s.fs.currentSuperblock.totalBlocks.toNat

/-- The superblock accounts for the blocks after a format, and after every sequence of calls; and
no call writes to a block that is not there. -/
structure SpaceKept (D : Devices ν σ) (node : ν) (view : σ → BitVec 32 → Block) (dev : σ)
    (lba size : BitVec 32) : Prop where
  formatted : (Superblock.ofBlock (view (fsFormat D dev node lba size).1 lba)).Balanced
  kept : ∀ s, (diskSystem D node lba size).Reachable s → s.fs.currentSuperblock.Balanced
  inside : ∀ s, (diskSystem D node lba size).Reachable s → ∀ (e : FileCall) t r,
    e.run D.recording ⟨s.fs, (s.dev, [])⟩ = .ok (t, r) → WritesInside t

variable {D : Devices ν σ} {node : ν} {view : σ → BitVec 32 → Block} {s t : FsState ν σ}
  {c : Cache} {lba size : BitVec 32}

/-! ### The counters -/

/-- A block that is taken is counted. -/
theorem Superblock.Balanced.allocated {sb : Superblock} (h : sb.Balanced) :
    (Disk.allocated sb).Balanced := by
  rcases allocated_cases sb with ⟨-, heq, -⟩ | ⟨hfree, heq, -⟩
  · rw [heq]
    exact h
  · rw [heq]
    have hpos : sb.freeBlocks.toNat ≠ 0 := fun h0 => hfree (BitVec.eq_of_toNat_eq h0)
    have hlt := sb.totalBlocks.isLt
    have hsum : sb.nextFreeBlock.toNat + sb.freeBlocks.toNat = sb.totalBlocks.toNat := h
    show (sb.nextFreeBlock + 1).toNat + (sb.freeBlocks - 1).toNat = sb.totalBlocks.toNat
    rw [BitVec.toNat_add, BitVec.toNat_sub]
    show (sb.nextFreeBlock.toNat + 1) % 2 ^ 32 + (2 ^ 32 - 1 + sb.freeBlocks.toNat) % 2 ^ 32 = _
    omega

/-- The data of a file that is not refused fits behind its first block. -/
theorem Superblock.Balanced.first_add_le {sb : Superblock} (h : sb.Balanced) {n : ℕ}
    (hroom : n ≤ sb.freeBlocks.toNat) (hpos : 0 < n) :
    (firstBlock sb).toNat + n ≤ sb.totalBlocks.toNat := by
  rcases allocated_cases sb with ⟨hfree, -, -⟩ | ⟨-, -, hfirst⟩
  · rw [hfree] at hroom
    exact absurd hroom (not_le.mpr hpos)
  · rw [hfirst, ← h]
    omega

/-- The account after a format is right just when the metadata fits. -/
theorem balanced_newSuperblock (size : BitVec 32) :
    (newSuperblock size).Balanced ↔ 33 ≤ size.toNat := by
  have hlt := size.isLt
  show (33 : BitVec 32).toNat + (size - 33).toNat = size.toNat ↔ _
  rw [BitVec.toNat_sub]
  show 33 + (2 ^ 32 - 33 + size.toNat) % 2 ^ 32 = size.toNat ↔ _
  omega

/-! ### Runs -/

/-- A mounted table, and a superblock that accounts for the blocks of the partition. -/
structure Spaced (node : ν) (size : BitVec 32) (s : FsState ν σ) (c : Cache) : Prop where
  table : Table node s c
  balanced : s.fs.currentSuperblock.Balanced
  total : s.fs.currentSuperblock.totalBlocks = size

theorem Spaced.congr (h : Spaced node size s c) (hfs : t.fs = s.fs) : Spaced node size t c where
  table := h.table.congr hfs
  balanced := by rw [hfs]; exact h.balanced
  total := by rw [hfs]; exact h.total

theorem Spaced.setEntry {e : FileEntry} (h : Spaced node size s c) (idx : ℕ)
    (he : e.filename 59 = 0) : Spaced node size (s.setEntry idx e) (c.set idx e) :=
  ⟨h.table.setEntry he, h.balanced, h.total⟩

theorem Spaced.allocateBlock (h : Spaced node size s c) :
    Spaced node size (allocateBlock D s).1 c := by
  have hfs := (allocateBlock_fs (D := D) (s := s)).1
  obtain ⟨hnode, hcache, hsize, hlength, hnames, hstart, hnum⟩ := h.table
  refine ⟨⟨?_, ?_, hsize, hlength, hnames, ?_, ?_⟩, ?_, ?_⟩ <;> rw [hfs]
  · exact hnode
  · exact hcache
  · exact allocated_start.trans hstart
  · exact allocated_num.trans hnum
  · exact h.balanced.allocated
  · exact allocated_total.trans h.total

theorem Spaced.dataState {idx : ℕ} {e : FileEntry} (h : Spaced node size s c)
    (he : s.entry idx = .ok e) : ∃ c', Spaced node size (dataState D s idx e) c' := by
  have hname : e.filename 59 = 0 := h.table.filename_of_entry he
  exact ⟨_, h.allocateBlock.setEntry (e := { e with startBlock := _ }) idx hname⟩

/-- A call keeps the account. -/
theorem Spaced.run {e : FileCall} {r : Int} (h : Spaced node size s c)
    (hrun : e.run D s = .ok (t, r)) : ∃ c', Spaced node size t c' := by
  cases e with
  | create path flags =>
    rcases updateFileTable_of_fsCreateFile hrun with rfl | ⟨idx, ok, hupdate⟩
    · exact ⟨c, h⟩
    · exact ⟨_, (h.setEntry idx rfl).congr (updateFileTable_fs hupdate)⟩
  | write path data =>
    rcases fsWriteFile_exits hrun with
      ⟨rfl, -, -⟩ | ⟨idx, e, -, he, -, ⟨hdata, -⟩ | ⟨u, ok, hdata, hupdate, -⟩⟩
    · exact ⟨c, h⟩
    · obtain ⟨c', hstate⟩ := h.dataState (D := D) he
      exact ⟨c', hstate.congr ((congrArg (·.1.fs) hdata).symm.trans (writeData_fs ..))⟩
    · obtain ⟨c', hstate⟩ := h.dataState (D := D) he
      have hu : Spaced node size u c' :=
        hstate.congr ((congrArg (·.1.fs) hdata).symm.trans (writeData_fs ..))
      have hname : e.filename 59 = 0 := h.table.filename_of_entry he
      exact ⟨_, (hu.setEntry (e := writtenEntry s e data) idx hname).congr
        (updateFileTable_fs hupdate)⟩
  | delete path =>
    rcases updateFileTable_of_fsDeleteFile hrun with rfl | ⟨idx, ok, hupdate⟩
    · exact ⟨c, h⟩
    · exact ⟨_, (h.setEntry idx rfl).congr (updateFileTable_fs hupdate)⟩

/-- The blocks are accounted for in every run on a partition that is large enough. -/
theorem spaced_of_reachable (hD : Stores D node view) (hsize : 33 ≤ size.toNat)
    (h : (diskSystem D node lba size).Reachable s) : ∃ c, Spaced node size s c := by
  refine h.invariant (I := fun s => ∃ c, Spaced node size s c) (fun s hs => ?_)
    fun s e t hs _ hstep => ?_
  swap
  · obtain ⟨c, hc⟩ := hs
    obtain ⟨r, hrun⟩ := hstep
    exact hc.run hrun
  obtain ⟨block, htable, hsb, -⟩ := table_init hD hs
  exact ⟨_, htable, hsb ▸ (balanced_newSuperblock size).mpr hsize, hsb ▸ rfl⟩

/-! ### The blocks that are written -/

section Recording

variable {s t : FsState ν (σ × List (BitVec 32))}

theorem WritesInside.writeBlock (h : WritesInside s) {j : BitVec 32} (b : Block)
    (hj : j.toNat < s.fs.currentSuperblock.totalBlocks.toNat) :
    WritesInside (writeBlock D.recording s j b).1 := by
  rw [Disk.writeBlock]
  split
  · exact h
  · intro a ha
    rcases List.mem_append.mp ha with hold | hnew
    · exact h a hold
    · obtain rfl := List.mem_singleton.mp hnew
      show (s.fs.mountedPartitionLba + j - s.fs.mountedPartitionLba).toNat < _
      rw [BitVec.add_comm, BitVec.add_sub_cancel]
      exact hj

/-- The loop over the file table writes the blocks behind the superblock. -/
theorem WritesInside.writeTable {c : Cache} {r : Bool} (n i : ℕ) (h : WritesInside s)
    (hstart : s.fs.currentSuperblock.fileTableStartBlock = 1)
    (hlast : i + n < s.fs.currentSuperblock.totalBlocks.toNat)
    (hwrite : writeTable D.recording c n i s = .ok (t, r)) : WritesInside t := by
  induction n generalizing i s with
  | zero =>
    rw [← (Prod.mk.inj (Except.ok.inj hwrite)).1]
    exact h
  | succ n ih =>
    rw [Disk.writeTable] at hwrite
    obtain ⟨e, -, hrest⟩ := Outcome.bind_eq_ok.mp hwrite
    have hlba : (s.fs.currentSuperblock.fileTableStartBlock + BitVec.ofNat 32 i).toNat <
        s.fs.currentSuperblock.totalBlocks.toNat := by
      have hlt := s.fs.currentSuperblock.totalBlocks.isLt
      rw [hstart, BitVec.toNat_add, BitVec.toNat_ofNat]
      show (1 + i % 2 ^ 32) % 2 ^ 32 < _
      omega
    have hblock := h.writeBlock (D := D) e.toBlock hlba
    have hfs := writeBlock_fs (D := D.recording) (s := s)
      (s.fs.currentSuperblock.fileTableStartBlock + BitVec.ofNat 32 i) e.toBlock
    split at hrest
    next u heq =>
      rw [heq] at hblock hfs
      exact ih (i + 1) hblock (by rw [hfs]; exact hstart) (by rw [hfs]; omega) hrest
    next u heq =>
      rw [heq] at hblock
      rw [← (Prod.mk.inj (Except.ok.inj hrest)).1]
      exact hblock

theorem WritesInside.updateFileTable {r : Bool} {c : Cache} (h : WritesInside s)
    (htable : Table node s c) (hsize : 33 ≤ s.fs.currentSuperblock.totalBlocks.toNat)
    (hupdate : updateFileTable D.recording s = .ok (t, r)) : WritesInside t := by
  rw [Disk.updateFileTable, htable.cache] at hupdate
  have hnum : s.fs.currentSuperblock.fileTableNumBlocks.toNat = 32 := by
    rw [htable.num]
    rfl
  exact h.writeTable _ 0 htable.start (by omega) hupdate

/-- The loop over the data writes the blocks from the first one on. -/
theorem WritesInside.writeData {first : BitVec 32} (data : List Byte) (n i : ℕ)
    (h : WritesInside s)
    (hlast : 0 < n → first.toNat + (i + n) ≤ s.fs.currentSuperblock.totalBlocks.toNat) :
    WritesInside (writeData D.recording first data n i s).1 := by
  induction n generalizing i s with
  | zero => exact h
  | succ n ih =>
    have hle := hlast n.succ_pos
    have hlt := s.fs.currentSuperblock.totalBlocks.isLt
    have hlba : (first + BitVec.ofNat 32 i).toNat <
        s.fs.currentSuperblock.totalBlocks.toNat := by
      rw [BitVec.toNat_add, BitVec.toNat_ofNat]
      omega
    have hblock := h.writeBlock (D := D) (dataBlock data (blockOffset i)) hlba
    have hfs := writeBlock_fs (D := D.recording) (s := s) (first + BitVec.ofNat 32 i)
      (dataBlock data (blockOffset i))
    rw [Disk.writeData]
    split
    next u heq =>
      rw [heq] at hblock hfs
      exact ih (i + 1) hblock fun _ => by rw [hfs]; omega
    next u heq =>
      rw [heq] at hblock
      exact hblock

theorem WritesInside.setEntry {idx : ℕ} {e : FileEntry} (h : WritesInside s) :
    WritesInside (s.setEntry idx e) := h

theorem WritesInside.allocateBlock (h : WritesInside s)
    (hsize : 33 ≤ s.fs.currentSuperblock.totalBlocks.toNat) :
    WritesInside (allocateBlock D.recording s).1 := by
  rw [Disk.allocateBlock]
  split_ifs
  · exact h
  · refine WritesInside.writeBlock (D := D) ?_ _ (lt_of_lt_of_le (by decide) hsize)
    exact h

/-- No call writes outside of the partition, over a table and a superblock that account for it. -/
theorem WritesInside.run {e : FileCall} {r : Int} {c : Cache} (h : WritesInside s)
    (hs : Spaced node size s c) (hsize : 33 ≤ size.toNat)
    (hrun : e.run D.recording s = .ok (t, r)) : WritesInside t := by
  have htotal : 33 ≤ s.fs.currentSuperblock.totalBlocks.toNat := hs.total ▸ hsize
  cases e with
  | create path flags =>
    rcases updateFileTable_of_fsCreateFile hrun with rfl | ⟨idx, ok, hupdate⟩
    · exact h
    · exact h.setEntry.updateFileTable (hs.setEntry idx rfl).table htotal hupdate
  | write path data =>
    rcases fsWriteFile_exits hrun with
      ⟨rfl, -, -⟩ | ⟨idx, e, -, he, ⟨-, hroom⟩, hdata⟩
    · exact h
    obtain ⟨c', hstate⟩ := hs.dataState (D := D.recording) he
    have hinside : WritesInside (dataState D.recording s idx e) :=
      (h.allocateBlock htotal).setEntry
    have hlast : 0 < needed data → (firstBlock s.fs.currentSuperblock).toNat +
        (0 + needed data) ≤
          (dataState D.recording s idx e).fs.currentSuperblock.totalBlocks.toNat := by
      intro hpos
      rw [Nat.zero_add, hstate.total, ← hs.total]
      exact hs.balanced.first_add_le hroom hpos
    have hwritten := hinside.writeData (D := D) data (needed data) 0 hlast
    rcases hdata with ⟨hdata, -⟩ | ⟨u, ok, hdata, hupdate, -⟩
    · rw [hdata] at hwritten
      exact hwritten
    · rw [hdata] at hwritten
      have hu : Spaced node size u c' :=
        hstate.congr ((congrArg (·.1.fs) hdata).symm.trans (writeData_fs ..))
      have hname : e.filename 59 = 0 := hs.table.filename_of_entry he
      exact hwritten.setEntry.updateFileTable
        (hu.setEntry (e := writtenEntry s e data) idx hname).table (hu.total ▸ hsize) hupdate
  | delete path =>
    rcases updateFileTable_of_fsDeleteFile hrun with rfl | ⟨idx, ok, hupdate⟩
    · exact h
    · exact h.setEntry.updateFileTable (hs.setEntry idx rfl).table htotal hupdate

end Recording

/-! ### All sizes -/

/-- A format that succeeds writes the superblock of the size. -/
theorem superblock_fsFormat (hD : Stores D node view) {dev : σ}
    (hok : (fsFormat D dev node lba size).2 = 0) :
    Superblock.ofBlock (view (fsFormat D dev node lba size).1 lba) = newSuperblock size := by
  have hview := (fsFormat_spec hD hok).1
  rw [show lba + BitVec.ofNat 32 0 = lba from BitVec.add_zero lba] at hview
  rw [hview, Superblock.ofBlock_toBlock]

/-- Where the format succeeds, the blocks are accounted for just when the partition has room for
the metadata. -/
theorem spaceKept_iff (hD : Stores D node view) {dev : σ}
    (hok : (fsFormat D dev node lba size).2 = 0) :
    SpaceKept D node view dev lba size ↔ 33 ≤ size.toNat := by
  have hformatted := superblock_fsFormat hD hok
  constructor
  · intro h
    exact (balanced_newSuperblock size).mp (hformatted ▸ h.formatted)
  · intro hsize
    refine ⟨hformatted ▸ (balanced_newSuperblock size).mpr hsize, fun s hs => ?_,
      fun s hs e t r hrun => ?_⟩
    · obtain ⟨c, hc⟩ := spaced_of_reachable hD hsize hs
      exact hc.balanced
    · obtain ⟨c, hc⟩ := spaced_of_reachable hD hsize hs
      have hstart : WritesInside (⟨s.fs, (s.dev, [])⟩ : FsState ν (σ × List (BitVec 32))) :=
        fun a ha => absurd ha List.not_mem_nil
      have hrec : Spaced node size (⟨s.fs, (s.dev, [])⟩ : FsState ν (σ × List (BitVec 32))) c :=
        ⟨⟨hc.table.node, hc.table.cache, hc.table.size, hc.table.length, hc.table.names,
          hc.table.start, hc.table.num⟩, hc.balanced, hc.total⟩
      exact hstart.run hrec hsize hrun

end Space

/-! ### Two sizes -/

/-- A partition of 40 blocks. -/
theorem spaceKept_40 : SpaceKept imageDevices () id (fun _ => zeroBlock) 63 40 :=
  (spaceKept_iff imageDevices_backs.stores (by rfl)).mpr (by decide)

/-- A partition of 10 blocks is formatted, and has 2³² − 23 free blocks. -/
theorem not_spaceKept : ¬ ∀ size, (fsFormat imageDevices (fun _ => zeroBlock) () 63 size).2 = 0 →
    SpaceKept imageDevices () id (fun _ => zeroBlock) 63 size := by
  intro hall
  have hok : (fsFormat imageDevices (fun _ => zeroBlock) () 63 10).2 = 0 := by rfl
  have hbalanced := (hall 10 hok).formatted
  rw [superblock_fsFormat imageDevices_backs.stores hok, balanced_newSuperblock] at hbalanced
  exact absurd hbalanced (by decide)

end KyroOS.Disk

import KyroOS.Disk.Table

/-!
# The calls for a file

What `fs_create_file`, `fs_delete_file` and `fs_write_file` do to a mounted file table, each said
once with all of its exits.

## Main definitions

* `Stored` — one entry of the table has changed, in the cache and on the disk
* `allocated`, `firstBlock` — the superblock after a block is allocated, and the block
* `Writes` — a write that is not refused

## Main results

* `fsCreateFile_spec`, `fsDeleteFile_spec`, `fsWriteFile_spec` — the exits of the calls
-/

namespace KyroOS.Disk

open Vfs (CString)

section Calls

variable {ν σ : Type} {D : Devices ν σ} {node : ν} {view : σ → BitVec 32 → Block}
  {s s' : FsState ν σ} {c : Cache}

/-- Where the superblock keeps the shape of the table, a table with another entry is one. -/
theorem Table.of_set {sb : Superblock} {idx : ℕ} {e : FileEntry} (h : Table node s c)
    (hfs : s'.fs = { s.fs with currentSuperblock := sb, fileTableCache := some (c.set idx e) })
    (he : e.filename 59 = 0) (hstart : sb.fileTableStartBlock = 1)
    (hnum : sb.fileTableNumBlocks = 32) : Table node s' (c.set idx e) := by
  have hset := h.setEntry (i := idx) he
  exact {
    node := by rw [hfs]; exact h.node
    cache := by rw [hfs]
    size := hset.size
    length := hset.length
    names := hset.names
    start := by rw [hfs]; exact hstart
    num := by rw [hfs]; exact hnum }

/-- The globals have the superblock `sb` and the table with the entry `e`, and the table on the
disk is that in the cache. -/
structure Stored (view : σ → BitVec 32 → Block) (s : FsState ν σ) (c : Cache) (sb : Superblock)
    (idx : ℕ) (e : FileEntry) (s' : FsState ν σ) : Prop where
  fs : s'.fs = { s.fs with currentSuperblock := sb, fileTableCache := some (c.set idx e) }
  table : ∀ j, ∀ hj : j < (c.set idx e).entries.length,
    s'.blockAt view (j + 1) = ((c.set idx e).entries.get ⟨j, hj⟩).toBlock

/-- Where the superblock keeps the shape of the table, the table is stored as a table. -/
theorem Stored.table_of {sb : Superblock} {idx : ℕ} {e : FileEntry}
    (hstored : Stored view s c sb idx e s') (h : Table node s c) (he : e.filename 59 = 0)
    (hstart : sb.fileTableStartBlock = 1) (hnum : sb.fileTableNumBlocks = 32) :
    Table node s' (c.set idx e) :=
  h.of_set hstored.fs he hstart hnum

/-- An entry is set in the cache, and the table written. -/
theorem setEntry_spec (hD : Backs D node view) (h : Table node s c) (idx : ℕ) {e : FileEntry}
    (he : e.filename 59 = 0) : ∃ s', updateFileTable D (s.setEntry idx e) = .ok (s', true) ∧
      Stored view s c s.fs.currentSuperblock idx e s' ∧
      ∀ j < 2 ^ 32, j < 1 ∨ 32 < j → s'.blockAt view j = s.blockAt view j := by
  have hset := h.setEntry (i := idx) he
  obtain ⟨dev, hupdate, hkeep, hnew⟩ := updateFileTable_spec hD hset
  refine ⟨_, hupdate, ⟨?_, hnew⟩, hkeep⟩
  show (s.setEntry idx e).fs = _
  rw [← hset.cache]
  rfl

/-- `fs_create_file` refuses, or stores a new entry in the place of a free one. -/
theorem fsCreateFile_spec (hD : Backs D node view) (h : Table node s c) (path : CString)
    (flags : BitVec 32) : fsCreateFile D s path flags = .ok (s, -1) ∨
      ∃ s' idx, ∃ hidx : idx < 32, fsCreateFile D s path flags = .ok (s', 0) ∧
        findFreeFileEntry s.fs.fileTableCache = .ok (some idx) ∧
        (c.entries.get ⟨idx, h.length ▸ hidx⟩).isFree = true ∧
        Stored view s c s.fs.currentSuperblock idx
          { FileEntry.zero with filename := copyFilename path, flags } s' ∧
        ∀ j < 2 ^ 32, j < 1 ∨ 32 < j → s'.blockAt view j = s.blockAt view j := by
  rw [fsCreateFile, h.node]
  dsimp only
  rcases findFileEntry_spec h path with hfind | ⟨i, -, hfind, -⟩
  · rw [hfind]
    rcases findFreeFileEntry_spec h with hfree | ⟨idx, hidx, hfree, hisFree⟩
    · rw [hfree]
      exact .inl rfl
    · obtain ⟨s', hupdate, hstored, hkeep⟩ := setEntry_spec hD h idx
        (e := { FileEntry.zero with filename := copyFilename path, flags }) rfl
      refine .inr ⟨s', idx, hidx, ?_, hfree, hisFree, hstored, hkeep⟩
      rw [hfree]
      show (updateFileTable D _ >>= _) = _
      rw [hupdate]
      rfl
  · rw [hfind]
    exact .inl rfl

/-- `fs_delete_file` refuses, or clears the entry of the name. -/
theorem fsDeleteFile_spec (hD : Backs D node view) (h : Table node s c) (path : CString) :
    fsDeleteFile D s path = .ok (s, -1) ∧ findFileEntry path s.fs.fileTableCache = .ok none ∨
      ∃ s' idx, idx < 32 ∧ fsDeleteFile D s path = .ok (s', 0) ∧
        findFileEntry path s.fs.fileTableCache = .ok (some idx) ∧
        Stored view s c s.fs.currentSuperblock idx FileEntry.zero s' ∧
        ∀ j < 2 ^ 32, j < 1 ∨ 32 < j → s'.blockAt view j = s.blockAt view j := by
  rw [fsDeleteFile, h.node]
  dsimp only
  rcases findFileEntry_spec h path with hfind | ⟨idx, hidx, hfind, -⟩
  · rw [hfind]
    exact .inl ⟨rfl, rfl⟩
  · obtain ⟨s', hupdate, hstored, hkeep⟩ := setEntry_spec hD h idx (e := FileEntry.zero) rfl
    refine .inr ⟨s', idx, hidx, ?_, hfind, hstored, hkeep⟩
    rw [hfind]
    show (updateFileTable D _ >>= _) = _
    rw [hupdate]
    rfl

/-! ### Writing a file -/

/-- The superblock after `allocate_block`. -/
def allocated (sb : Superblock) : Superblock :=
  if sb.freeBlocks = 0 then sb
  else { sb with nextFreeBlock := sb.nextFreeBlock + 1, freeBlocks := sb.freeBlocks - 1 }

/-- The block that `allocate_block` returns. -/
def firstBlock (sb : Superblock) : BitVec 32 := if sb.freeBlocks = 0 then 0 else sb.nextFreeBlock

theorem allocated_start {sb : Superblock} :
    (allocated sb).fileTableStartBlock = sb.fileTableStartBlock := by
  unfold allocated
  split_ifs <;> rfl

theorem allocated_num {sb : Superblock} :
    (allocated sb).fileTableNumBlocks = sb.fileTableNumBlocks := by
  unfold allocated
  split_ifs <;> rfl

theorem allocated_total {sb : Superblock} : (allocated sb).totalBlocks = sb.totalBlocks := by
  unfold allocated
  split_ifs <;> rfl

/-- `allocate_block` writes the superblock when it changes it. -/
theorem allocateBlock_spec (hD : Backs D node view) (h : Table node s c) : ∃ dev,
    allocateBlock D s = ({ fs := { s.fs with
        currentSuperblock := allocated s.fs.currentSuperblock }, dev },
      firstBlock s.fs.currentSuperblock) ∧
    ∀ j < 2 ^ 32, view dev (s.fs.mountedPartitionLba + BitVec.ofNat 32 j) =
      if j = 0 ∧ s.fs.currentSuperblock.freeBlocks ≠ 0 then
        (allocated s.fs.currentSuperblock).toBlock
      else s.blockAt view j := by
  rw [allocateBlock]
  by_cases hfree : s.fs.currentSuperblock.freeBlocks = 0
  · refine ⟨s.dev, ?_, fun j _ => by rw [if_neg fun h => h.2 hfree]; rfl⟩
    rw [if_pos hfree, allocated, if_pos hfree, firstBlock, if_pos hfree]
  · have hsb : allocated s.fs.currentSuperblock = { s.fs.currentSuperblock with
        nextFreeBlock := s.fs.currentSuperblock.nextFreeBlock + 1
        freeBlocks := s.fs.currentSuperblock.freeBlocks - 1 } := if_neg hfree
    obtain ⟨t, ht⟩ : ∃ t : FsState ν σ, t = { s with fs := { s.fs with
      currentSuperblock := allocated s.fs.currentSuperblock } } := ⟨_, rfl⟩
    have htnode : t.fs.mountedDiskNode = some node := by rw [ht]; exact h.node
    obtain ⟨dev, hwrite, hblock⟩ :=
      writeBlock_spec hD htnode 0 (allocated s.fs.currentSuperblock).toBlock
    refine ⟨dev, ?_, fun j hj => ?_⟩
    · rw [if_neg hfree, firstBlock, if_neg hfree, ← hsb]
      have hupdate : updateSuperblock D t = ({ t with dev }, true) := by
        rw [updateSuperblock, ht]
        rw [ht] at hwrite
        exact hwrite
      rw [ht] at hupdate
      show ((updateSuperblock D { s with fs := { s.fs with
        currentSuperblock := allocated s.fs.currentSuperblock } }).1, _) = _
      rw [hupdate]
    · have hj' := hblock j hj
      rw [ht] at hj'
      rw [FsState.blockAt] at hj'
      rw [hj']
      exact if_congr ⟨fun h0 => ⟨h0, hfree⟩, fun h0 => h0.1⟩ rfl rfl

/-- A write succeeds over such a device, wherever it goes. -/
theorem writeData_true (hD : Backs D node view) (first : BitVec 32) (data : List Byte) (n i : ℕ)
    (s : FsState ν σ) (hnode : s.fs.mountedDiskNode = some node) :
    ∃ dev, writeData D first data n i s = ({ s with dev }, true) := by
  induction n generalizing i s with
  | zero => exact ⟨s.dev, rfl⟩
  | succ n ih =>
    obtain ⟨dev, hwrite, -⟩ := writeBlock_spec hD hnode (first + BitVec.ofNat 32 i)
      (dataBlock data (blockOffset i))
    obtain ⟨dev', hrest⟩ := ih (i + 1) { s with dev } hnode
    refine ⟨dev', ?_⟩
    rw [writeData, hwrite]
    exact hrest

/-- The size of the data, as `size_t`. -/
def sizeOf (data : List Byte) : Word := BitVec.ofNat 64 data.length

/-- The number of blocks that a write of the data is taken to need. -/
def needed (data : List Byte) : ℕ := (neededBlocks (sizeOf data)).toNat

/-- A write to the entry is not refused. -/
def Writes (s : FsState ν σ) (e : FileEntry) (data : List Byte) : Prop :=
  e.flags &&& fsFileFlagFile ≠ 0 ∧ needed data ≤ s.fs.currentSuperblock.freeBlocks.toNat

/-- The entry after a write. -/
def writtenEntry (s : FsState ν σ) (e : FileEntry) (data : List Byte) : FileEntry :=
  { e with startBlock := firstBlock s.fs.currentSuperblock
           sizeBytes := (sizeOf data).setWidth 32 }

/-- `fs_write_file` refuses, or stores the entry behind the data. -/
theorem fsWriteFile_spec (hD : Backs D node view) (h : Table node s c) (path : CString)
    (data : List Byte) : fsWriteFile D s path data = .ok (s, -1) ∧
        (∀ idx, ∀ hidx : idx < 32, findFileEntry path s.fs.fileTableCache = .ok (some idx) →
          ¬ Writes s (c.entries.get ⟨idx, h.length ▸ hidx⟩) data) ∨
      ∃ s' idx, ∃ hidx : idx < 32,
        fsWriteFile D s path data = .ok (s', ((sizeOf data).setWidth 32).toInt) ∧
        findFileEntry path s.fs.fileTableCache = .ok (some idx) ∧
        Writes s (c.entries.get ⟨idx, h.length ▸ hidx⟩) data ∧
        Stored view s c (allocated s.fs.currentSuperblock) idx
          (writtenEntry s (c.entries.get ⟨idx, h.length ▸ hidx⟩) data) s' ∧
        ((firstBlock s.fs.currentSuperblock).toNat + needed data ≤ 2 ^ 32 →
          ∀ j < 2 ^ 32, j < 1 ∨ 32 < j → s'.blockAt view j =
            if (firstBlock s.fs.currentSuperblock).toNat ≤ j ∧
                j < (firstBlock s.fs.currentSuperblock).toNat + needed data then
              dataBlock data (blockOffset (j - (firstBlock s.fs.currentSuperblock).toNat))
            else if j = 0 ∧ s.fs.currentSuperblock.freeBlocks ≠ 0 then
              (allocated s.fs.currentSuperblock).toBlock
            else s.blockAt view j) := by
  rcases findFileEntry_spec h path with hfind | ⟨idx, hidx, hfind, -⟩
  · refine .inl ⟨?_, fun idx hidx hsome => ?_⟩
    · rw [fsWriteFile, hfind]
      rfl
    · rw [hfind] at hsome
      cases hsome
  · obtain ⟨e, he⟩ : ∃ e, e = c.entries.get ⟨idx, h.length ▸ hidx⟩ := ⟨_, rfl⟩
    have hentry : s.entry idx = .ok e := he ▸ h.entry hidx
    by_cases hwrites : Writes s e data
    swap
    · -- the entry is no file, or there is no room
      refine .inl ⟨?_, fun idx' hidx' hsome => ?_⟩
      · rw [fsWriteFile, hfind]
        show (s.entry idx >>= _) = _
        rw [hentry]
        show (if _ then _ else _) = _
        by_cases hflag : e.flags &&& fsFileFlagFile = 0
        · rw [if_pos hflag]
        · rw [if_neg hflag, if_pos]
          rw [BitVec.lt_def]
          exact not_le.mp fun hle => hwrites ⟨hflag, hle⟩
      · obtain rfl : idx = idx' := Option.some.inj (Except.ok.inj (hfind.symm.trans hsome))
        exact he ▸ hwrites
    · right
      obtain ⟨hflag, hroom⟩ := hwrites
      obtain ⟨dev₁, halloc, hblock₁⟩ := allocateBlock_spec hD h
      obtain ⟨s₁, hs₁⟩ : ∃ s₁ : FsState ν σ, s₁ = { fs := { s.fs with
        currentSuperblock := allocated s.fs.currentSuperblock }, dev := dev₁ } := ⟨_, rfl⟩
      have h₁ : Table node s₁ c := by
        rw [hs₁]
        exact ⟨h.node, h.cache, h.size, h.length, h.names, allocated_start.trans h.start,
          allocated_num.trans h.num⟩
      have hname : e.filename 59 = 0 := h.names e (he ▸ List.get_mem ..)
      obtain ⟨first, hfirst⟩ : ∃ first, first = firstBlock s.fs.currentSuperblock := ⟨_, rfl⟩
      have hname' : ({ e with startBlock := first } : FileEntry).filename 59 = 0 := hname
      have h₂ := h₁.setEntry (i := idx) hname'
      obtain ⟨s₂, hs₂⟩ : ∃ s₂, s₂ = s₁.setEntry idx { e with startBlock := first } := ⟨_, rfl⟩
      rw [← hs₂] at h₂
      obtain ⟨dev₃, hdata⟩ := writeData_true hD first data (needed data) 0 s₂ h₂.node
      obtain ⟨s₃, hs₃⟩ : ∃ s₃ : FsState ν σ, s₃ = { s₂ with dev := dev₃ } := ⟨_, rfl⟩
      have h₃ : Table node s₃ (c.set idx { e with startBlock := first }) := hs₃ ▸ h₂.of_dev
      have hwritten : (writtenEntry s e data).filename 59 = 0 := hname
      obtain ⟨s', hupdate, hstored, hkeep⟩ :=
        setEntry_spec hD h₃ idx (e := writtenEntry s e data) hwritten
      have hset := Cache.set_set c idx { e with startBlock := first } (writtenEntry s e data)
      have htable : ∀ j, ∀ hj : j < (c.set idx (writtenEntry s e data)).entries.length,
          s'.blockAt view (j + 1) =
            ((c.set idx (writtenEntry s e data)).entries.get ⟨j, hj⟩).toBlock := by
        rw [← hset]
        exact hstored.table
      have hfs₃ : s₃.fs = { s.fs with
          currentSuperblock := allocated s.fs.currentSuperblock
          fileTableCache := some (c.set idx { e with startBlock := first }) } := by
        rw [hs₃]
        show s₂.fs = _
        rw [← h₂.cache, hs₂, hs₁]
        rfl
      refine ⟨s', idx, hidx, ?_, hfind, he ▸ ⟨hflag, hroom⟩, ⟨?_, he ▸ htable⟩, ?_⟩
      · rw [fsWriteFile, hfind]
        show (s.entry idx >>= _) = _
        rw [hentry]
        show (if _ then _ else _) = _
        rw [if_neg hflag, if_neg]
        swap
        · rw [BitVec.lt_def]
          exact not_lt.mpr hroom
        rw [halloc]
        dsimp only
        rw [← hs₁, ← hfirst, ← hs₂]
        have hdata' : writeData D first data (neededBlocks (BitVec.ofNat 64 data.length)).toNat 0 s₂ =
            ({ s₂ with dev := dev₃ }, true) := hdata
        rw [hdata']
        dsimp only
        rw [← hs₃]
        rw [hfirst]
        show (updateFileTable D (s₃.setEntry idx (writtenEntry s e data)) >>= _) = _
        rw [hupdate]
        rfl
      · rw [hstored.fs, hset, hfs₃, he]
      · rw [← hfirst]
        intro hwrap j hj hout
        obtain ⟨dev₃', hdata', hkeepData, hnewData⟩ :=
          writeData_spec hD first data (needed data) 0 s₂ h₂.node (by omega)
        have hdev : ({ s₂ with dev := dev₃' } : FsState ν σ) = s₃ := by
          rw [hs₃]
          exact (Prod.mk.inj (hdata'.symm.trans hdata)).1
        rw [hdev] at hkeepData hnewData
        rw [hkeep j hj hout]
        split_ifs with hin hsuper
        · obtain ⟨hle, hlt⟩ := hin
          have hk := hnewData (j - first.toNat) (Nat.zero_le _) (by omega)
          rw [show first.toNat + (j - first.toNat) = j by omega] at hk
          exact hk
        · rw [hkeepData j hj (by omega), hs₂, hs₁]
          exact (hblock₁ j hj).trans (if_pos hsuper)
        · rw [hkeepData j hj (by omega), hs₂, hs₁]
          exact (hblock₁ j hj).trans (if_neg hsuper)

end Calls

end KyroOS.Disk

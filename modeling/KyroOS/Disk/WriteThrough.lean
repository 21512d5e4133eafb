import KyroOS.Disk.Calls

/-!
# The table on the disk

Every call for a file leaves the superblock and the file table on the disk as they are in memory:
it writes what it changes before it comes back, and the data goes to blocks behind the table. A
mount of the disk finds the live state in them.

## Main definitions

* `WrittenThrough` — the metadata on the disk is that in memory
* `Remounts` — a mount of the disk gives the live superblock and file table
* `Synced` — what makes it so in every reachable state

## Main results

* `synced_run` — a call keeps the metadata on the disk in step
* `writtenThrough_of_reachable` — every run of calls does
-/

namespace KyroOS.Disk

open Transition
open Vfs (CString)

section WriteThrough

variable {ν σ : Type} {D : Devices ν σ} {node : ν} {view : σ → BitVec 32 → Block}
  {s s' : FsState ν σ} {c : Cache} {lba size : BitVec 32}

/-- Block 0 is the superblock, and the blocks of the file table are the entries of the cache. -/
def WrittenThrough (view : σ → BitVec 32 → Block) (s : FsState ν σ) (c : Cache) : Prop :=
  s.blockAt view 0 = s.fs.currentSuperblock.toBlock ∧
    c.entries.length = s.fs.currentSuperblock.fileTableNumBlocks.toNat ∧
    ∀ j, ∀ hj : j < c.entries.length,
      s.blockAt view (s.fs.currentSuperblock.fileTableStartBlock.toNat + j) =
        (c.entries.get ⟨j, hj⟩).toBlock

/-- A mount of the disk in its present state succeeds, whatever the globals hold, and gives the
superblock and the file table of the live state. -/
def Remounts (D : Devices ν σ) (node : ν) (lba : BitVec 32) (s : FsState ν σ) (c : Cache) : Prop :=
  ∀ (s₀ : FsState ν σ) (block : Word), s₀.dev = s.dev → block ≠ 0 → Readable D node s.dev →
    ∃ t c', fsMount D s₀ node lba block = (t, 0) ∧
      t.fs.currentSuperblock = s.fs.currentSuperblock ∧
      t.fs.fileTableCache = some c' ∧ c'.entries = c.entries

/-- The metadata of the partition at `lba` is in step with the disk, and the blocks that are left
end with the partition. -/
structure Synced (node : ν) (view : σ → BitVec 32 → Block) (lba size : BitVec 32)
    (s : FsState ν σ) (c : Cache) : Prop where
  table : Table node s c
  lba : s.fs.mountedPartitionLba = lba
  signature : s.fs.currentSuperblock.signature = fsSignature
  behind : 33 ≤ s.fs.currentSuperblock.nextFreeBlock.toNat
  room : s.fs.currentSuperblock.nextFreeBlock.toNat + s.fs.currentSuperblock.freeBlocks.toNat =
    size.toNat
  super : s.blockAt view 0 = s.fs.currentSuperblock.toBlock
  entries : ∀ j, ∀ hj : j < c.entries.length,
    s.blockAt view (j + 1) = (c.entries.get ⟨j, hj⟩).toBlock

/-! ### What the invariant says -/

theorem Synced.writtenThrough (h : Synced node view lba size s c) : WrittenThrough view s c := by
  refine ⟨h.super, ?_, fun j hj => ?_⟩
  · rw [h.table.num]
    exact h.table.length
  · rw [h.table.start, ← h.entries j hj]
    exact congrArg (s.blockAt view) (Nat.add_comm 1 j)

/-- The entries of the table are read back from the disk. -/
theorem Synced.read_entries (h : Synced node view lba size s c) :
    ((List.range 32).map fun j => FileEntry.ofBlock
      (view s.dev (lba + 1 + BitVec.ofNat 32 j))) = c.entries := by
  apply List.ext_getElem
  · rw [List.length_map, List.length_range, h.table.length]
  · intro j hj hj'
    rw [List.getElem_map, List.getElem_range]
    have hindex : lba + 1 + BitVec.ofNat 32 j =
        s.fs.mountedPartitionLba + BitVec.ofNat 32 (j + 1) := by
      rw [h.lba, Nat.add_comm, BitVec.ofNat_add, BitVec.add_assoc]
      rfl
    have hentry : view s.dev (s.fs.mountedPartitionLba + BitVec.ofNat 32 (j + 1)) =
        (c.entries.get ⟨j, hj'⟩).toBlock := h.entries j hj'
    rw [hindex, hentry, FileEntry.ofBlock_toBlock]
    rfl

theorem Synced.remounts (hD : Backs D node view) (h : Synced node view lba size s c) :
    Remounts D node lba s c := by
  intro s₀ block hdev hblock hread
  have hsb : view s₀.dev lba = s.fs.currentSuperblock.toBlock := by
    rw [hdev, ← h.super, FsState.blockAt, h.lba]
    exact congrArg (view s.dev) (by simp)
  have hok := fsMount_succeeds hD.stores (hdev ▸ hread) hsb h.signature hblock
  refine ⟨_, _, fsMount_eq hD.stores hsb hok, rfl, rfl, ?_⟩
  rw [h.table.num, h.table.start, hdev]
  exact h.read_entries

/-! ### What the calls do to it -/

/-- The metadata stays in step where an entry is stored, and block 0 holds the superblock. -/
theorem Synced.of_stored {sb : Superblock} {idx : ℕ} {e : FileEntry}
    (h : Synced node view lba size s c) (hstored : Stored view s c sb idx e s')
    (he : e.filename 59 = 0) (hstart : sb.fileTableStartBlock = 1)
    (hnum : sb.fileTableNumBlocks = 32) (hsignature : sb.signature = fsSignature)
    (hbehind : 33 ≤ sb.nextFreeBlock.toNat)
    (hroom : sb.nextFreeBlock.toNat + sb.freeBlocks.toNat = size.toNat)
    (hsuper : s'.blockAt view 0 = sb.toBlock) : Synced node view lba size s' (c.set idx e) := by
  have hsb : s'.fs.currentSuperblock = sb := by rw [hstored.fs]
  exact {
    table := hstored.table_of h.table he hstart hnum
    lba := by
      rw [hstored.fs]
      exact h.lba
    signature := hsb ▸ hsignature
    behind := hsb ▸ hbehind
    room := hsb ▸ hroom
    super := hsb ▸ hsuper
    entries := hstored.table }

/-- What `allocate_block` does to the superblock: it takes a block from the front of those that
are left, if there is one. -/
theorem allocated_cases (sb : Superblock) :
    sb.freeBlocks = 0 ∧ allocated sb = sb ∧ firstBlock sb = 0 ∨
    sb.freeBlocks ≠ 0 ∧ allocated sb = { sb with
        nextFreeBlock := sb.nextFreeBlock + 1, freeBlocks := sb.freeBlocks - 1 } ∧
      firstBlock sb = sb.nextFreeBlock := by
  rw [allocated, firstBlock]
  by_cases hfree : sb.freeBlocks = 0
  · exact .inl ⟨hfree, if_pos hfree, if_pos hfree⟩
  · exact .inr ⟨hfree, if_neg hfree, if_neg hfree⟩

/-- A call comes back, and the metadata is in step again. -/
theorem synced_run (hD : Backs D node view) (h : Synced node view lba size s c) (e : FileCall) :
    ∃ s' r c', e.run D s = .ok (s', r) ∧ Synced node view lba size s' c' := by
  cases e with
  | create path flags =>
    rcases fsCreateFile_spec hD h.table path flags with
      hno | ⟨s', idx, -, hrun, -, -, hstored, hkeep⟩
    · exact ⟨s, -1, c, hno, h⟩
    · refine ⟨s', 0, _, hrun, h.of_stored hstored rfl h.table.start h.table.num h.signature
        h.behind h.room ?_⟩
      rw [hkeep 0 (by omega) (by omega)]
      exact h.super
  | delete path =>
    rcases fsDeleteFile_spec hD h.table path with ⟨hno, -⟩ | ⟨s', idx, -, hrun, -, hstored, hkeep⟩
    · exact ⟨s, -1, c, hno, h⟩
    · refine ⟨s', 0, _, hrun, h.of_stored hstored rfl h.table.start h.table.num h.signature
        h.behind h.room ?_⟩
      rw [hkeep 0 (by omega) (by omega)]
      exact h.super
  | write path data =>
    rcases fsWriteFile_spec hD h.table path data with
      ⟨hno, -⟩ | ⟨s', idx, hidx, hrun, -, hwrites, hstored, hblocks⟩
    · exact ⟨s, -1, c, hno, h⟩
    · have hold : (c.entries.get ⟨idx, h.table.length ▸ hidx⟩).filename 59 = 0 :=
        h.table.names _ (List.get_mem ..)
      have hname : (writtenEntry s (c.entries.get ⟨idx, h.table.length ▸ hidx⟩) data).filename 59 =
          0 := hold
      have hbehind := h.behind
      have hroom := h.room
      have hlt := size.isLt
      have hneeded := hwrites.2
      have hstart := allocated_start.trans h.table.start
      have hnum := allocated_num.trans h.table.num
      rcases allocated_cases s.fs.currentSuperblock with
        ⟨hfree, heq, hfirst⟩ | ⟨hfree, heq, hfirst⟩
      · -- no block is left, and none is needed
        have hzero : needed data = 0 := by
          rw [hfree] at hneeded
          exact Nat.le_zero.mp hneeded
        refine ⟨s', _, _, hrun, h.of_stored hstored hname hstart hnum ?_ ?_ ?_ ?_⟩
        · rw [heq]
          exact h.signature
        · rw [heq]
          exact hbehind
        · rw [heq]
          exact hroom
        · rw [hfirst] at hblocks
          rw [hblocks (by rw [hzero]; decide) 0 (by omega) (by omega), if_neg (by rw [hzero]; omega),
            if_neg fun h => h.2 hfree, heq]
          exact h.super
      · -- the data goes to the blocks that are left, all of them behind the table
        have hpos : 0 < s.fs.currentSuperblock.freeBlocks.toNat :=
          Nat.pos_of_ne_zero fun hzero => hfree (BitVec.eq_of_toNat_eq hzero)
        refine ⟨s', _, _, hrun, h.of_stored hstored hname hstart hnum ?_ ?_ ?_ ?_⟩
        · rw [heq]
          exact h.signature
        · rw [heq]
          show 33 ≤ (s.fs.currentSuperblock.nextFreeBlock + 1).toNat
          rw [BitVec.toNat_add]
          show 33 ≤ (s.fs.currentSuperblock.nextFreeBlock.toNat + 1) % 2 ^ 32
          omega
        · rw [heq]
          show (s.fs.currentSuperblock.nextFreeBlock + 1).toNat +
            (s.fs.currentSuperblock.freeBlocks - 1).toNat = size.toNat
          rw [BitVec.toNat_add, BitVec.toNat_sub]
          show (s.fs.currentSuperblock.nextFreeBlock.toNat + 1) % 2 ^ 32 +
            (2 ^ 32 - 1 + s.fs.currentSuperblock.freeBlocks.toNat) % 2 ^ 32 = size.toNat
          omega
        · rw [hfirst] at hblocks
          rw [hblocks (by omega) 0 (by omega) (by omega), if_neg (by omega), if_pos ⟨rfl, hfree⟩]

/-- A partition that was formatted and mounted is in step. -/
theorem synced_init (hD : Backs D node view) (hsize : 33 ≤ size.toNat)
    (h : FreshlyMounted D node lba size s) : ∃ c, Synced node view lba size s c := by
  obtain ⟨block, htable, hsb, hlba, hsuper, hblocks⟩ := table_init hD.stores h
  have hlt := size.isLt
  refine ⟨_, htable, hlba, ?_, ?_, ?_, ?_, fun j hj => ?_⟩
  · rw [hsb]
    rfl
  · rw [hsb]
    exact le_rfl
  · rw [hsb]
    show 33 + (size - 33).toNat = size.toNat
    rw [BitVec.toNat_sub]
    show 33 + (2 ^ 32 - 33 + size.toNat) % 2 ^ 32 = size.toNat
    omega
  · rw [hsb]
    exact hsuper
  · have hj' : j < 32 := by
      rw [← htable.length]
      exact hj
    rw [hblocks j hj', ← FileEntry.toBlock_ofBlock zeroBlock, FileEntry.ofBlock_zeroBlock]
    exact congrArg FileEntry.toBlock (List.eq_of_mem_replicate (List.get_mem _ _)).symm

theorem synced_of_reachable (hD : Backs D node view) (hsize : 33 ≤ size.toNat)
    (h : (diskSystem D node lba size).Reachable s) : ∃ c, Synced node view lba size s c := by
  apply h.invariant (I := fun s => ∃ c, Synced node view lba size s c)
  · exact fun s hs => synced_init hD hsize hs
  · rintro s e s' ⟨c, hc⟩ - ⟨r, hrun⟩
    obtain ⟨t, r', c', hrun', hc'⟩ := synced_run hD hc e
    rw [hrun] at hrun'
    obtain rfl := (Prod.mk.inj (Except.ok.inj hrun')).1
    exact ⟨c', hc'⟩

/-- In every run of calls on a new file system of at least 33 blocks, over a device whose writes
succeed, each call comes back, the metadata on the disk is that in memory, and a mount of the disk
gives the live file table and superblock. -/
theorem writtenThrough_of_reachable (hD : Backs D node view) (hsize : 33 ≤ size.toNat)
    (h : (diskSystem D node lba size).Reachable s) :
    (∀ e : FileCall, ∃ s' r, e.run D s = .ok (s', r)) ∧
      ∃ c, s.fs.fileTableCache = some c ∧ WrittenThrough view s c ∧ Remounts D node lba s c := by
  obtain ⟨c, hc⟩ := synced_of_reachable hD hsize h
  refine ⟨fun e => ?_, c, hc.table.cache, hc.writtenThrough, hc.remounts hD⟩
  obtain ⟨s', r, -, hrun, -⟩ := synced_run hD hc e
  exact ⟨s', r, hrun⟩

end WriteThrough

/-! ### A disk in memory -/

section Image

/-- A disk that holds its blocks in memory. -/
def imageDevices : Devices Unit (BitVec 32 → Block) where
  read := fun _ dev lba n => some ((List.range n.toNat).map fun i => dev (lba + BitVec.ofNat 32 i))
  write := fun _ dev lba b => (Function.update dev lba b, true)

theorem imageDevices_backs : Backs imageDevices () id where
  write := fun _ _ _ => ⟨rfl, rfl⟩
  read := fun _ _ _ _ h => (Option.some.inj h).symm

/-- The disk of 40 blocks at block 63 after it was formatted. -/
def imageFormatted : BitVec 32 → Block :=
  (fsFormat imageDevices (fun _ => zeroBlock) () 63 40).1

/-- The file system on it after it was mounted. -/
def imageMounted : FsState Unit (BitVec 32 → Block) :=
  (fsMount imageDevices ⟨⟨none, 0, Superblock.ofBlock zeroBlock, none⟩, imageFormatted⟩ () 63
    0x1000).1

theorem imageMounted_fresh : FreshlyMounted imageDevices () 63 40 imageMounted :=
  ⟨_, fun _ => zeroBlock, 0x1000, by rfl, rfl, Prod.ext rfl (by decide)⟩

/-- The metadata of the file system in memory is on its disk. -/
theorem writtenThrough_imageMounted :
    (∀ e : FileCall, ∃ s' r, e.run imageDevices imageMounted = .ok (s', r)) ∧
      ∃ c, imageMounted.fs.fileTableCache = some c ∧ WrittenThrough id imageMounted c ∧
        Remounts imageDevices () 63 imageMounted c :=
  writtenThrough_of_reachable imageDevices_backs (by decide) (.init imageMounted_fresh)

end Image

end KyroOS.Disk

import KyroOS.Disk.FsDisk

/-!
# A mount that fails

`fs_mount` frees the cached file table of the file system that is mounted before it has the new
one.

## Main definitions

* `NoSuperblock` — there is no file system to be mounted
* `smallDevices` — three nodes, one of which has a table that cannot be read

## Main results

* `fsMount_atomic_iff` — a mount that fails leaves everything as it was just where it fails before
  the table is freed, or where there is none
* `not_fsMount_atomic` — a failed mount takes away the mounted file table
-/

namespace KyroOS.Disk

section Mount

variable {ν σ : Type} {D : Devices ν σ} {s : FsState ν σ} {node : ν} {lba : BitVec 32} {block : Word}

/-- The superblock of the node cannot be read, or is not one of this file system. -/
def NoSuperblock (D : Devices ν σ) (s : FsState ν σ) (node : ν) (lba : BitVec 32) : Prop :=
  ∀ blocks, D.read node s.dev (lba + 0) 1 = some blocks →
    (Superblock.ofBlock (blocks.headD zeroBlock)).signature ≠ fsSignature

/-- The exits of `fs_mount`. -/
theorem fsMount_cases (D : Devices ν σ) (s : FsState ν σ) (node : ν) (lba : BitVec 32)
    (block : Word) : fsMount D s node lba block = (s, -1) ∧ NoSuperblock D s node lba ∨
    ¬ NoSuperblock D s node lba ∧ (fsMount D s node lba block =
        ({ s with fs := { s.fs with fileTableCache := none } }, -1) ∨
      ∃ (blocks table : List Block) (superblock : Superblock),
        D.read node s.dev (lba + 0) 1 = some blocks ∧
        superblock = Superblock.ofBlock (blocks.headD zeroBlock) ∧
        superblock.signature = fsSignature ∧
        D.read node s.dev (lba + superblock.fileTableStartBlock) superblock.fileTableNumBlocks =
          some table ∧
        fsMount D s node lba block =
          ({ s with fs := ⟨some node, lba, superblock, some ⟨block,
            superblock.fileTableNumBlocks * 512, table.map FileEntry.ofBlock⟩⟩ }, 0)) := by
  rw [fsMount]
  cases hread : D.read node s.dev (lba + 0) 1 with
  | none =>
    refine .inl ⟨rfl, fun blocks hblocks => ?_⟩
    rw [hread] at hblocks
    cases hblocks
  | some blocks =>
    dsimp only
    split_ifs with hsignature hblock
    · refine .inl ⟨rfl, fun blocks' hblocks' => ?_⟩
      obtain rfl := Option.some.inj (hread.symm.trans hblocks')
      exact hsignature
    · exact .inr ⟨fun hno => hsignature (hno blocks hread), .inl rfl⟩
    · refine .inr ⟨fun hno => hsignature (hno blocks hread), ?_⟩
      split
      · exact .inl rfl
      next table htable =>
        exact .inr ⟨blocks, table, _, rfl, rfl, not_not.mp hsignature, htable, rfl⟩

/-- A mount that succeeds has read a superblock and a table. -/
theorem fsMount_eq_zero {t : FsState ν σ} (h : fsMount D s node lba block = (t, 0)) :
    ∃ (blocks table : List Block) (superblock : Superblock),
      D.read node s.dev (lba + 0) 1 = some blocks ∧
      superblock = Superblock.ofBlock (blocks.headD zeroBlock) ∧
      superblock.signature = fsSignature ∧
      D.read node s.dev (lba + superblock.fileTableStartBlock) superblock.fileTableNumBlocks =
        some table ∧
      t = { s with fs := ⟨some node, lba, superblock, some ⟨block,
        superblock.fileTableNumBlocks * 512, table.map FileEntry.ofBlock⟩⟩ } := by
  rcases fsMount_cases D s node lba block with
    ⟨heq, -⟩ | ⟨-, heq | ⟨blocks, table, superblock, hblocks, hsb, hsignature, htable, heq⟩⟩
  · rw [heq] at h
    cases h
  · rw [heq] at h
    cases h
  · exact ⟨blocks, table, superblock, hblocks, hsb, hsignature, htable,
      (Prod.mk.inj (h.symm.trans heq)).1⟩

/-- A mount that fails leaves the globals, the cached table and the devices as they were just
where it finds no superblock, or where no table was cached. -/
theorem fsMount_atomic_iff (h : (fsMount D s node lba block).2 = -1) :
    (fsMount D s node lba block).1 = s ↔
      NoSuperblock D s node lba ∨ s.fs.fileTableCache = none := by
  rcases fsMount_cases D s node lba block with ⟨heq, hno⟩ | ⟨hyes, heq | ⟨_, _, superblock, -, -, -, -, heq⟩⟩
  · rw [heq]
    exact iff_of_true rfl (.inl hno)
  · rw [heq]
    constructor
    · intro hsame
      have hcache := congrArg (fun t : FsState ν σ => t.fs.fileTableCache) hsame
      exact .inr hcache.symm
    · rintro (hno | hnone)
      · exact absurd hno hyes
      · obtain ⟨⟨node', lba', superblock', cache⟩, dev⟩ := s
        obtain rfl : cache = none := hnone
        rfl
  · rw [heq] at h
    cases h

end Mount

/-! ### Three small disks -/

section Small

/-- A disk with a new file system, one whose table cannot be read, and one that cannot be read. -/
inductive SmallNode
  | healthy
  | noTable
  | unreadable

/-- The disks. -/
def smallDevices : Devices SmallNode Unit where
  read := fun node _ lba n =>
    let blocks := (List.range n.toNat).map fun i =>
      if lba + BitVec.ofNat 32 i = 0 then (newSuperblock 40).toBlock else zeroBlock
    match node with
    | .healthy => some blocks
    | .noTable => if lba = 0 ∧ n = 1 then some blocks else none
    | .unreadable => none
  write := fun _ dev _ _ => (dev, true)

/-- The file system of the first disk is mounted. -/
def smallMounted : FsState SmallNode Unit :=
  (fsMount smallDevices ⟨⟨none, 0, Superblock.ofBlock zeroBlock, none⟩, ()⟩ .healthy 0 0x1000).1

/-- A disk that cannot be read is not mounted, and nothing changes. -/
theorem fsMount_unreadable :
    (fsMount smallDevices smallMounted .unreadable 0 0x2000).1 = smallMounted :=
  (fsMount_atomic_iff (by rfl)).mpr (.inl fun _ hnone => by cases hnone)

/-- A disk whose table cannot be read is not mounted, and the mounted table is gone. -/
theorem not_fsMount_atomic : ¬ ∀ (D : Devices SmallNode Unit) s node lba block,
    (fsMount D s node lba block).2 = -1 → (fsMount D s node lba block).1 = s := by
  intro hall
  have hsame := hall smallDevices smallMounted .noTable 0 0x2000 (by decide)
  have hgone : (fsMount smallDevices smallMounted .noTable 0 0x2000).1.fs.fileTableCache.isNone := by
    decide
  rw [hsame] at hgone
  exact absurd hgone (by decide)

end Small

end KyroOS.Disk

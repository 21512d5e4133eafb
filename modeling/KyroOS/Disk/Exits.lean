import KyroOS.Disk.Calls

/-!
# Calls over a device that may fail

A write that fails stops a loop of writes, and nothing else: the calls for a file come back in the
same states of the globals whatever the device does.

## Main definitions

* `createdEntry` — the entry of a new file
* `dataState` — the state in which the data of a file is written

## Main results

* `fsCreateFile_exits`, `fsDeleteFile_exits`, `fsWriteFile_exits` — the globals at the exits of the
  calls
-/

namespace KyroOS.Disk

open Vfs (CString)

section Exits

variable {ν σ : Type} {D : Devices ν σ} {node : ν} {s s' : FsState ν σ} {c : Cache}

/-! ### Writes change the device alone -/

theorem writeBlock_fs (lba : BitVec 32) (b : Block) : (writeBlock D s lba b).1.fs = s.fs := by
  rw [writeBlock]
  split <;> rfl

theorem writeTable_succ {n i : ℕ} {e : FileEntry} (h : c.get i = .ok e) :
    writeTable D c (n + 1) i s =
      match writeBlock D s (s.fs.currentSuperblock.fileTableStartBlock + BitVec.ofNat 32 i)
        e.toBlock with
      | (s, true) => writeTable D c n (i + 1) s
      | (s, false) => .ok (s, false) := by
  rw [writeTable, h]
  rfl

theorem writeTable_fs (n i : ℕ) {s : FsState ν σ} {r : Bool}
    (h : writeTable D c n i s = .ok (s', r)) : s'.fs = s.fs := by
  induction n generalizing i s with
  | zero => rw [← (Prod.mk.inj (Except.ok.inj h)).1]
  | succ n ih =>
    rw [writeTable] at h
    obtain ⟨e, -, hrest⟩ := Outcome.bind_eq_ok.mp h
    have hfs := writeBlock_fs (D := D) (s := s)
      (s.fs.currentSuperblock.fileTableStartBlock + BitVec.ofNat 32 i) e.toBlock
    split at hrest
    next t heq =>
      rw [heq] at hfs
      exact (ih (i + 1) hrest).trans hfs
    next t heq =>
      rw [heq] at hfs
      rw [← (Prod.mk.inj (Except.ok.inj hrest)).1]
      exact hfs

theorem updateFileTable_fs {r : Bool} (h : updateFileTable D s = .ok (s', r)) : s'.fs = s.fs := by
  rw [updateFileTable] at h
  split at h
  · rw [← (Prod.mk.inj (Except.ok.inj h)).1]
  · exact writeTable_fs _ _ h

theorem writeData_fs (first : BitVec 32) (data : List Byte) (n i : ℕ) (s : FsState ν σ) :
    (writeData D first data n i s).1.fs = s.fs := by
  induction n generalizing i s with
  | zero => rfl
  | succ n ih =>
    have hfs := writeBlock_fs (D := D) (s := s) (first + BitVec.ofNat 32 i)
      (dataBlock data (blockOffset i))
    rw [writeData]
    split
    next t heq =>
      rw [heq] at hfs
      exact (ih (i + 1) t).trans hfs
    next t heq =>
      rw [heq] at hfs
      exact hfs

/-- A table of the right shape is written without a fault. -/
theorem Table.updateFileTable (h : Table node s c) :
    ∃ t ok, Disk.updateFileTable D s = .ok (t, ok) ∧ t.fs = s.fs := by
  have hwrite : ∀ n i (s : FsState ν σ), i + n ≤ 32 → ∃ r, writeTable D c n i s = .ok r := by
    intro n
    induction n with
    | zero => exact fun i s _ => ⟨_, rfl⟩
    | succ n ih =>
      intro i s hle
      rw [writeTable_succ (h.get (by omega))]
      split
      · exact ih (i + 1) _ (by omega)
      · exact ⟨_, rfl⟩
  obtain ⟨⟨t, ok⟩, ht⟩ := hwrite 32 0 s le_rfl
  have hupdate : Disk.updateFileTable D s = .ok (t, ok) := by
    rw [Disk.updateFileTable, h.cache]
    dsimp only
    rw [h.num]
    exact ht
  exact ⟨t, ok, hupdate, updateFileTable_fs hupdate⟩

/-- An entry is set in the cache, and the table is tried to be written. -/
theorem Table.updateEntry (h : Table node s c) (idx : ℕ) {e : FileEntry} (he : e.filename 59 = 0) :
    ∃ t ok, Disk.updateFileTable D (s.setEntry idx e) = .ok (t, ok) ∧
      t.fs = { s.fs with fileTableCache := some (c.set idx e) } := by
  have hset := h.setEntry (i := idx) he
  obtain ⟨t, ok, hupdate, hfs⟩ := hset.updateFileTable (D := D)
  refine ⟨t, ok, hupdate, hfs.trans ?_⟩
  rw [← hset.cache]
  rfl

/-- The table is that of the globals. -/
theorem Table.congr (h : Table node s c) (hfs : s'.fs = s.fs) : Table node s' c := by
  obtain ⟨hnode, hcache, hsize, hlength, hnames, hstart, hnum⟩ := h
  rw [← hfs] at hnode hcache hstart hnum
  exact ⟨hnode, hcache, hsize, hlength, hnames, hstart, hnum⟩

/-! ### The exits of the calls -/

/-- The entry of a new file. -/
def createdEntry (path : CString) (flags : BitVec 32) : FileEntry :=
  { FileEntry.zero with filename := copyFilename path, flags }

/-- A new file is refused when the name is found or no entry is free. -/
theorem fsCreateFile_exits (h : Table node s c) (path : CString) (flags : BitVec 32) :
    fsCreateFile D s path flags = .ok (s, -1) ∧
        ((∃ idx, findFileEntry path s.fs.fileTableCache = .ok (some idx)) ∨
          findFreeFileEntry s.fs.fileTableCache = .ok none) ∨
      ∃ t idx, fsCreateFile D s path flags = .ok (t, 0) ∧ idx < 32 ∧
        findFileEntry path s.fs.fileTableCache = .ok none ∧
        findFreeFileEntry s.fs.fileTableCache = .ok (some idx) ∧
        t.fs = { s.fs with fileTableCache := some (c.set idx (createdEntry path flags)) } := by
  rw [fsCreateFile, h.node]
  dsimp only
  rcases findFileEntry_spec h path with hfind | ⟨i, -, hfind, -⟩
  · rw [hfind]
    rcases findFreeFileEntry_spec h with hfree | ⟨idx, hidx, hfree, -⟩
    · rw [hfree]
      exact .inl ⟨rfl, .inr rfl⟩
    · obtain ⟨t, ok, hupdate, hfs⟩ :=
        h.updateEntry (D := D) idx (e := createdEntry path flags) rfl
      refine .inr ⟨t, idx, ?_, hidx, rfl, hfree, hfs⟩
      rw [hfree]
      show (Disk.updateFileTable D (s.setEntry idx (createdEntry path flags)) >>= _) = _
      rw [hupdate]
      rfl
  · rw [hfind]
    exact .inl ⟨rfl, .inl ⟨i, rfl⟩⟩

/-- A file that is not found is not deleted. -/
theorem fsDeleteFile_exits (h : Table node s c) (path : CString) :
    fsDeleteFile D s path = .ok (s, -1) ∨
      ∃ t idx, fsDeleteFile D s path = .ok (t, 0) ∧
        t.fs = { s.fs with fileTableCache := some (c.set idx FileEntry.zero) } := by
  rw [fsDeleteFile, h.node]
  dsimp only
  rcases findFileEntry_spec h path with hfind | ⟨idx, -, hfind, -⟩
  · rw [hfind]
    exact .inl rfl
  · obtain ⟨t, ok, hupdate, hfs⟩ := h.updateEntry (D := D) idx (e := FileEntry.zero) rfl
    refine .inr ⟨t, idx, ?_, hfs⟩
    rw [hfind]
    show (Disk.updateFileTable D _ >>= _) = _
    rw [hupdate]
    rfl

/-- A call that creates a file writes the table with its entry, unless it is refused. -/
theorem updateFileTable_of_fsCreateFile {path : CString} {flags : BitVec 32} {t : FsState ν σ}
    {r : Int} (h : fsCreateFile D s path flags = .ok (t, r)) :
    t = s ∨ ∃ idx ok, updateFileTable D (s.setEntry idx (createdEntry path flags)) =
      .ok (t, ok) := by
  rw [fsCreateFile] at h
  split at h
  · exact .inl (Prod.mk.inj (Except.ok.inj h)).1.symm
  · obtain ⟨found, -, h⟩ := Outcome.bind_eq_ok.mp h
    split_ifs at h
    · exact .inl (Prod.mk.inj (Except.ok.inj h)).1.symm
    · obtain ⟨free, -, h⟩ := Outcome.bind_eq_ok.mp h
      cases free with
      | none => exact .inl (Prod.mk.inj (Except.ok.inj h)).1.symm
      | some idx =>
        obtain ⟨⟨u, ok⟩, hupdate, hend⟩ := Outcome.bind_eq_ok.mp h
        obtain ⟨rfl, rfl⟩ := Prod.mk.inj (Except.ok.inj hend)
        exact .inr ⟨idx, ok, hupdate⟩

/-- A call that deletes a file writes the table without it, unless it is refused. -/
theorem updateFileTable_of_fsDeleteFile {path : CString} {t : FsState ν σ} {r : Int}
    (h : fsDeleteFile D s path = .ok (t, r)) :
    t = s ∨ ∃ idx ok, updateFileTable D (s.setEntry idx FileEntry.zero) = .ok (t, ok) := by
  rw [fsDeleteFile] at h
  split at h
  · exact .inl (Prod.mk.inj (Except.ok.inj h)).1.symm
  · obtain ⟨found, -, h⟩ := Outcome.bind_eq_ok.mp h
    cases found with
    | none => exact .inl (Prod.mk.inj (Except.ok.inj h)).1.symm
    | some idx =>
      obtain ⟨⟨u, ok⟩, hupdate, hend⟩ := Outcome.bind_eq_ok.mp h
      obtain ⟨rfl, rfl⟩ := Prod.mk.inj (Except.ok.inj hend)
      exact .inr ⟨idx, ok, hupdate⟩

/-- `allocate_block` changes the superblock in memory, whether it can be written or not. -/
theorem allocateBlock_fs : (allocateBlock D s).1.fs =
      { s.fs with currentSuperblock := allocated s.fs.currentSuperblock } ∧
    (allocateBlock D s).2 = firstBlock s.fs.currentSuperblock := by
  rw [allocateBlock, allocated, firstBlock]
  by_cases hfree : s.fs.currentSuperblock.freeBlocks = 0
  · rw [if_pos hfree, if_pos hfree, if_pos hfree]
    exact ⟨rfl, rfl⟩
  · rw [if_neg hfree, if_neg hfree, if_neg hfree]
    exact ⟨writeBlock_fs .., rfl⟩

/-- The state in which `fs_write_file` writes the data: the first block is allocated, and entered
for the file. -/
def dataState (D : Devices ν σ) (s : FsState ν σ) (idx : ℕ) (e : FileEntry) : FsState ν σ :=
  (allocateBlock D s).1.setEntry idx
    { e with startBlock := firstBlock s.fs.currentSuperblock }

/-- The name of an entry of the table ends in its field. -/
theorem Table.filename_of_entry {idx : ℕ} {e : FileEntry} (h : Table node s c)
    (he : s.entry idx = .ok e) : e.filename 59 = 0 := by
  obtain ⟨hidx, rfl⟩ := h.of_entry he
  exact h.names _ (List.get_mem ..)

/-- The globals while the data is written. -/
theorem dataState_fs (h : Table node s c) (idx : ℕ) (e : FileEntry) :
    (dataState D s idx e).fs = { s.fs with
      currentSuperblock := allocated s.fs.currentSuperblock
      fileTableCache :=
        some (c.set idx { e with startBlock := firstBlock s.fs.currentSuperblock }) } := by
  have hfs := (allocateBlock_fs (D := D) (s := s)).1
  rw [Disk.dataState, FsState.setEntry]
  dsimp only
  rw [hfs]
  dsimp only
  rw [h.cache]
  rfl

/-- The entry is in the table when the data is written. -/
theorem Table.dataState {idx : ℕ} {e : FileEntry} (h : Table node s c)
    (he : s.entry idx = .ok e) : Table node (dataState D s idx e)
      (c.set idx { e with startBlock := firstBlock s.fs.currentSuperblock }) := by
  have hname : e.filename 59 = 0 := h.filename_of_entry he
  exact h.of_set (dataState_fs h idx e) hname (allocated_start.trans h.start)
    (allocated_num.trans h.num)

/-- A write is refused, fails in the data, or comes to the file table. -/
theorem fsWriteFile_exits {path : CString} {data : List Byte} {t : FsState ν σ} {r : Int}
    (h : fsWriteFile D s path data = .ok (t, r)) :
    (t = s ∧ r = -1 ∧ ∀ idx e, findFileEntry path s.fs.fileTableCache = .ok (some idx) →
        s.entry idx = .ok e → ¬ Writes s e data) ∨
      ∃ idx e, findFileEntry path s.fs.fileTableCache = .ok (some idx) ∧ s.entry idx = .ok e ∧
        Writes s e data ∧
        (writeData D (firstBlock s.fs.currentSuperblock) data (needed data) 0
            (dataState D s idx e) = (t, false) ∧ r = -1 ∨
          ∃ u ok, writeData D (firstBlock s.fs.currentSuperblock) data (needed data) 0
              (dataState D s idx e) = (u, true) ∧
            Disk.updateFileTable D (u.setEntry idx (writtenEntry s e data)) = .ok (t, ok) ∧
            r = ((sizeOf data).setWidth 32).toInt) := by
  rw [fsWriteFile] at h
  obtain ⟨found, hfind, h⟩ := Outcome.bind_eq_ok.mp h
  cases found with
  | none =>
    obtain ⟨rfl, rfl⟩ := Prod.mk.inj (Except.ok.inj h)
    refine .inl ⟨rfl, rfl, fun idx e hsome => ?_⟩
    cases Except.ok.inj (hfind.symm.trans hsome)
  | some idx =>
    obtain ⟨e, he, h⟩ := Outcome.bind_eq_ok.mp h
    have hsame : ∀ idx' e', findFileEntry path s.fs.fileTableCache = .ok (some idx') →
        s.entry idx' = .ok e' → e' = e := by
      intro idx' e' hsome he'
      obtain rfl := Option.some.inj (Except.ok.inj (hfind.symm.trans hsome))
      exact Except.ok.inj (he'.symm.trans he)
    by_cases hflag : e.flags &&& fsFileFlagFile = 0
    · rw [if_pos hflag] at h
      obtain ⟨rfl, rfl⟩ := Prod.mk.inj (Except.ok.inj h)
      refine .inl ⟨rfl, rfl, fun idx' e' hsome he' hwrites => ?_⟩
      exact hwrites.1 (hsame idx' e' hsome he' ▸ hflag)
    · rw [if_neg hflag] at h
      by_cases hroom : s.fs.currentSuperblock.freeBlocks < neededBlocks (sizeOf data)
      · obtain ⟨rfl, rfl⟩ := Prod.mk.inj (Except.ok.inj ((if_pos hroom).symm.trans h))
        exact .inl ⟨rfl, rfl, fun idx' e' _ _ hwrites => not_le.mpr hroom hwrites.2⟩
      · have hwrite := (if_neg hroom).symm.trans h
        refine .inr ⟨idx, e, hfind, he, ⟨hflag, not_lt.mp hroom⟩, ?_⟩
        have hpair : allocateBlock D s =
            ((allocateBlock D s).1, firstBlock s.fs.currentSuperblock) :=
          Prod.ext rfl allocateBlock_fs.2
        rw [hpair] at hwrite
        dsimp only at hwrite
        split at hwrite
        next u hdata =>
          obtain ⟨rfl, rfl⟩ := Prod.mk.inj (Except.ok.inj hwrite)
          exact .inl ⟨hdata, rfl⟩
        next u hdata =>
          obtain ⟨⟨v, ok⟩, hupdate, hend⟩ := Outcome.bind_eq_ok.mp hwrite
          obtain ⟨rfl, rfl⟩ := Prod.mk.inj (Except.ok.inj hend)
          exact .inr ⟨u, ok, hdata, hupdate, rfl⟩

end Exits

end KyroOS.Disk

import KyroOS.Disk.WriteThrough

/-!
# The blocks of the files

A write takes one block from those that are left and puts its data there and behind, however many
blocks it has. Files keep their data where no write reaches the blocks of another file.

## Main definitions

* `FileEntry.Owns` — the blocks that hold the data of an entry
* `FileState`, `fileSystem` — runs of calls, beside what was last written to each entry
* `Isolated` — every file reads as it was last written, and no two files share a block
* `WritesClear` — a call that does not write to the blocks of other files

## Main results

* `isolated_of_reachable` — the files are isolated in the runs of such calls
* `not_isolated` — a file of one byte overwrites the end of a file of two blocks
-/

namespace KyroOS.Disk

open Transition
open Vfs (CString)

/-! ### Files and their data -/

/-- The entry is in use, and the block holds a part of its data. -/
def FileEntry.Owns (e : FileEntry) (b : ℕ) : Prop :=
  e.isFree = false ∧ e.startBlock.toNat ≤ b ∧
    b < e.startBlock.toNat + (e.sizeBytes.toNat + 511) / 512

/-- The file system, and the data of the last successful write to each entry since its file was
created. -/
structure FileState (ν σ : Type) where
  disk : FsState ν σ
  written : ℕ → List Byte

/-- What is known of the data after a call with the result `r`. -/
def FileCall.record {ν σ : Type} (s : FsState ν σ) (r : Int) (written : ℕ → List Byte) :
    FileCall → ℕ → List Byte
  | .create _ _ =>
    match findFreeFileEntry s.fs.fileTableCache with
    | .ok (some idx) => if r = 0 then Function.update written idx [] else written
    | _ => written
  | .write path data =>
    match findFileEntry path s.fs.fileTableCache with
    | .ok (some idx) => if 0 ≤ r then Function.update written idx data else written
    | _ => written
  | .delete _ => written

section Files

variable {ν σ : Type}

/-- The runs of file calls on a new file system, with the data that they write. -/
def fileSystem (D : Devices ν σ) (node : ν) (lba size : BitVec 32) :
    System (FileState ν σ) FileCall where
  init := fun s => FreshlyMounted D node lba size s.disk
  step := fun s e s' => ∃ r, e.run D s.disk = .ok (s'.disk, r) ∧
    s'.written = e.record s.disk r s.written

/-- Every file reads as it was last written; no block belongs to two files, and none of the
metadata to any. -/
structure Isolated (D : Devices ν σ) (s : FileState ν σ) : Prop where
  reads : ∀ path idx e, findFileEntry path s.disk.fs.fileTableCache = .ok (some idx) →
    s.disk.entry idx = .ok e → e.flags &&& fsFileFlagFile ≠ 0 →
      fsReadFile D s.disk path (e.sizeBytes.setWidth 64) =
        .ok ((s.written idx).length, s.written idx)
  apart : ∀ i j e e' b, i ≠ j → s.disk.entry i = .ok e → s.disk.entry j = .ok e' →
    e.Owns b → ¬ e'.Owns b
  behind : ∀ i e b, s.disk.entry i = .ok e → e.Owns b → 33 ≤ b

/-- A write that is not refused has less than 2 GiB, and of the blocks it writes to, which start at
`next_free_block`, none is a block of the metadata or of another file. -/
def WritesClear (s : FileState ν σ) : FileCall → Prop
  | .write path data => ∀ idx e, findFileEntry path s.disk.fs.fileTableCache = .ok (some idx) →
      s.disk.entry idx = .ok e → Writes s.disk e data → data.length < 2 ^ 31 ∧
        ∀ b, s.disk.fs.currentSuperblock.nextFreeBlock.toNat ≤ b →
          b < s.disk.fs.currentSuperblock.nextFreeBlock.toNat + needed data →
            33 ≤ b ∧ b < 2 ^ 32 ∧
              ∀ j e', j ≠ idx → s.disk.entry j = .ok e' → ¬ e'.Owns b
  | _ => True

variable {D : Devices ν σ} {node : ν} {view : σ → BitVec 32 → Block} {s : FsState ν σ} {c : Cache}
  {lba size : BitVec 32} {path : CString}

/-! ### Reading a file -/

/-- A block of the file that starts at `first`. -/
theorem readBlock_eq (hD : Backs D node view) (hread : ∀ dev, Readable D node dev)
    (hnode : s.fs.mountedDiskNode = some node) (first : BitVec 32) (i : ℕ) :
    readBlock D s (first + BitVec.ofNat 32 i) = some (s.blockAt view (first.toNat + i)) := by
  obtain ⟨blocks, hblocks⟩ := Option.isSome_iff_exists.mp
    (hread s.dev (s.fs.mountedPartitionLba + (first + BitVec.ofNat 32 i)) 1)
  rw [readBlock, hnode]
  show (D.read node s.dev _ 1).bind List.head? = _
  rw [hblocks, hD.read _ _ _ _ hblocks, FsState.blockAt]
  have hindex : first + BitVec.ofNat 32 i = BitVec.ofNat 32 (first.toNat + i) := by
    rw [BitVec.ofNat_add, BitVec.ofNat_toNat, BitVec.setWidth_eq]
  rw [hindex]
  exact congrArg (fun j => some (view s.dev j)) (by simp)

/-- A block of the data, and the rest. -/
theorem take_dataBlock (data : List Byte) (off : ℕ) :
    (List.ofFn (dataBlock data off)).take (data.length - off) ++ data.drop (off + 512) =
      data.drop off := by
  have hfront : (List.ofFn (dataBlock data off)).take (data.length - off) =
      (data.drop off).take 512 := by
    apply List.ext_getElem
    · rw [List.length_take, List.length_take, List.length_ofFn, List.length_drop, Nat.min_comm]
    · intro j hj hj'
      rw [List.length_take, List.length_drop] at hj'
      rw [List.getElem_take, List.getElem_take, List.getElem_ofFn, List.getElem_drop]
      show data.getD (off + j) 0 = _
      rw [List.getD_eq_getElem?_getD, List.getElem?_eq_getElem (by omega), Option.getD_some]
  rw [hfront, ← List.drop_drop]
  exact List.take_append_drop 512 (data.drop off)

/-- Blocks that hold the data are read as the data. -/
theorem readData_spec (hD : Backs D node view) (hread : ∀ dev, Readable D node dev)
    (hnode : s.fs.mountedDiskNode = some node) {first : BitVec 32} {data : List Byte}
    (hblocks : ∀ k < (data.length + 511) / 512,
      s.blockAt view (first.toNat + k) = dataBlock data (512 * k))
    (n i : ℕ) (hn : i + n = (data.length + 511) / 512) :
    readData D s first n i (data.length - 512 * i) = some (data.drop (512 * i)) := by
  induction n generalizing i with
  | zero =>
    rw [readData, List.drop_eq_nil_of_le]
    omega
  | succ n ih =>
    have hrest := ih (i + 1) (by omega)
    rw [readData, readBlock_eq hD hread hnode, hblocks i (by omega)]
    show (readData D s first n (i + 1) (data.length - 512 * i - 512)).bind _ = _
    rw [show data.length - 512 * i - 512 = data.length - 512 * (i + 1) by omega, hrest]
    exact congrArg some (take_dataBlock data (512 * i))

/-- A file whose blocks hold the data is read as the data. -/
theorem fsReadFile_eq (hD : Backs D node view) (hread : ∀ dev, Readable D node dev)
    (hnode : s.fs.mountedDiskNode = some node) {idx : ℕ} {e : FileEntry} {data : List Byte}
    (hfind : findFileEntry path s.fs.fileTableCache = .ok (some idx))
    (hentry : s.entry idx = .ok e) (hflag : e.flags &&& fsFileFlagFile ≠ 0)
    (hsize : e.sizeBytes.toNat = data.length) (hlt : data.length < 2 ^ 31)
    (hblocks : ∀ k < (data.length + 511) / 512,
      s.blockAt view (e.startBlock.toNat + k) = dataBlock data (512 * k)) :
    fsReadFile D s path (e.sizeBytes.setWidth 64) = .ok (data.length, data) := by
  have hwidth : (e.sizeBytes.setWidth 64).toNat = data.length := by
    rw [BitVec.toNat_setWidth, hsize]
    omega
  have hdata := readData_spec hD hread hnode hblocks ((data.length + 511) / 512) 0 (by omega)
  rw [fsReadFile, hnode]
  show (findFileEntry path s.fs.fileTableCache >>= _) = _
  rw [hfind]
  show (s.entry idx >>= _) = _
  rw [hentry]
  show (if _ then _ else _) = _
  rw [if_neg hflag, hwidth, hsize, Nat.min_self]
  rw [Nat.mul_zero, Nat.sub_zero] at hdata
  rw [hdata]
  have hint : (BitVec.ofNat 32 data.length).toInt = data.length := by
    rw [BitVec.toInt_ofNat']
    exact Int.bmod_eq_of_le (by omega) (by omega)
  rw [hint]
  rfl

/-! ### The invariant -/

/-- The blocks of an entry hold the data. -/
def Holds (view : σ → BitVec 32 → Block) (s : FsState ν σ) (e : FileEntry) (data : List Byte) :
    Prop :=
  e.isFree = false → e.sizeBytes.toNat = data.length ∧ data.length < 2 ^ 31 ∧
    ∀ k < (data.length + 511) / 512, 33 ≤ e.startBlock.toNat + k ∧
      e.startBlock.toNat + k < 2 ^ 32 ∧
      s.blockAt view (e.startBlock.toNat + k) = dataBlock data (512 * k)

/-- The blocks of the entries hold what was written, and no two entries share a block. -/
structure Keeps (node : ν) (view : σ → BitVec 32 → Block) (s : FileState ν σ) (c : Cache) :
    Prop where
  table : Table node s.disk c
  holds : ∀ i, ∀ hi : i < c.entries.length, Holds view s.disk (c.entries.get ⟨i, hi⟩) (s.written i)
  apart : ∀ i j b, ∀ hi : i < c.entries.length, ∀ hj : j < c.entries.length, i ≠ j →
    (c.entries.get ⟨i, hi⟩).Owns b → ¬ (c.entries.get ⟨j, hj⟩).Owns b

theorem Keeps.isolated {s : FileState ν σ} (hD : Backs D node view)
    (hread : ∀ dev, Readable D node dev) (h : Keeps node view s c) : Isolated D s where
  reads := by
    intro path idx e hfind hentry hflag
    rcases findFileEntry_spec h.table path with hnone | ⟨j, hj, hsome, hnamed⟩
    · rw [hfind] at hnone
      cases hnone
    · obtain rfl : idx = j := Option.some.inj (Except.ok.inj (hfind.symm.trans hsome))
      obtain ⟨hi, rfl⟩ := h.table.of_entry hentry
      obtain ⟨hsize, hlt, hblocks⟩ := h.holds idx hi (inUse_of_isNamed hnamed)
      exact fsReadFile_eq hD hread h.table.node hfind hentry hflag hsize hlt
        fun k hk => (hblocks k hk).2.2
  apart := by
    intro i j e e' b hij he he'
    obtain ⟨hi, rfl⟩ := h.table.of_entry he
    obtain ⟨hj, rfl⟩ := h.table.of_entry he'
    exact h.apart i j b hi hj hij
  behind := by
    intro i e b he howns
    obtain ⟨hi, rfl⟩ := h.table.of_entry he
    obtain ⟨hfree, hle, hlt⟩ := howns
    obtain ⟨hsize, -, hblocks⟩ := h.holds i hi hfree
    have hblock := (hblocks (b - (c.entries.get ⟨i, hi⟩).startBlock.toNat) (by omega)).1
    omega

/-- An entry is stored whose blocks hold its data, and are apart from those of the others. -/
theorem Keeps.of_stored {s : FileState ν σ} {t : FsState ν σ} {written : ℕ → List Byte}
    {sb : Superblock} {idx : ℕ} {e : FileEntry} (h : Keeps node view s c)
    (hstored : Stored view s.disk c sb idx e t) (he : e.filename 59 = 0)
    (hstart : sb.fileTableStartBlock = 1) (hnum : sb.fileTableNumBlocks = 32)
    (hwritten : ∀ i, i ≠ idx → written i = s.written i) (hnew : Holds view t e (written idx))
    (hkeep : ∀ j b, ∀ hj : j < c.entries.length, j ≠ idx → 33 ≤ b → b < 2 ^ 32 →
      (c.entries.get ⟨j, hj⟩).Owns b → t.blockAt view b = s.disk.blockAt view b)
    (hapart : ∀ j b, ∀ hj : j < c.entries.length, j ≠ idx → e.Owns b →
      ¬ (c.entries.get ⟨j, hj⟩).Owns b) :
    Keeps node view ⟨t, written⟩ (c.set idx e) := by
  refine ⟨hstored.table_of h.table he hstart hnum, fun i hi => ?_, fun i j b hi hj hij => ?_⟩
  · obtain ⟨hi', heq⟩ := Cache.entries_set hi
    rw [heq]
    split_ifs with hidx
    · exact hidx ▸ hnew
    · show Holds view t _ (written i)
      rw [hwritten i hidx]
      intro hfree
      obtain ⟨hsize, hlt, hblocks⟩ := h.holds i hi' hfree
      refine ⟨hsize, hlt, fun k hk => ?_⟩
      obtain ⟨hbehind, hbound, hblock⟩ := hblocks k hk
      refine ⟨hbehind, hbound, ?_⟩
      rw [← hblock]
      exact hkeep i _ hi' hidx hbehind hbound ⟨hfree, by omega, by omega⟩
  · obtain ⟨hi', heqi⟩ := Cache.entries_set hi
    obtain ⟨hj', heqj⟩ := Cache.entries_set hj
    rw [heqi, heqj]
    split_ifs with hidx hjdx hjdx
    · exact absurd (hidx.trans hjdx.symm) hij
    · exact hapart j b hj' hjdx
    · exact fun howns hnew => hapart i b hi' hidx hnew howns
    · exact h.apart i j b hi' hj' hij

/-- Less than 2 GiB take as many blocks as they fill. -/
theorem needed_eq {data : List Byte} (h : data.length < 2 ^ 31) :
    needed data = (data.length + 511) / 512 := by
  have hsize : (sizeOf data).toNat = data.length := by
    rw [sizeOf, BitVec.toNat_ofNat]
    omega
  rw [needed, neededBlocks, BitVec.toNat_setWidth, BitVec.toNat_udiv, BitVec.toNat_add, hsize]
  show (data.length + 511) % 2 ^ 64 / 512 % 2 ^ 32 = _
  omega

/-- An entry without data owns no block. -/
theorem not_owns_of_empty {e : FileEntry} (h : e.sizeBytes = 0) (b : ℕ) : ¬ e.Owns b := by
  intro howns
  have hlt := howns.2.2
  have hle := howns.2.1
  rw [h] at hlt
  exact absurd hlt (not_lt.mpr hle)

theorem keeps_init {s : FileState ν σ} (hD : Backs D node view)
    (h : FreshlyMounted D node lba size s.disk) : ∃ c, Keeps node view s c := by
  obtain ⟨block, htable, -, -, -, -⟩ := table_init hD.stores h
  have hzero : ∀ i, ∀ hi : i < (emptyCache block).entries.length,
      (emptyCache block).entries.get ⟨i, hi⟩ = FileEntry.zero :=
    fun i hi => List.eq_of_mem_replicate (List.get_mem _ _)
  refine ⟨_, htable, fun i hi => ?_, fun i j b hi hj _ => ?_⟩
  · rw [hzero i hi]
    intro hfree
    cases hfree
  · rw [hzero i hi]
    exact fun howns => absurd howns (not_owns_of_empty rfl b)

/-- A call that does not write to the blocks of other files keeps the data of all. -/
theorem keeps_run {s : FileState ν σ} {t : FsState ν σ} {e : FileCall} {r : Int}
    (hD : Backs D node view) (h : Keeps node view s c) (hclear : WritesClear s e)
    (hrun : e.run D s.disk = .ok (t, r)) :
    ∃ c', Keeps node view ⟨t, e.record s.disk r s.written⟩ c' := by
  cases e with
  | create path flags =>
    rcases fsCreateFile_spec hD h.table path flags with
      hno | ⟨s', idx, hidx, hrun', hfind, hfree, hstored, hkeep⟩
    · obtain ⟨rfl, rfl⟩ := Prod.mk.inj (Except.ok.inj (hno.symm.trans hrun))
      have hrecord : (FileCall.create path flags).record s.disk (-1) s.written = s.written := by
        rw [FileCall.record]
        split <;> rfl
      exact ⟨c, hrecord.symm ▸ h⟩
    · obtain ⟨rfl, rfl⟩ := Prod.mk.inj (Except.ok.inj (hrun'.symm.trans hrun))
      have hrecord : (FileCall.create path flags).record s.disk 0 s.written =
          Function.update s.written idx [] := by
        rw [FileCall.record, hfind]
        rfl
      rw [hrecord]
      refine ⟨_, h.of_stored hstored rfl h.table.start h.table.num
        (fun i hi => Function.update_of_ne hi ..) ?_ (fun j b hj _ hle hlt _ => hkeep b hlt ?_)
        (fun j b _ _ howns => absurd howns (not_owns_of_empty rfl b))⟩
      · rw [Function.update_self]
        exact fun _ => ⟨rfl, by decide, fun k hk => absurd hk (by simp)⟩
      · omega
  | delete path =>
    rcases fsDeleteFile_spec hD h.table path with
      ⟨hno, -⟩ | ⟨s', idx, hidx, hrun', hfind, hstored, hkeep⟩
    · obtain ⟨rfl, rfl⟩ := Prod.mk.inj (Except.ok.inj (hno.symm.trans hrun))
      exact ⟨c, h⟩
    · obtain ⟨rfl, rfl⟩ := Prod.mk.inj (Except.ok.inj (hrun'.symm.trans hrun))
      refine ⟨_, h.of_stored hstored rfl h.table.start h.table.num (fun _ _ => rfl) (fun hfree => ?_)
        (fun j b hj _ hle hlt _ => hkeep b hlt ?_)
        (fun j b _ _ howns => absurd howns (not_owns_of_empty rfl b))⟩
      · cases hfree
      · omega
  | write path data =>
    rcases fsWriteFile_spec hD h.table path data with
      ⟨hno, -⟩ | ⟨s', idx, hidx, hrun', hfind, hwrites, hstored, hblocks⟩
    · obtain ⟨rfl, rfl⟩ := Prod.mk.inj (Except.ok.inj (hno.symm.trans hrun))
      have hrecord : (FileCall.write path data).record s.disk (-1) s.written = s.written := by
        rw [FileCall.record]
        split <;> rfl
      exact ⟨c, hrecord.symm ▸ h⟩
    · obtain ⟨rfl, rfl⟩ := Prod.mk.inj (Except.ok.inj (hrun'.symm.trans hrun))
      obtain ⟨old, hold⟩ : ∃ old, old = c.entries.get ⟨idx, h.table.length ▸ hidx⟩ := ⟨_, rfl⟩
      rw [← hold] at hwrites hstored
      have hentry : s.disk.entry idx = .ok old := hold ▸ h.table.entry hidx
      have hname : old.filename 59 = 0 := h.table.names _ (hold ▸ List.get_mem ..)
      obtain ⟨hlt, hrange⟩ := hclear idx old hfind hentry hwrites
      have hneeded := needed_eq hlt
      -- the result is the size, and the data is recorded
      have hsize : ((sizeOf data).setWidth 32).toNat = data.length := by
        rw [BitVec.toNat_setWidth, sizeOf, BitVec.toNat_ofNat]
        omega
      have hresult : 0 ≤ ((sizeOf data).setWidth 32).toInt := by
        rw [BitVec.toInt_eq_toNat_of_lt (by omega)]
        exact Int.natCast_nonneg _
      have hrecord : (FileCall.write path data).record s.disk ((sizeOf data).setWidth 32).toInt
          s.written = Function.update s.written idx data := by
        rw [FileCall.record, hfind]
        exact if_pos hresult
      rw [hrecord]
      -- the blocks that are written to are clear
      obtain ⟨first, hfirst⟩ : ∃ first, first = firstBlock s.disk.fs.currentSuperblock := ⟨_, rfl⟩
      have hclear' : ∀ b, first.toNat ≤ b → b < first.toNat + needed data →
          33 ≤ b ∧ b < 2 ^ 32 ∧ ∀ j e', j ≠ idx → s.disk.entry j = .ok e' → ¬ e'.Owns b := by
        intro b hle hlt'
        have hroom := hwrites.2
        rcases allocated_cases s.disk.fs.currentSuperblock with
          ⟨hzero, -, -⟩ | ⟨-, -, hnext⟩
        · rw [hzero] at hroom
          have hnone : needed data = 0 := Nat.le_zero.mp hroom
          omega
        · rw [hfirst, hnext] at hle hlt'
          exact hrange b hle hlt'
      have hwrap : first.toNat + needed data ≤ 2 ^ 32 := by
        by_cases hnone : needed data = 0
        · have hlt' := first.isLt
          omega
        · have hlast := (hclear' (first.toNat + needed data - 1) (by omega) (by omega)).2.1
          omega
      rw [← hfirst] at hblocks
      have hstart : (writtenEntry s.disk old data).startBlock = first := hfirst.symm
      refine ⟨_, h.of_stored hstored hname (allocated_start.trans h.table.start)
        (allocated_num.trans h.table.num) (fun i hi => Function.update_of_ne hi ..) ?_ ?_ ?_⟩
      · rw [Function.update_self]
        refine fun _ => ⟨hsize, hlt, fun k hk => ?_⟩
        rw [hstart]
        obtain ⟨hbehind, hbound, -⟩ := hclear' (first.toNat + k) (by omega) (by omega)
        refine ⟨hbehind, hbound, ?_⟩
        rw [hblocks hwrap _ hbound (by omega), if_pos (by omega), Nat.add_sub_cancel_left]
        have hoffset : blockOffset k = 512 * k := by
          rw [blockOffset, BitVec.toNat_mul, BitVec.toNat_ofNat]
          show k % 2 ^ 32 * 512 % 2 ^ 32 = 512 * k
          omega
        rw [hoffset]
      · intro j b hj hne hle hlt' howns
        have hout : ¬ (first.toNat ≤ b ∧ b < first.toNat + needed data) := by
          rintro ⟨hle', hlt''⟩
          have hj' : j < 32 := h.table.length ▸ hj
          exact (hclear' b hle' hlt'').2.2 j _ hne (h.table.entry hj') howns
        rw [hblocks hwrap b hlt' (by omega), if_neg hout, if_neg (by omega)]
      · rintro j b hj hne ⟨-, hle, hlt'⟩
        rw [hstart] at hle hlt'
        have hlt'' : b < first.toNat + needed data := by
          rw [hneeded, ← hsize]
          exact hlt'
        have hj' : j < 32 := h.table.length ▸ hj
        exact (hclear' b hle hlt'').2.2 j _ hne (h.table.entry hj')

/-- In every run of calls none of which writes to the blocks of other files, over a device whose
reads and writes succeed, every file reads as it was last written and shares no block. -/
theorem isolated_of_reachable {s : FileState ν σ} (hD : Backs D node view)
    (hread : ∀ dev, Readable D node dev)
    (h : (fileSystem D node lba size).ReachableUnder WritesClear s) : Isolated D s := by
  obtain ⟨c, hc⟩ : ∃ c, Keeps node view s c := by
    apply h.invariant (I := fun s => ∃ c, Keeps node view s c)
    · exact fun s hs => keeps_init hD hs
    · rintro s e ⟨t, written⟩ ⟨c, hc⟩ hclear ⟨r, hrun, hwritten⟩
      obtain rfl : written = e.record s.disk r s.written := hwritten
      exact keeps_run hD hc hclear hrun
  exact hc.isolated hD hread

end Files

/-! ### Two files on a small disk -/

section Small

instance (e : FileEntry) (b : ℕ) : Decidable (e.Owns b) := instDecidableAnd

/-- The new file system on the disk in memory. -/
def smallFiles : FileState Unit (BitVec 32 → Block) := ⟨imageMounted, fun _ => []⟩

/-- A call on it. -/
def fileNext (s : FileState Unit (BitVec 32 → Block)) (e : FileCall) :
    Option (FileState Unit (BitVec 32 → Block)) :=
  match e.run imageDevices s.disk with
  | .ok (t, r) => some ⟨t, e.record s.disk r s.written⟩
  | .error _ => none

theorem step_of_fileNext {s t : FileState Unit (BitVec 32 → Block)} {e : FileCall}
    (h : fileNext s e = some t) : (fileSystem imageDevices () 63 40).step s e t := by
  rw [fileNext] at h
  split at h
  next t' r hrun =>
    obtain rfl := Option.some.inj h
    exact ⟨r, hrun, rfl⟩
  next => cases h

/-- The file system with an empty file. -/
def smallCreated : FileState Unit (BitVec 32 → Block) :=
  (fileNext smallFiles (.create [0x61] fsFileFlagFile)).getD smallFiles

/-- The file system with a file of two blocks. -/
def smallWritten : FileState Unit (BitVec 32 → Block) :=
  (fileNext smallCreated (.write [0x61] (List.replicate 513 0x61))).getD smallCreated

/-- No entry has data yet. -/
theorem smallCreated_empty {j : ℕ} {e : FileEntry} (h : smallCreated.disk.entry j = .ok e) :
    e.sizeBytes = 0 := by
  have hall : smallCreated.disk.fs.fileTableCache.all
      (fun c => c.entries.all fun e => e.sizeBytes = 0) = true := by
    decide +kernel
  rw [FsState.entry] at h
  cases hcache : smallCreated.disk.fs.fileTableCache with
  | none =>
    rw [hcache] at h
    cases h
  | some c =>
    rw [hcache] at h hall
    dsimp only at h
    rw [Cache.get] at h
    split_ifs at h
    cases hget : c.entries[j]? with
    | none =>
      rw [hget] at h
      cases h
    | some e' =>
      rw [hget] at h
      obtain rfl := Except.ok.inj h
      exact of_decide_eq_true (List.all_eq_true.mp hall e' (List.mem_of_getElem? hget))

/-- The first write goes to the blocks behind the table. -/
theorem smallCreated_writesClear :
    WritesClear smallCreated (.write [0x61] (List.replicate 513 0x61)) := by
  intro idx e _ _ _
  have hnext : smallCreated.disk.fs.currentSuperblock.nextFreeBlock.toNat = 33 := by
    decide +kernel
  have hneeded : needed (List.replicate 513 0x61) = 2 := by
    decide +kernel
  refine ⟨by rw [List.length_replicate]; decide, fun b hle hlt => ⟨by omega, by omega, fun j e' _ he' => ?_⟩⟩
  exact not_owns_of_empty (smallCreated_empty he') b

/-- The file reads as it was written. -/
theorem isolated_smallWritten : Isolated imageDevices smallWritten := by
  apply isolated_of_reachable imageDevices_backs fun dev lba n => rfl
  have hcreate : fileNext smallFiles (.create [0x61] fsFileFlagFile) = some smallCreated :=
    
    (Option.getD_of_ne_none (Option.isSome_iff_ne_none.mp (by decide +kernel)) _).symm
  have hwrite : fileNext smallCreated (.write [0x61] (List.replicate 513 0x61)) =
      some smallWritten :=
    (Option.getD_of_ne_none (Option.isSome_iff_ne_none.mp (by decide +kernel)) _).symm
  have hinit : (fileSystem imageDevices () 63 40).ReachableUnder WritesClear smallFiles :=
    .init imageMounted_fresh
  have hclear : WritesClear smallFiles (.create [0x61] fsFileFlagFile) := trivial
  exact (hinit.step hclear (step_of_fileNext hcreate)).step smallCreated_writesClear
    (step_of_fileNext hwrite)

/-- The first two entries both own the block. -/
def SharesBlock (s : FileState Unit (BitVec 32 → Block)) (b : ℕ) : Bool :=
  match s.disk.entry 0, s.disk.entry 1 with
  | .ok e, .ok e' => e.Owns b ∧ e'.Owns b
  | _, _ => false

/-- A file of two blocks, and then one of a single byte: the byte is written over the second
block of the first file. -/
theorem not_isolated : ¬ ∀ s, (fileSystem imageDevices () 63 40).Reachable s →
    Isolated imageDevices s := by
  intro hall
  obtain ⟨s, hs, hshares⟩ := System.exists_reachableUnder (S := fileSystem imageDevices () 63 40)
    (C := fun _ _ => True) (P := fun s => SharesBlock s 34 = true) (s := smallFiles) fileNext
    [.create [0x61] fsFileFlagFile, .create [0x62] fsFileFlagFile,
      .write [0x61] (List.replicate 513 0x61), .write [0x62] [0x62]]
    (fun _ _ _ hnext => ⟨_, trivial, step_of_fileNext hnext⟩) imageMounted_fresh
    (by decide +kernel)
  unfold SharesBlock at hshares
  split at hshares
  next e e' he he' =>
    have howns := of_decide_eq_true hshares
    exact (hall s hs).apart 0 1 e e' 34 (by decide) he he' howns.1 howns.2
  next => cases hshares

end Small

end KyroOS.Disk

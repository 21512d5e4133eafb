import KyroOS.Disk.FileNames
import KyroOS.Disk.Isolation
import KyroOS.Lib.SlotTable

/-!
# The files as a map

To its callers a disk is a map from names to files. Calls that keep to their limits (names that fit,
and data that stays out of the blocks of other files) have the results of operations on that map,
also when the disk is unmounted and mounted between them, and when the machine is switched off.

## Main definitions

* `FileMap` — the files under their names, and how many can still be written
* `FileRequest` — the calls for files, and those that mount the disk again
* `FileRequest.answer`, `FileRequest.run` — what a request does to the map, and to the disk
* `FilesAre` — the disk holds the files of a map

## Main results

* `filesAre_run` — a request that keeps to the limits gives the same answer on both sides
* `disk_refines_map` — any number of them do, and the table lists the files of the map
* `allFit_of_small` — names that fit and files of one block are within the limits
-/

namespace KyroOS.Disk

open Vfs (CString)

/-! ### The map -/

/-- A file, to those that use it. -/
structure StoredFile where
  flags : BitVec 32
  data : List Byte
deriving DecidableEq

/-- The files under their names, and the number of blocks that are left. -/
structure FileMap where
  files : Finmap fun _ : List Byte => StoredFile
  free : ℕ

/-- The map of a new file system. -/
def FileMap.empty (size : BitVec 32) : FileMap := ⟨∅, (size - 33).toNat⟩

/-- What the callers of the file system ask for. -/
inductive FileRequest
  | create (path : CString) (flags : BitVec 32)
  | write (path : CString) (data : List Byte)
  | read (path : CString) (size : Word)
  | delete (path : CString)
  | info (path : CString)
  /-- The disk is unmounted, and mounted with its table at `block`. -/
  | remount (block : Word)
  /-- The machine is switched off and on, and the disk mounted with its table at `block`. -/
  | restart (block : Word)

/-- What they get. -/
inductive Answer
  | result (r : Int)
  | bytes (r : Int) (data : List Byte)
  | info (file : Option (List Byte × BitVec 32 × ℕ))

/-- What a request does to the files. -/
def FileRequest.answer (m : FileMap) : FileRequest → FileMap × Answer
  | .create path flags =>
    if m.files.lookup (stringOf path) = none ∧ m.files.keys.card < fsMaxFiles then
      ({ m with files := m.files.insert (stringOf path) ⟨flags, []⟩ }, .result 0)
    else (m, .result (-1))
  | .write path data =>
    match m.files.lookup (stringOf path) with
    | none => (m, .result (-1))
    | some f =>
      if f.flags &&& fsFileFlagFile ≠ 0 ∧ (data.length + 511) / 512 ≤ m.free then
        -- one block is taken, however many the data fills
        (⟨m.files.insert (stringOf path) ⟨f.flags, data⟩, m.free - 1⟩, .result data.length)
      else (m, .result (-1))
  | .read path size =>
    match m.files.lookup (stringOf path) with
    | none => (m, .bytes (-1) [])
    | some f =>
      if f.flags &&& fsFileFlagFile = 0 then (m, .bytes (-1) [])
      else (m, .bytes (min size.toNat f.data.length : ℕ) (f.data.take size.toNat))
  | .delete path =>
    match m.files.lookup (stringOf path) with
    | none => (m, .result (-1))
    | some _ => ({ m with files := m.files.erase (stringOf path) }, .result 0)
  | .info path =>
    (m, .info ((m.files.lookup (stringOf path)).map fun f =>
      (stringOf path, f.flags, f.data.length)))
  | .remount _ => (m, .result 0)
  | .restart _ => (m, .result 0)

/-- What requests do to the files, one after the other. -/
def answers : FileMap → List FileRequest → FileMap × List Answer
  | m, [] => (m, [])
  | m, r :: requests =>
    let (m, a) := r.answer m
    let (m, rest) := answers m requests
    (m, a :: rest)

/-! ### The disk -/

/-- The globals when the kernel has just been loaded. -/
def loadedGlobals (ν : Type) : FsDisk ν := ⟨none, 0, Superblock.ofBlock zeroBlock, none⟩

section Disk

variable {ν σ : Type}

/-- What a request does on the disk. -/
def FileRequest.run (D : Devices ν σ) (node : ν) (lba : BitVec 32) (s : FsState ν σ) :
    FileRequest → Outcome (FsState ν σ × Answer)
  | .create path flags => do
    let (s, r) ← fsCreateFile D s path flags
    .ok (s, .result r)
  | .write path data => do
    let (s, r) ← fsWriteFile D s path data
    .ok (s, .result r)
  | .read path size => do
    let (r, bytes) ← fsReadFile D s path size
    .ok (s, .bytes r bytes)
  | .delete path => do
    let (s, r) ← fsDeleteFile D s path
    .ok (s, .result r)
  | .info path => do
    let found ← fsGetFileInfo s path
    .ok (s, .info (found.map fun e => (e.name, e.flags, e.sizeBytes.toNat)))
  | .remount block => do
    let (s, _) ← fsUnmount D s
    let (s, r) := fsMount D s node lba block
    .ok (s, .result r)
  | .restart block =>
    let (s, r) := fsMount D ⟨loadedGlobals ν, s.dev⟩ node lba block
    .ok (s, .result r)

/-- What requests do on the disk, one after the other. -/
def runs (D : Devices ν σ) (node : ν) (lba : BitVec 32) :
    FsState ν σ → List FileRequest → Outcome (FsState ν σ × List Answer)
  | s, [] => .ok (s, [])
  | s, r :: requests => do
    let (s, a) ← r.run D node lba s
    let (s, rest) ← runs D node lba s requests
    .ok (s, a :: rest)

/-- A file that is created has a name that fits, a write stays out of the blocks of other files,
and there is memory for the table of a disk that is mounted. -/
def FileRequest.Fits (s : FsState ν σ) : FileRequest → Prop
  | .create path flags => (NameCall.create path flags).Fits s
  | .write path data => WritesClear ⟨s, fun _ => []⟩ (.write path data)
  | .remount block => block ≠ 0
  | .restart block => block ≠ 0
  | _ => True

/-- Every request keeps to the limits. -/
def AllFit (D : Devices ν σ) (node : ν) (lba : BitVec 32) : FsState ν σ → List FileRequest → Prop
  | _, [] => True
  | s, r :: requests => r.Fits s ∧
      ∀ t a, r.run D node lba s = .ok (t, a) → AllFit D node lba t requests

/-- The names, flags and sizes that `fs_get_file_info_by_index` gives are those of the files of the
map, each of them once. -/
def Lists (s : FsState ν σ) (m : FileMap) : Prop :=
  (∀ name flags size, (∃ f, m.files.lookup name = some f ∧ f.flags = flags ∧ f.data.length = size) ↔
    ∃ i e, fsGetFileInfoByIndex s i = .ok (some e) ∧ e.name = name ∧ e.flags = flags ∧
      e.sizeBytes.toNat = size) ∧
  ∀ i j e e', fsGetFileInfoByIndex s i = .ok (some e) → fsGetFileInfoByIndex s j = .ok (some e') →
    e.name = e'.name → i = j

variable {D : Devices ν σ} {node : ν} {view : σ → BitVec 32 → Block} {s t : FsState ν σ} {c : Cache}
  {lba size : BitVec 32} {path : CString} {written : ℕ → List Byte} {m : FileMap}

/-! ### Slots -/

/-- What an entry stands for, whose data is given. -/
def FileEntry.slot (e : FileEntry) (data : List Byte) : Option (List Byte × StoredFile) :=
  if e.isFree then none else some (e.name, ⟨e.flags, data⟩)

/-- The table, with the data of each entry. -/
def slotsOf (c : Cache) (written : ℕ → List Byte) (i : Fin 32) :
    Option (List Byte × StoredFile) :=
  (c.entries[(i : ℕ)]?).bind fun e => e.slot (written i)

/-- The disk holds the files of the map: the entries of the table stand for them, and their blocks
hold the data. -/
structure FilesAre (node : ν) (view : σ → BitVec 32 → Block) (lba size : BitVec 32)
    (s : FsState ν σ) (c : Cache) (written : ℕ → List Byte) (m : FileMap) : Prop where
  synced : Synced node view lba size s c
  keeps : Keeps node view ⟨s, written⟩ c
  slots : SlotTable.Represents (slotsOf c written) m.files
  free : s.fs.currentSuperblock.freeBlocks.toNat = m.free

theorem slotsOf_entry {i : Fin 32} {e : FileEntry} (h : c.entries[(i : ℕ)]? = some e) :
    slotsOf c written i = e.slot (written i) := by
  rw [slotsOf, h, Option.bind_some]

theorem FileEntry.slot_of_used {e : FileEntry} {data : List Byte} (h : e.isFree = false) :
    e.slot data = some (e.name, ⟨e.flags, data⟩) := by
  rw [slot, h]
  rfl

theorem FileEntry.slot_eq_some {e : FileEntry} {data name : List Byte} {f : StoredFile} :
    e.slot data = some (name, f) ↔ e.isFree = false ∧ e.name = name ∧ f = ⟨e.flags, data⟩ := by
  rw [slot]
  split_ifs with hfree
  · simp [hfree]
  · simp [hfree, eq_comm]

theorem FileEntry.slot_eq_none {e : FileEntry} {data : List Byte} :
    e.slot data = none ↔ e.isFree = true := by
  rw [slot]
  split_ifs with hfree
  · exact iff_of_true rfl hfree
  · refine iff_of_false ?_ hfree
    intro h
    cases h

/-- The slots of a table with another entry. -/
theorem slotsOf_set {idx : ℕ} {e : FileEntry} {written' : ℕ → List Byte}
    (hlen : c.entries.length = 32) (hidx : idx < 32)
    (hsame : ∀ i, i ≠ idx → written' i = written i) :
    slotsOf (c.set idx e) written' =
      Function.update (slotsOf c written) ⟨idx, hidx⟩ (e.slot (written' idx)) := by
  funext i
  have hentry : (c.set idx e).entries[(i : ℕ)]? =
      if idx = (i : ℕ) then some e else c.entries[(i : ℕ)]? := by
    rw [Cache.set, List.getElem?_set]
    simp [hlen, hidx]
  rw [Function.update_apply, slotsOf, hentry]
  by_cases hi : i = ⟨idx, hidx⟩
  · rw [if_pos hi, hi, if_pos rfl]
    rfl
  · have hne : (i : ℕ) ≠ idx := fun heq => hi (Fin.ext heq)
    rw [if_neg hi, if_neg hne.symm, slotsOf, hsame i hne]

theorem Table.getElem?_eq {i : ℕ} (h : Table node s c) (hi : i < 32) :
    c.entries[i]? = some (c.entries.get ⟨i, h.length ▸ hi⟩) :=
  List.getElem?_eq_getElem (h.length ▸ hi)

/-- What is found under a path, on the disk and in the map. -/
theorem FilesAre.find (h : FilesAre node view lba size s c written m) (path : CString) :
    findFileEntry path s.fs.fileTableCache = .ok none ∧ m.files.lookup (stringOf path) = none ∨
      ∃ i e, ∃ hi : i < 32, findFileEntry path s.fs.fileTableCache = .ok (some i) ∧
        c.entries[i]? = some e ∧ s.entry i = .ok e ∧ e.isFree = false ∧ e.name = stringOf path ∧
        slotsOf c written ⟨i, hi⟩ = some (stringOf path, ⟨e.flags, written i⟩) := by
  have htable := h.synced.table
  rcases findFileEntry_spec htable path with hnone | ⟨i, hi, hsome, hnamed⟩
  · refine .inl ⟨hnone, h.slots.lookup_eq_none_iff.mpr fun i f hslot => ?_⟩
    obtain ⟨e, he, hslot'⟩ := Option.bind_eq_some_iff.mp hslot
    rw [FileEntry.slot_eq_some] at hslot'
    exact (htable.find_eq_none_iff path).mp hnone e (List.mem_of_getElem? he) hslot'.1 hslot'.2.1
  · have he := htable.getElem?_eq hi
    obtain ⟨hused, hname⟩ := (isNamed_iff path (htable.names _ (List.get_mem ..))).mp hnamed
    refine .inr ⟨i, _, hi, hsome, he, htable.entry hi, hused, hname, ?_⟩
    rw [slotsOf_entry he, FileEntry.slot_eq_some]
    exact ⟨hused, hname, rfl⟩

/-- The table is full just when the map has 32 files. -/
theorem FilesAre.full_iff (h : FilesAre node view lba size s c written m) :
    findFreeFileEntry s.fs.fileTableCache = .ok none ↔ ¬ m.files.keys.card < fsMaxFiles := by
  have htable := h.synced.table
  have hentry : ∀ i : Fin 32, ∃ e, c.entries[(i : ℕ)]? = some e ∧ c.get i = .ok e := by
    intro i
    exact ⟨_, htable.getElem?_eq i.isLt, htable.get i.isLt⟩
  have hcard : ¬ m.files.keys.card < fsMaxFiles ↔ ∀ i, slotsOf c written i ≠ none := by
    rw [← h.slots.full_iff, Fintype.card_fin, not_lt, fsMaxFiles]
  rw [hcard]
  constructor
  · intro hnone i hslot
    obtain ⟨e, he, hget⟩ := hentry i
    rw [slotsOf_entry he, FileEntry.slot_eq_none] at hslot
    rw [htable.cache] at hnone
    have hno := of_findEntry_none fsMaxFiles 0 hnone (Nat.zero_le i)
      (by rw [Nat.zero_add]; exact i.isLt) hget
    rw [hslot] at hno
    cases hno
  · intro hall
    rcases findFreeFileEntry_spec htable with hnone | ⟨j, hj, -, hfree⟩
    · exact hnone
    · have hslot : slotsOf c written ⟨j, hj⟩ = none := by
        rw [slotsOf_entry (htable.getElem?_eq hj), FileEntry.slot_eq_none]
        exact hfree
      exact absurd hslot (hall ⟨j, hj⟩)

/-! ### Small requests -/

/-- No block of a file is one that is left. -/
def Compact (s : FsState ν σ) : Prop :=
  ∀ i e b, s.entry i = .ok e → e.Owns b → b < s.fs.currentSuperblock.nextFreeBlock.toNat

/-- The name of a file that is created fits, a write has one block at most, and there is memory for
the table of a disk that is mounted. -/
def FileRequest.Small : FileRequest → Prop
  | .create path _ => 0 < (stringOf path).length ∧ (stringOf path).length < 60
  | .write _ data => data.length ≤ 512
  | .remount block => block ≠ 0
  | .restart block => block ≠ 0
  | _ => True

/-- No file has a block that is left, after an entry is set that has none. -/
theorem Compact.of_set {idx : ℕ} {e : FileEntry} (hs : Compact s) (h : Table node s c)
    (ht : Table node t (c.set idx e))
    (hnext : s.fs.currentSuperblock.nextFreeBlock.toNat ≤
      t.fs.currentSuperblock.nextFreeBlock.toNat)
    (hnew : ∀ b, e.Owns b → b < t.fs.currentSuperblock.nextFreeBlock.toNat) : Compact t := by
  intro i e' b he' howns
  obtain ⟨hi, rfl⟩ := ht.of_entry he'
  obtain ⟨hi', heq⟩ := Cache.entries_set hi
  rw [heq] at howns
  split_ifs at howns with hidx
  · exact hnew b howns
  · have hlen := h.length
    exact (hs i _ b (h.entry (hlen ▸ hi')) howns).trans_le hnext

/-- A block or nothing is taken from those that are left, and a write of one block stays in it. -/
theorem next_allocated (hsynced : Synced node view lba size s c) :
    s.fs.currentSuperblock.nextFreeBlock.toNat ≤
        (allocated s.fs.currentSuperblock).nextFreeBlock.toNat ∧
      (s.fs.currentSuperblock.freeBlocks ≠ 0 →
        (allocated s.fs.currentSuperblock).nextFreeBlock.toNat =
          s.fs.currentSuperblock.nextFreeBlock.toNat + 1) := by
  have hroom := hsynced.room
  have hlt := size.isLt
  rcases allocated_cases s.fs.currentSuperblock with ⟨hfree, heq, -⟩ | ⟨hfree, heq, -⟩
  · rw [heq]
    exact ⟨le_rfl, fun hne => absurd hfree hne⟩
  · have hpos : s.fs.currentSuperblock.freeBlocks.toNat ≠ 0 := fun h0 =>
      hfree (BitVec.eq_of_toNat_eq h0)
    have hnext : (s.fs.currentSuperblock.nextFreeBlock + 1).toNat =
        s.fs.currentSuperblock.nextFreeBlock.toNat + 1 := by
      rw [BitVec.toNat_add]
      show (s.fs.currentSuperblock.nextFreeBlock.toNat + 1) % 2 ^ 32 = _
      omega
    rw [heq]
    dsimp only
    rw [hnext]
    exact ⟨Nat.le_succ _, fun _ => rfl⟩

/-- A small request keeps to the limits where no file has a block that is left. -/
theorem FileRequest.Small.fits {r : FileRequest} (hr : r.Small) (h : Synced node view lba size s c)
    (hs : Compact s) : r.Fits s := by
  cases r with
  | create path flags => exact .inr (.inr hr)
  | write path data =>
    intro idx e hfind he hwrites
    have hlen : data.length ≤ 512 := hr
    have hneeded : needed data = (data.length + 511) / 512 := needed_eq (by omega)
    have hroom := h.room
    have hbehind := h.behind
    have hlt := size.isLt
    have hle := hwrites.2
    refine ⟨by omega, fun b hb hlast => ?_⟩
    have hb' : s.fs.currentSuperblock.nextFreeBlock.toNat ≤ b := hb
    have hlast' : b < s.fs.currentSuperblock.nextFreeBlock.toNat + needed data := hlast
    refine ⟨by omega, by omega, fun j e' _ he' howns => ?_⟩
    exact absurd (hs j e' b he' howns) (not_lt.mpr hb')
  | read path size => trivial
  | delete path => trivial
  | info path => trivial
  | remount block => exact hr
  | restart block => exact hr

/-! ### One request -/

/-- A request has the answer that the map gives, and leaves the files of the map on the disk. -/
def Answered (D : Devices ν σ) (node : ν) (view : σ → BitVec 32 → Block) (lba size : BitVec 32)
    (s : FsState ν σ) (m : FileMap) (r : FileRequest) : Prop :=
  ∃ t c written, r.run D node lba s = .ok (t, (r.answer m).2) ∧
    FilesAre node view lba size t c written (r.answer m).1 ∧ (r.Small → Compact s → Compact t)

/-- A call keeps the table in step with the disk, and the data in the blocks of its file. -/
theorem FilesAre.of_call {e : FileCall} {r : Int} {c' : Cache} {m' : FileMap}
    (hD : Backs D node view) (h : FilesAre node view lba size s c written m)
    (hclear : WritesClear ⟨s, fun _ => []⟩ e) (hrun : e.run D s = .ok (t, r))
    (hcache : t.fs.fileTableCache = some c')
    (hslots : SlotTable.Represents (slotsOf c' (e.record s r written)) m'.files)
    (hfree : t.fs.currentSuperblock.freeBlocks.toNat = m'.free) :
    FilesAre node view lba size t c' (e.record s r written) m' := by
  have hclear' : WritesClear ⟨s, written⟩ e := by
    cases e <;> exact hclear
  obtain ⟨c₁, hkeeps⟩ := keeps_run hD h.keeps hclear' hrun
  obtain ⟨t', r', c₂, hrun', hsynced⟩ := synced_run hD h.synced e
  obtain ⟨rfl, rfl⟩ := Prod.mk.inj (Except.ok.inj (hrun'.symm.trans hrun))
  obtain rfl := Option.some.inj (hkeeps.table.cache.symm.trans hcache)
  obtain rfl := Option.some.inj (hsynced.table.cache.symm.trans hcache)
  exact ⟨hsynced, hkeeps, hslots, hfree⟩

/-- A request that is refused. -/
theorem FilesAre.refused {r : FileRequest} {a : Answer}
    (h : FilesAre node view lba size s c written m)
    (hrun : r.run D node lba s = .ok (s, a)) (hanswer : r.answer m = (m, a)) :
    Answered D node view lba size s m r := by
  refine ⟨s, c, written, ?_, ?_, fun _ hs => hs⟩
  · rw [hanswer]
    exact hrun
  · rw [hanswer]
    exact h

theorem FilesAre.create (hD : Backs D node view) (h : FilesAre node view lba size s c written m)
    {flags : BitVec 32} (hfits : (NameCall.create path flags).Fits s) :
    Answered D node view lba size s m (.create path flags) := by
  have htable := h.synced.table
  rcases fsCreateFile_exits (D := D) htable path flags with
    ⟨hrun, hwhy⟩ | ⟨t, idx, hrun, hidx, hnone, hfree, hfs⟩
  · apply h.refused (a := .result (-1))
    · rw [FileRequest.run, hrun]
      rfl
    · apply if_neg
      rintro ⟨hlookup, hcard⟩
      rcases hwhy with ⟨i, hfound⟩ | hfull
      · rcases h.find path with ⟨hno, -⟩ | ⟨i', e, hi, -, -, -, -, -, hslot⟩
        · cases Except.ok.inj (hfound.symm.trans hno)
        · rw [h.slots.lookup_of_slot hslot] at hlookup
          cases hlookup
      · exact h.full_iff.mp hfull hcard
  · have hlookup : m.files.lookup (stringOf path) = none := by
      rcases h.find path with ⟨-, hno⟩ | ⟨i, e, hi, hfound, -⟩
      · exact hno
      · cases Except.ok.inj (hfound.symm.trans hnone)
    have hcard : m.files.keys.card < fsMaxFiles := by
      by_contra hfull
      cases Except.ok.inj ((h.full_iff.mpr hfull).symm.trans hfree)
    have hanswer : (FileRequest.create path flags).answer m =
        ({ m with files := m.files.insert (stringOf path) ⟨flags, []⟩ }, .result 0) :=
      if_pos ⟨hlookup, hcard⟩
    have hlen : 0 < (stringOf path).length ∧ (stringOf path).length < 60 := by
      rcases hfits with hsome | hfull | hlen
      · exact absurd hnone hsome
      · cases Except.ok.inj (hfull.symm.trans hfree)
      · exact hlen
    -- the new entry has the whole name
    have hname : (createdEntry path flags).name = stringOf path :=
      (createdEntry_name path flags).trans (List.take_of_length_le (by omega))
    have hused : (createdEntry path flags).isFree = false := by
      rw [← Bool.not_eq_true, isFree_iff, hname]
      exact List.length_pos_iff.mp hlen.1
    have hrecord : (FileCall.create path flags).record s 0 written =
        Function.update written idx [] := by
      rw [FileCall.record, hfree]
      rfl
    have hfreeSlot : slotsOf c written ⟨idx, hidx⟩ = none := by
      rcases findFreeFileEntry_spec htable with hno | ⟨j, hj, hsome, hisFree⟩
      · cases Except.ok.inj (hno.symm.trans hfree)
      · obtain rfl : j = idx := Option.some.inj (Except.ok.inj (hsome.symm.trans hfree))
        rw [slotsOf_entry (htable.getElem?_eq hj), FileEntry.slot_eq_none]
        exact hisFree
    have hslots : slotsOf (c.set idx (createdEntry path flags))
        ((FileCall.create path flags).record s 0 written) = Function.update (slotsOf c written)
          ⟨idx, hidx⟩ (some (stringOf path, ⟨flags, []⟩)) := by
      rw [hrecord, slotsOf_set htable.length hidx fun i hi => Function.update_of_ne hi ..,
        Function.update_self, FileEntry.slot_of_used hused, hname]
      rfl
    refine ⟨t, _, _, ?_, h.of_call hD (e := .create path flags) trivial hrun (by rw [hfs]) ?_ ?_,
      fun _ hs => ?_⟩
    · rw [FileRequest.run, hrun, hanswer]
      rfl
    · rw [hslots, hanswer]
      exact h.slots.insert hfreeSlot hlookup
    · rw [hfs, hanswer]
      exact h.free
    · refine hs.of_set htable (htable.of_set hfs rfl htable.start htable.num) (by rw [hfs]) ?_
      exact fun b howns => absurd howns (not_owns_of_empty rfl b)

theorem FilesAre.delete (hD : Backs D node view) (h : FilesAre node view lba size s c written m) :
    Answered D node view lba size s m (.delete path) := by
  have htable := h.synced.table
  rcases h.find path with ⟨hnone, hlookup⟩ | ⟨i, e, hi, hsome, he, -, hused, hname, hslot⟩
  · apply h.refused (a := .result (-1))
    · rw [FileRequest.run, fsDeleteFile, htable.node, hnone]
      rfl
    · rw [FileRequest.answer, hlookup]
  · rcases fsDeleteFile_spec hD htable path with
      ⟨-, hnone⟩ | ⟨t, idx, hidx, hrun, hfind, hstored, -⟩
    · cases Except.ok.inj (hnone.symm.trans hsome)
    · obtain rfl : idx = i := Option.some.inj (Except.ok.inj (hfind.symm.trans hsome))
      have hanswer : (FileRequest.delete path).answer m =
          ({ m with files := m.files.erase (stringOf path) }, .result 0) := by
        rw [FileRequest.answer, h.slots.lookup_of_slot hslot]
      have hzero : FileEntry.zero.slot (written idx) = none := FileEntry.slot_eq_none.mpr rfl
      refine ⟨t, _, _, ?_, h.of_call hD (e := .delete path) trivial hrun (by rw [hstored.fs]) ?_ ?_,
        fun _ hs => ?_⟩
      · rw [FileRequest.run, hrun, hanswer]
        rfl
      · rw [FileCall.record, slotsOf_set htable.length hidx fun _ _ => rfl, hzero, hanswer]
        exact h.slots.erase hslot
      · rw [hstored.fs, hanswer]
        exact h.free
      · refine hs.of_set htable (hstored.table_of htable rfl htable.start htable.num)
          (by rw [hstored.fs]) ?_
        exact fun b howns => absurd howns (not_owns_of_empty rfl b)

/-- The blocks that a write is taken to need are no more than the data fills. -/
theorem needed_le (data : List Byte) : needed data ≤ (data.length + 511) / 512 := by
  rw [needed, neededBlocks, BitVec.toNat_setWidth, BitVec.toNat_udiv, BitVec.toNat_add, sizeOf,
    BitVec.toNat_ofNat]
  show (data.length % 2 ^ 64 + 511) % 2 ^ 64 / 512 % 2 ^ 32 ≤ _
  omega

theorem FilesAre.write (hD : Backs D node view) (h : FilesAre node view lba size s c written m)
    {data : List Byte} (hfits : (FileRequest.write path data).Fits s) :
    Answered D node view lba size s m (.write path data) := by
  have htable := h.synced.table
  rcases h.find path with ⟨hnone, hlookup⟩ | ⟨i, e, hi, hsome, hget, he, hused, hname, hslot⟩
  · apply h.refused (a := .result (-1))
    · rw [FileRequest.run, fsWriteFile, hnone]
      rfl
    · rw [FileRequest.answer, hlookup]
  · have hlookup := h.slots.lookup_of_slot hslot
    have hentry : ∀ hi' : i < 32, c.entries.get ⟨i, htable.length ▸ hi'⟩ = e := fun hi' =>
      Except.ok.inj ((htable.entry hi').symm.trans he)
    rcases fsWriteFile_spec hD htable path data with
      ⟨hrun, hrefused⟩ | ⟨t, idx, hidx, hrun, hfind, hwrites, hstored, -⟩
    · apply h.refused (a := .result (-1))
      · rw [FileRequest.run, hrun]
        rfl
      · rw [FileRequest.answer, hlookup]
        apply if_neg
        rintro ⟨hflag, hroom⟩
        apply hrefused i hi hsome
        rw [hentry hi]
        exact ⟨hflag, (needed_le data).trans (h.free ▸ hroom)⟩
    · obtain rfl : idx = i := Option.some.inj (Except.ok.inj (hfind.symm.trans hsome))
      rw [hentry hidx] at hwrites hstored
      have hlt : data.length < 2 ^ 31 := (hfits idx e hsome he hwrites).1
      have hneeded := needed_eq hlt
      have hroom := hwrites.2
      have hwidth : ((sizeOf data).setWidth 32).toNat = data.length := by
        rw [BitVec.toNat_setWidth, sizeOf, BitVec.toNat_ofNat]
        omega
      have hint : ((sizeOf data).setWidth 32).toInt = data.length := by
        rw [BitVec.toInt_eq_toNat_of_lt (by omega), hwidth]
      have hanswer : (FileRequest.write path data).answer m =
          (⟨m.files.insert (stringOf path) ⟨e.flags, data⟩, m.free - 1⟩,
            .result data.length) := by
        rw [FileRequest.answer, hlookup]
        exact if_pos ⟨hwrites.1, by rw [← hneeded, ← h.free]; exact hroom⟩
      have hrecord : (FileCall.write path data).record s ((sizeOf data).setWidth 32).toInt written =
          Function.update written idx data := by
        rw [FileCall.record, hfind]
        exact if_pos (by rw [hint]; exact Int.natCast_nonneg _)
      -- the entry keeps its name and its flags
      have hslot' : (writtenEntry s e data).slot data = some (stringOf path, ⟨e.flags, data⟩) := by
        rw [FileEntry.slot_eq_some]
        exact ⟨hused, hname, rfl⟩
      have hend : e.filename 59 = 0 := htable.filename_of_entry he
      have hnext := next_allocated h.synced
      refine ⟨t, _, _, ?_, h.of_call hD (e := .write path data) hfits hrun (by rw [hstored.fs])
        ?_ ?_, fun hsmall hs => ?_⟩
      · rw [FileRequest.run, hrun, hanswer, hint]
        rfl
      · rw [hrecord, slotsOf_set htable.length hidx fun j hj => Function.update_of_ne hj ..,
          Function.update_self, hslot', hanswer]
        exact h.slots.replace hslot
      · rw [hstored.fs, hanswer]
        show (allocated s.fs.currentSuperblock).freeBlocks.toNat = m.free - 1
        rw [← h.free]
        rcases allocated_cases s.fs.currentSuperblock with ⟨hzero, heq, -⟩ | ⟨hpos, heq, -⟩
        · rw [heq, hzero]
          rfl
        · rw [heq]
          exact BitVec.toNat_sub_of_le (BitVec.le_def.mpr
            (Nat.one_le_iff_ne_zero.mpr fun h0 => hpos (BitVec.eq_of_toNat_eq h0)))
      · refine hs.of_set htable (hstored.table_of htable
          hend (allocated_start.trans htable.start)
          (allocated_num.trans htable.num)) (by rw [hstored.fs]; exact hnext.1) ?_
        rintro b ⟨-, hle, hltb⟩
        have hlen : data.length ≤ 512 := hsmall
        have hle' : (firstBlock s.fs.currentSuperblock).toNat ≤ b := hle
        have hltb' : b < (firstBlock s.fs.currentSuperblock).toNat +
            (((sizeOf data).setWidth 32).toNat + 511) / 512 := hltb
        rw [hstored.fs]
        show b < (allocated s.fs.currentSuperblock).nextFreeBlock.toNat
        -- a block is taken, or the data is empty
        rcases allocated_cases s.fs.currentSuperblock with ⟨hzero, -, -⟩ | ⟨hpos, -, hfirst⟩
        · rw [hzero] at hroom
          have hnone : needed data = 0 := Nat.le_zero.mp hroom
          omega
        · rw [hnext.2 hpos]
          rw [hfirst] at hltb'
          omega

/-! ### Requests that change nothing -/

/-- A part of a block of the data, and a part of the rest. -/
theorem take_dataBlock_take {data : List Byte} {off left : ℕ} (h : off + left ≤ data.length) :
    (List.ofFn (dataBlock data off)).take left ++ (data.drop (off + 512)).take (left - 512) =
      (data.drop off).take left := by
  have hfront : ((List.ofFn (dataBlock data off)).take (data.length - off)).length =
      min (data.length - off) 512 := by
    rw [List.length_take, List.length_ofFn]
  have hrest : left - min (data.length - off) 512 = left - 512 := by
    omega
  rw [← take_dataBlock data off, List.take_append, List.take_take, hfront, hrest,
    Nat.min_eq_left (show left ≤ data.length - off by omega)]

/-- Of blocks that hold the data, any part of it is read. -/
theorem readData_take (hD : Backs D node view) (hread : ∀ dev, Readable D node dev)
    (hnode : s.fs.mountedDiskNode = some node) {first : BitVec 32} {data : List Byte}
    (hblocks : ∀ k < (data.length + 511) / 512,
      s.blockAt view (first.toNat + k) = dataBlock data (512 * k))
    {total : ℕ} (htotal : total ≤ data.length) (n i : ℕ) (hn : i + n = (total + 511) / 512) :
    readData D s first n i (total - 512 * i) =
      some ((data.drop (512 * i)).take (total - 512 * i)) := by
  induction n generalizing i with
  | zero =>
    rw [readData, show total - 512 * i = 0 by omega, List.take_zero]
  | succ n ih =>
    have hrest := ih (i + 1) (by omega)
    have hblock : (List.ofFn (dataBlock data (512 * i))).take (total - 512 * i) ++
        (data.drop (512 * i + 512)).take (total - 512 * i - 512) =
          (data.drop (512 * i)).take (total - 512 * i) := take_dataBlock_take (by omega)
    rw [readData, readBlock_eq hD hread hnode, hblocks i (by omega)]
    show (readData D s first n (i + 1) (total - 512 * i - 512)).bind _ = _
    rw [show total - 512 * i - 512 = total - 512 * (i + 1) by omega] at hblock ⊢
    rw [hrest]
    exact congrArg some hblock

/-- A file whose blocks hold the data is read as the data, up to the size of the buffer. -/
theorem fsReadFile_take (hD : Backs D node view) (hread : ∀ dev, Readable D node dev)
    (hnode : s.fs.mountedDiskNode = some node) {idx : ℕ} {e : FileEntry} {data : List Byte}
    (hfind : findFileEntry path s.fs.fileTableCache = .ok (some idx))
    (hentry : s.entry idx = .ok e) (hflag : e.flags &&& fsFileFlagFile ≠ 0)
    (hsize : e.sizeBytes.toNat = data.length) (hlt : data.length < 2 ^ 31)
    (hblocks : ∀ k < (data.length + 511) / 512,
      s.blockAt view (e.startBlock.toNat + k) = dataBlock data (512 * k)) (n : Word) :
    fsReadFile D s path n = .ok ((min n.toNat data.length : ℕ), data.take n.toNat) := by
  have hdata := readData_take hD hread hnode hblocks (Nat.min_le_right n.toNat data.length) _ 0
    (Nat.zero_add _)
  rw [Nat.mul_zero, Nat.sub_zero, List.drop_zero] at hdata
  have htake : data.take (min n.toNat data.length) = data.take n.toNat := by
    rw [List.take_eq_take_iff, Nat.min_assoc, Nat.min_self]
  have hint : (BitVec.ofNat 32 (min n.toNat data.length)).toInt =
      (min n.toNat data.length : ℕ) := by
    rw [BitVec.toInt_ofNat']
    exact Int.bmod_eq_of_le (by omega) (by omega)
  rw [fsReadFile, hnode]
  show (findFileEntry path s.fs.fileTableCache >>= _) = _
  rw [hfind]
  show (s.entry idx >>= _) = _
  rw [hentry]
  show (if _ then _ else _) = _
  rw [if_neg hflag, hsize, hdata, htake, hint]

theorem FilesAre.read (hD : Backs D node view) (hread : ∀ dev, Readable D node dev)
    (h : FilesAre node view lba size s c written m) (n : Word) :
    Answered D node view lba size s m (.read path n) := by
  have hnode := h.synced.table.node
  rcases h.find path with ⟨hnone, hlookup⟩ | ⟨i, e, hi, hsome, hget, he, hused, hname, hslot⟩
  · apply h.refused (a := .bytes (-1) [])
    · rw [FileRequest.run, fsReadFile, hnode, hnone]
      rfl
    · rw [FileRequest.answer, hlookup]
  · have hlookup := h.slots.lookup_of_slot hslot
    by_cases hflag : e.flags &&& fsFileFlagFile = 0
    · apply h.refused (a := .bytes (-1) [])
      · rw [FileRequest.run, fsReadFile, hnode, hsome]
        show ((s.entry i >>= _) >>= _) = _
        rw [he, Outcome.ok_bind, if_pos hflag]
        rfl
      · rw [FileRequest.answer, hlookup]
        exact if_pos hflag
    · obtain ⟨hi', hentry⟩ := h.synced.table.of_entry he
      obtain ⟨hlen, hlt, hblocks⟩ := h.keeps.holds i hi' (hentry ▸ hused)
      rw [← hentry] at hlen hblocks
      have hrun := fsReadFile_take hD hread hnode hsome he hflag hlen hlt
        (fun k hk => (hblocks k hk).2.2) n
      apply h.refused (a := .bytes (min n.toNat (written i).length : ℕ) ((written i).take n.toNat))
      · rw [FileRequest.run, hrun]
        rfl
      · rw [FileRequest.answer, hlookup]
        exact if_neg hflag

theorem FilesAre.info (h : FilesAre node view lba size s c written m) :
    Answered D node view lba size s m (.info path) := by
  have hnode := h.synced.table.node
  rcases h.find path with ⟨hnone, hlookup⟩ | ⟨i, e, hi, hsome, -, he, hused, hname, hslot⟩
  · apply h.refused (a := .info none)
    · rw [FileRequest.run, fsGetFileInfo, hnode, hnone]
      rfl
    · rw [FileRequest.answer, hlookup]
      rfl
  · have hlookup := h.slots.lookup_of_slot hslot
    obtain ⟨hi', hentry⟩ := h.synced.table.of_entry he
    have hlen := (h.keeps.holds i hi' (hentry ▸ hused)).1
    rw [← hentry] at hlen
    apply h.refused (a := .info (some (stringOf path, e.flags, (written i).length)))
    · rw [FileRequest.run, fsGetFileInfo, hnode, hsome]
      show ((s.entry i >>= fun e => .ok (some e)) >>= _) = _
      rw [he, ← hname, ← hlen]
      rfl
    · rw [FileRequest.answer, hlookup]
      rfl

/-! ### Mounting the disk again -/

/-- A disk with the same blocks is mounted with the same files. -/
theorem FilesAre.mount (hD : Backs D node view) (hread : ∀ dev, Readable D node dev)
    (h : FilesAre node view lba size s c written m) {s₀ : FsState ν σ} {block : Word}
    (hblocks : ∀ j < 2 ^ 32, view s₀.dev (lba + BitVec.ofNat 32 j) = s.blockAt view j)
    (hblock : block ≠ 0) :
    ∃ t, fsMount D s₀ node lba block = (t, 0) ∧
      FilesAre node view lba size t ⟨block, 16384, c.entries⟩ written m ∧
      (Compact s → Compact t) := by
  have hsynced := h.synced
  have htable := hsynced.table
  have hsb : view s₀.dev lba = s.fs.currentSuperblock.toBlock := by
    rw [← hsynced.super, ← hblocks 0 (by omega)]
    exact congrArg (view s₀.dev) (by simp)
  have hok := fsMount_succeeds hD.stores (hread s₀.dev) hsb hsynced.signature hblock
  have hmount := fsMount_eq hD.stores hsb hok
  have hentries : ((List.range 32).map fun j => FileEntry.ofBlock
      (view s₀.dev (lba + 1 + BitVec.ofNat 32 j))) = c.entries := by
    rw [← hsynced.read_entries]
    apply List.map_congr_left
    intro j hj
    have hindex : lba + 1 + BitVec.ofNat 32 j = lba + BitVec.ofNat 32 (1 + j) := by
      rw [BitVec.ofNat_add, BitVec.add_assoc]
      rfl
    have hj' : j < 32 := List.mem_range.mp hj
    rw [hindex, hblocks (1 + j) (by omega), FsState.blockAt, hsynced.lba]
  rw [htable.num, htable.start] at hmount
  have hcache : (⟨block, 32 * 512, (List.range (32 : BitVec 32).toNat).map fun j =>
      FileEntry.ofBlock (view s₀.dev (lba + 1 + BitVec.ofNat 32 j))⟩ : Cache) =
      ⟨block, 16384, c.entries⟩ :=
    congrArg (Cache.mk block 16384) hentries
  rw [hcache] at hmount
  obtain ⟨t, ht⟩ : ∃ t : FsState ν σ, t = { s₀ with
    fs := ⟨some node, lba, s.fs.currentSuperblock, some ⟨block, 16384, c.entries⟩⟩ } := ⟨_, rfl⟩
  rw [← ht] at hmount
  have hview : ∀ j < 2 ^ 32, t.blockAt view j = s.blockAt view j := by
    intro j hj
    rw [← hblocks j hj, ht]
    rfl
  have htable' : Table node t ⟨block, 16384, c.entries⟩ := by
    rw [ht]
    exact ⟨rfl, rfl, rfl, htable.length, htable.names, htable.start, htable.num⟩
  have hsuper : t.fs.currentSuperblock = s.fs.currentSuperblock := by rw [ht]
  have hlength := htable.length
  refine ⟨t, hmount, ⟨⟨htable', ?_, ?_, ?_, ?_, ?_, ?_⟩, ⟨htable', ?_, ?_⟩, h.slots, ?_⟩, ?_⟩
  · rw [ht]
  · rw [hsuper]
    exact hsynced.signature
  · rw [hsuper]
    exact hsynced.behind
  · rw [hsuper]
    exact hsynced.room
  · rw [hview 0 (by omega), hsuper]
    exact hsynced.super
  · intro j hj
    have hj' : j < c.entries.length := hj
    rw [hview (j + 1) (by omega)]
    exact hsynced.entries j hj
  · intro i hi hfree
    obtain ⟨hlen, hlt, hheld⟩ := h.keeps.holds i hi hfree
    refine ⟨hlen, hlt, fun k hk => ?_⟩
    obtain ⟨hbehind, hbound, hdata⟩ := hheld k hk
    exact ⟨hbehind, hbound, (hview _ hbound).trans hdata⟩
  · exact h.keeps.apart
  · rw [hsuper]
    exact h.free
  · intro hs i e b he howns
    obtain ⟨hi, rfl⟩ := htable'.of_entry he
    have hi' : i < 32 := hlength ▸ hi
    rw [hsuper]
    exact hs i _ b (htable.entry hi') howns

/-- `fs_unmount` writes what is on the disk already. -/
theorem FilesAre.unmount (hD : Backs D node view) (h : FilesAre node view lba size s c written m) :
    ∃ t, fsUnmount D s = .ok (t, 0) ∧
      ∀ j < 2 ^ 32, view t.dev (lba + BitVec.ofNat 32 j) = s.blockAt view j := by
  have htable := h.synced.table
  obtain ⟨dev, hwrite, hblocks⟩ := writeBlock_spec hD htable.node 0 s.fs.currentSuperblock.toBlock
  have htable' : Table node { s with dev } c := htable.of_dev
  obtain ⟨dev', hupdate, hkeep, hnew⟩ := updateFileTable_spec hD htable'
  refine ⟨⟨{ s.fs with
    mountedDiskNode := none, mountedPartitionLba := 0, fileTableCache := none }, dev'⟩, ?_,
    fun j hj => ?_⟩
  · rw [fsUnmount, htable.node, updateSuperblock, hwrite]
    show (updateFileTable D { s with dev } >>= _) = _
    rw [hupdate]
    rfl
  · show view dev' _ = _
    have hlength := htable.length
    have hblock : view dev' (lba + BitVec.ofNat 32 j) =
        FsState.blockAt view { s with dev := dev' } j := by
      rw [FsState.blockAt, h.synced.lba]
    rw [hblock]
    by_cases hout : j < 1 ∨ 32 < j
    · rw [hkeep j hj hout, hblocks j hj]
      split_ifs with hzero
      · have hj0 : j = 0 := hzero
        rw [hj0, h.synced.super]
      · rfl
    · obtain ⟨i, rfl⟩ : ∃ i, j = i + 1 := ⟨j - 1, by omega⟩
      rw [h.synced.entries i (by omega)]
      exact hnew i (by omega)

/-! ### Any number of requests -/

/-- A request that keeps to the limits has the answer that the map gives, and leaves the files of
the map on the disk. -/
theorem filesAre_run (hD : Backs D node view) (hread : ∀ dev, Readable D node dev)
    (h : FilesAre node view lba size s c written m) {r : FileRequest} (hr : r.Fits s) :
    Answered D node view lba size s m r := by
  cases r with
  | create path flags => exact h.create hD hr
  | write path data => exact h.write hD hr
  | read path n => exact h.read hD hread n
  | delete path => exact h.delete hD
  | info path => exact h.info
  | remount block =>
    obtain ⟨s₁, hunmount, hblocks⟩ := h.unmount hD
    obtain ⟨t, hmount, ht, hcompact⟩ := h.mount hD hread hblocks hr
    refine ⟨t, _, _, ?_, ht, fun _ => hcompact⟩
    simp only [FileRequest.run, FileRequest.answer, hunmount, hmount, Outcome.ok_bind]
  | restart block =>
    have hblocks : ∀ j < 2 ^ 32, view (FsState.mk (loadedGlobals ν) s.dev).dev
        (lba + BitVec.ofNat 32 j) = s.blockAt view j := by
      intro j _
      rw [FsState.blockAt, h.synced.lba]
    obtain ⟨t, hmount, ht, hcompact⟩ := h.mount hD hread hblocks hr
    refine ⟨t, _, _, ?_, ht, fun _ => hcompact⟩
    rw [FileRequest.run, hmount]
    rfl

theorem runs_spec (hD : Backs D node view) (hread : ∀ dev, Readable D node dev)
    (requests : List FileRequest) (h : FilesAre node view lba size s c written m)
    (hfit : AllFit D node lba s requests) :
    ∃ t c written, runs D node lba s requests = .ok (t, (answers m requests).2) ∧
      FilesAre node view lba size t c written (answers m requests).1 := by
  induction requests generalizing s c written m with
  | nil => exact ⟨s, c, written, rfl, h⟩
  | cons r requests ih =>
    obtain ⟨t, c₁, written₁, hrun, ht, -⟩ := filesAre_run hD hread h hfit.1
    obtain ⟨u, c₂, written₂, hruns, hu⟩ := ih ht (hfit.2 t _ hrun)
    refine ⟨u, c₂, written₂, ?_, hu⟩
    rw [runs, hrun, Outcome.ok_bind]
    show (runs D node lba t requests >>= _) = _
    rw [hruns]
    rfl

theorem allFit_of_small (hD : Backs D node view) (hread : ∀ dev, Readable D node dev)
    (requests : List FileRequest) (h : FilesAre node view lba size s c written m) (hs : Compact s)
    (hsmall : ∀ r ∈ requests, r.Small) : AllFit D node lba s requests := by
  induction requests generalizing s c written m with
  | nil => trivial
  | cons r requests ih =>
    rw [List.forall_mem_cons] at hsmall
    have hfits := hsmall.1.fits h.synced hs
    obtain ⟨t, c₁, written₁, hrun, ht, hcompact⟩ := filesAre_run hD hread h hfits
    refine ⟨hfits, fun t' a hrun' => ?_⟩
    obtain ⟨rfl, -⟩ := Prod.mk.inj (Except.ok.inj (hrun'.symm.trans hrun))
    exact ih ht (hcompact hsmall.1 hs) hsmall.2

/-- A new file system holds no files. -/
theorem filesAre_init (hD : Backs D node view) (hsize : 33 ≤ size.toNat)
    (h : FreshlyMounted D node lba size s) :
    ∃ c written, FilesAre node view lba size s c written (FileMap.empty size) ∧ Compact s := by
  obtain ⟨block, htable, hsuper, -⟩ := table_init hD.stores h
  obtain ⟨c, hsynced⟩ := synced_init hD hsize h
  have hnew : FreshlyMounted D node lba size (⟨s, fun _ => []⟩ : FileState ν σ).disk := h
  obtain ⟨c', hkeeps⟩ := keeps_init hD hnew
  obtain rfl := Option.some.inj (hsynced.table.cache.symm.trans htable.cache)
  obtain rfl := Option.some.inj (hkeeps.table.cache.symm.trans htable.cache)
  have hzero : ∀ e ∈ (emptyCache block).entries, e = FileEntry.zero := fun e he =>
    List.eq_of_mem_replicate he
  refine ⟨_, _, ⟨hsynced, hkeeps, SlotTable.represents_empty fun i => ?_, ?_⟩,
    fun i e b he howns => ?_⟩
  · rw [slotsOf_entry (htable.getElem?_eq i.isLt), FileEntry.slot_eq_none,
      hzero _ (List.get_mem ..)]
    rfl
  · rw [hsuper]
    rfl
  · obtain ⟨hi, rfl⟩ := htable.of_entry he
    rw [hzero _ (List.get_mem ..)] at howns
    exact absurd howns (not_owns_of_empty rfl b)

/-! ### The list of the files -/

/-- What `fs_get_file_info_by_index` finds. -/
theorem fsGetFileInfoByIndex_iff (h : Table node s c) {i : Int} {e : FileEntry} :
    fsGetFileInfoByIndex s i = .ok (some e) ↔
      ∃ j : Fin 32, i = (j : ℕ) ∧ c.entries[(j : ℕ)]? = some e ∧ e.isFree = false := by
  rw [fsGetFileInfoByIndex, h.node, h.cache]
  dsimp only
  by_cases hout : i < 0 ∨ (fsMaxFiles : Int) ≤ i
  · rw [if_pos hout]
    constructor
    · intro hnone
      cases Except.ok.inj hnone
    · rintro ⟨j, rfl, -, -⟩
      have hj : (j : ℕ) < fsMaxFiles := j.isLt
      omega
  · have hmax : fsMaxFiles = 32 := rfl
    obtain ⟨j, rfl⟩ := Int.eq_ofNat_of_zero_le (show 0 ≤ i by omega)
    have hj : j < 32 := by omega
    rw [if_neg hout, Int.toNat_natCast, h.get hj, Outcome.ok_bind]
    constructor
    · intro hsome
      have hentry := Except.ok.inj hsome
      split_ifs at hentry with hfree
      obtain rfl := Option.some.inj hentry
      exact ⟨⟨j, hj⟩, rfl, h.getElem?_eq hj, Bool.eq_false_iff.mpr hfree⟩
    · rintro ⟨k, hk, hentry, hused⟩
      obtain rfl : j = k := Int.ofNat.inj hk
      obtain rfl := Option.some.inj ((h.getElem?_eq hj).symm.trans hentry)
      rw [hused]
      rfl

/-- The table lists the files of the map. -/
theorem FilesAre.lists (h : FilesAre node view lba size s c written m) : Lists s m := by
  have htable := h.synced.table
  have hslot : ∀ (j : Fin 32) e, c.entries[(j : ℕ)]? = some e → e.isFree = false →
      slotsOf c written j = some (e.name, ⟨e.flags, written j⟩) := by
    intro j e he hused
    rw [slotsOf_entry he, FileEntry.slot_of_used hused]
  have hlength : ∀ (j : Fin 32) e, c.entries[(j : ℕ)]? = some e → e.isFree = false →
      e.sizeBytes.toNat = (written j).length := by
    intro j e he hused
    obtain rfl := Option.some.inj ((htable.getElem?_eq j.isLt).symm.trans he)
    have hj : (j : ℕ) < c.entries.length := by
      rw [htable.length]
      exact j.isLt
    exact (h.keeps.holds j hj hused).1
  constructor
  · intro name flags size
    constructor
    · rintro ⟨f, hf, rfl, rfl⟩
      obtain ⟨j, hj⟩ := (h.slots.lookup name f).mp hf
      obtain ⟨e, he, hfile⟩ := Option.bind_eq_some_iff.mp hj
      obtain ⟨hused, hname, rfl⟩ := FileEntry.slot_eq_some.mp hfile
      exact ⟨(j : ℕ), e, (fsGetFileInfoByIndex_iff htable).mpr ⟨j, rfl, he, hused⟩, hname, rfl,
        hlength j e he hused⟩
    · rintro ⟨i, e, hinfo, rfl, rfl, rfl⟩
      obtain ⟨j, -, he, hused⟩ := (fsGetFileInfoByIndex_iff htable).mp hinfo
      exact ⟨_, h.slots.lookup_of_slot (hslot j e he hused), rfl, (hlength j e he hused).symm⟩
  · intro i i' e e' hinfo hinfo' hname
    obtain ⟨j, rfl, he, hused⟩ := (fsGetFileInfoByIndex_iff htable).mp hinfo
    obtain ⟨j', rfl, he', hused'⟩ := (fsGetFileInfoByIndex_iff htable).mp hinfo'
    have hj' := hslot j' e' he' hused'
    rw [← hname] at hj'
    rw [h.slots.distinct j j' e.name _ _ (hslot j e he hused) hj']

/-- Requests that keep to the limits have the answers that a map of the files gives, and the table
lists the files of the map after them. Names that fit and data of one block are within the
limits. -/
theorem disk_refines_map (hD : Backs D node view) (hread : ∀ dev, Readable D node dev)
    (hsize : 33 ≤ size.toNat) (h : FreshlyMounted D node lba size s) :
    (∀ requests, AllFit D node lba s requests →
      ∃ t, runs D node lba s requests = .ok (t, (answers (FileMap.empty size) requests).2) ∧
        Lists t (answers (FileMap.empty size) requests).1) ∧
    ∀ requests, (∀ r ∈ requests, r.Small) → AllFit D node lba s requests := by
  obtain ⟨c, written, hfiles, hcompact⟩ := filesAre_init hD hsize h
  constructor
  · intro requests hfit
    obtain ⟨t, c', written', hrun, ht⟩ := runs_spec hD hread requests hfiles hfit
    exact ⟨t, hrun, ht.lists⟩
  · exact fun requests hsmall => allFit_of_small hD hread requests hfiles hcompact hsmall

end Disk

/-- A file is written, and read after the disk was mounted again and the machine switched on. -/
theorem disk_refines_map_image :
    let requests : List FileRequest := [.create [0x61] fsFileFlagFile, .write [0x61] [1, 2, 3],
      .remount 0x1000, .create [0x61] fsFileFlagFile, .restart 0x2000, .read [0x61] 2,
      .info [0x61], .delete [0x61], .read [0x61] 2]
    ∃ t, runs imageDevices () 63 imageMounted requests = .ok (t, [.result 0, .result 3, .result 0,
      .result (-1), .result 0, .bytes 2 [1, 2], .info (some ([0x61], fsFileFlagFile, 3)),
      .result 0, .bytes (-1) []]) := by
  intro requests
  obtain ⟨hruns, hsmall⟩ := disk_refines_map imageDevices_backs (fun _ _ _ => rfl) (by decide)
    imageMounted_fresh
  obtain ⟨t, hrun, -⟩ := hruns requests (hsmall requests (by
    simp [requests, FileRequest.Small, stringOf]))
  exact ⟨t, hrun⟩

end KyroOS.Disk

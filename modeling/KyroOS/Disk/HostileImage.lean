import KyroOS.Disk.Exits
import KyroOS.Disk.Ide
import KyroOS.Disk.MountFailure

/-!
# Images that nobody formatted

`fs_mount` takes the number of table blocks from the disk. Memory is allocated for that number in
32 bits, the driver transfers its low 8 bits, and the searches go through 32 entries whatever it
is.

## Main definitions

* `Inside` — the calls that look at the table stay inside of what was read, and of the names
* `SafeTable` — the superblock and the table on the disk under which they do
* `Indexed` — what a mount and the later calls keep of the cached table

## Main results

* `inside_iff_safeTable` — the later calls stay inside just when the image is safe
* `not_inside` — a table of one block is mounted and searched behind its end
-/

namespace KyroOS.Disk

open Transition
open Vfs (CString)

/-- The name ends inside of its field. -/
def Terminated (filename : Fin 60 → Byte) : Prop := ∃ k, filename k = 0

section Hostile

variable {ν σ : Type}

/-- Every call that looks at the table comes back: it reads no entry that was not filled, and no
comparison leaves the field of a name. -/
structure Inside (D : Devices ν σ) (u : FsState ν σ) : Prop where
  find : ∀ path, ∃ r, findFileEntry path u.fs.fileTableCache = .ok r
  findFree : ∃ r, findFreeFileEntry u.fs.fileTableCache = .ok r
  infoByIndex : ∀ index, ∃ r, fsGetFileInfoByIndex u index = .ok r
  create : ∀ path flags, ∃ r, fsCreateFile D u path flags = .ok r
  update : ∃ r, updateFileTable D u = .ok r

/-- The file calls after a mount. -/
def callSystem (D : Devices ν σ) (t : FsState ν σ) : System (FsState ν σ) FileCall where
  init := fun s => s = t
  step := fun s e s' => ∃ r, e.run D s = .ok (s', r)

end Hostile

/-! ### The image -/

section Image

variable {σ : Type}

/-- The superblock on the disk. -/
def superblockAt (P : Drive σ) (dev : σ) (node : IdeNode) (lba : BitVec 32) : Superblock :=
  .ofBlock ((P.sector dev (sectorOf (node.absoluteLba lba))).getD zeroBlock)

/-- Of the table at least 32 blocks are read; no block of it that `update_file_table` comes to was
left out, where a partition stops it at the first block that is not its own; and the first 32 names
end inside of their fields. -/
structure SafeTable (P : Drive σ) (dev : σ) (node : IdeNode) (lba : BitVec 32) (sb : Superblock) :
    Prop where
  enough : 32 ≤ sb.fileTableNumBlocks.toNat % 256
  written : ∀ i < sb.fileTableNumBlocks.toNat,
    (∀ k < i, node.Accepts (lba + (sb.fileTableStartBlock + BitVec.ofNat 32 k)) 1) →
      i < sb.fileTableNumBlocks.toNat % 256
  names : ∀ i < 32, ∀ b,
    P.sector dev (sectorOf (node.absoluteLba (lba + sb.fileTableStartBlock)) + i) = some b →
      Terminated (FileEntry.ofBlock b).filename

/-- The cached table has the entries that were read for the superblock `sb`. -/
structure Indexed {ν : Type} (node : ν) (lba : BitVec 32) (sb : Superblock) (u : FsState ν σ)
    (c : Cache) : Prop where
  node : u.fs.mountedDiskNode = some node
  lba : u.fs.mountedPartitionLba = lba
  cache : u.fs.fileTableCache = some c
  start : u.fs.currentSuperblock.fileTableStartBlock = sb.fileTableStartBlock
  num : u.fs.currentSuperblock.fileTableNumBlocks = sb.fileTableNumBlocks
  size : c.size = sb.fileTableNumBlocks * 512
  length : c.entries.length = sb.fileTableNumBlocks.toNat % 256

end Image

section Calls

variable {ν σ : Type} {D : Devices ν σ} {node : ν} {lba : BitVec 32} {sb : Superblock}
  {s s' u : FsState ν σ} {c : Cache} {path : CString}

/-! ### Entries -/

/-- The entries that were read are those that can be indexed. -/
theorem Indexed.get (h : Indexed node lba sb u c) {i : ℕ} (hi : i < c.entries.length) :
    c.get i = .ok (c.entries.get ⟨i, hi⟩) := by
  have hlen := h.length
  have hsize : 512 * i < c.size.toNat := by
    rw [h.size, BitVec.toNat_mul]
    show 512 * i < sb.fileTableNumBlocks.toNat * 512 % 2 ^ 32
    omega
  rw [Cache.get, if_pos hsize, List.getElem?_eq_getElem hi]
  rfl

theorem lt_length_of_get {i : ℕ} {e : FileEntry} (h : c.get i = .ok e) :
    i < c.entries.length := by
  rw [Cache.get] at h
  split_ifs at h
  by_contra hlt
  rw [List.getElem?_eq_none (not_lt.mp hlt)] at h
  cases h

/-- No entry has the empty name. -/
theorem isNamed_nil (e : FileEntry) : e.isNamed [] = .ok false := by
  rw [FileEntry.isNamed]
  split_ifs with hfree
  · rfl
  · have hfirst : e.filename 0 ≠ 0 := fun hzero => hfree (decide_eq_true hzero)
    rw [strcmpFilename, strcmpFrom, dif_pos (by omega)]
    rw [if_neg fun h => hfirst h.2]
    exact congrArg Except.ok (decide_eq_false hfirst)

/-- A comparison with a path of 60 characters does not find them equal. -/
theorem strcmpFrom_false {filename : Fin 60 → Byte} (hpath : ∀ i < 60, charAt path i ≠ 0)
    (n : ℕ) (r : Bool) (hn : n ≤ 60) (h : strcmpFrom filename path n = .ok r) : r = false := by
  induction n with
  | zero => cases h
  | succ n ih =>
    rw [strcmpFrom] at h
    split_ifs at h with hlt hsame hsame
    · exact ih (by omega) h
    · rw [← Except.ok.inj h]
      refine decide_eq_false fun heq => hsame ⟨?_, heq⟩
      rw [heq]
      exact hpath _ (by omega)
    · omega
    · omega

/-- A comparison of a name that does not end with its own characters leaves the field. -/
theorem strcmpFrom_fault {filename : Fin 60 → Byte} (hname : ¬ Terminated filename) (n : ℕ)
    (hn : n ≤ 60) : strcmpFrom filename (List.ofFn filename) n = .error .fault := by
  induction n with
  | zero => rfl
  | succ n ih =>
    have hchar : charAt (List.ofFn filename) (59 - n) = filename ⟨59 - n, by omega⟩ := by
      rw [charAt, List.getD_eq_getElem?_getD, List.getElem?_ofFn, dif_pos (by omega)]
      rfl
    rw [strcmpFrom, dif_pos (by omega)]
    rw [if_pos ⟨fun hzero => hname ⟨_, hzero⟩, hchar.symm⟩]
    exact ih (by omega)

/-- A search faults at the first entry whose test faults. -/
theorem findEntry_fault {p : FileEntry → Outcome Bool} {k : ℕ} {e : FileEntry}
    (hget : c.get k = .ok e) (hfault : p e = .error .fault) (n i : ℕ) (hle : i ≤ k)
    (hlt : k < i + n)
    (hbefore : ∀ j, i ≤ j → j < k → ∃ e', c.get j = .ok e' ∧ p e' = .ok false) :
    findEntry c p n i = .error .fault := by
  induction n generalizing i with
  | zero => exact absurd hlt (by omega)
  | succ n ih =>
    rw [findEntry]
    by_cases hik : i = k
    · rw [hik, hget]
      show (p e >>= _) = _
      rw [hfault]
      rfl
    · obtain ⟨e', hget', hfalse⟩ := hbefore i le_rfl (by omega)
      rw [hget']
      show (p e' >>= _) = _
      rw [hfalse]
      exact ih (i + 1) (by omega) (by omega)
        fun j hle' hlt' => hbefore j (by omega) hlt'

/-- A search that finds nothing has read every entry. -/
theorem get_of_findEntry {p : FileEntry → Outcome Bool} (hp : ∀ e, p e = .ok false) (n i : ℕ)
    (r : Option ℕ) (h : findEntry c p n i = .ok r) (j : ℕ) (hle : i ≤ j) (hlt : j < i + n) :
    ∃ e, c.get j = .ok e := by
  induction n generalizing i with
  | zero => exact absurd hlt (by omega)
  | succ n ih =>
    rw [findEntry] at h
    obtain ⟨e, hget, hrest⟩ := Outcome.bind_eq_ok.mp h
    rw [hp e] at hrest
    by_cases hij : i = j
    · exact ⟨e, hij ▸ hget⟩
    · exact ih (i + 1) hrest (by omega) (by omega)

/-! ### The cached table after a mount -/

/-- The cached table is that of the superblock `sb`, and its first 32 names end. -/
def Sound (node : ν) (lba : BitVec 32) (sb : Superblock) (u : FsState ν σ) : Prop :=
  ∃ c, Indexed node lba sb u c ∧
    ∀ i < 32, ∀ hi : i < c.entries.length, Terminated (c.entries.get ⟨i, hi⟩).filename

/-- The globals but for the counters of the superblock decide. -/
theorem Sound.congr (h : Sound node lba sb s) (hnode : s'.fs.mountedDiskNode = s.fs.mountedDiskNode)
    (hlba : s'.fs.mountedPartitionLba = s.fs.mountedPartitionLba)
    (hcache : s'.fs.fileTableCache = s.fs.fileTableCache)
    (hstart : s'.fs.currentSuperblock.fileTableStartBlock =
      s.fs.currentSuperblock.fileTableStartBlock)
    (hnum : s'.fs.currentSuperblock.fileTableNumBlocks =
      s.fs.currentSuperblock.fileTableNumBlocks) : Sound node lba sb s' := by
  obtain ⟨c, hc, hnames⟩ := h
  exact ⟨c, ⟨hnode.trans hc.node, hlba.trans hc.lba, hcache.trans hc.cache, hstart.trans hc.start,
    hnum.trans hc.num, hc.size, hc.length⟩, hnames⟩

theorem Sound.of_fs (h : Sound node lba sb s) (hfs : s'.fs = s.fs) : Sound node lba sb s' :=
  h.congr (by rw [hfs]) (by rw [hfs]) (by rw [hfs]) (by rw [hfs]) (by rw [hfs])

/-- An entry is set whose name ends. -/
theorem Sound.setEntry {e : FileEntry} (h : Sound node lba sb s) (idx : ℕ)
    (he : Terminated e.filename) : Sound node lba sb (s.setEntry idx e) := by
  obtain ⟨c, hc, hnames⟩ := h
  have hlen : (c.entries.set idx e).length = c.entries.length := List.length_set ..
  refine ⟨c.set idx e, ⟨hc.node, hc.lba, ?_, hc.start, hc.num, hc.size, hlen.trans hc.length⟩,
    fun i hi hi' => ?_⟩
  · show s.fs.fileTableCache.map _ = _
    rw [hc.cache]
    rfl
  · have hget : (c.set idx e).entries.get ⟨i, hi'⟩ =
        if idx = i then e else c.entries.get ⟨i, hlen ▸ hi'⟩ := List.getElem_set ..
    rw [hget]
    split_ifs
    · exact he
    · exact hnames i hi _

/-- The first 32 entries can be read, and their names end. -/
theorem Sound.get (h : Sound node lba sb u) (henough : 32 ≤ sb.fileTableNumBlocks.toNat % 256) :
    ∃ c, u.fs.fileTableCache = some c ∧
      ∀ i < 32, ∃ e, c.get i = .ok e ∧ Terminated e.filename := by
  obtain ⟨c, hc, hnames⟩ := h
  refine ⟨c, hc.cache, fun i hi => ?_⟩
  have hlt : i < c.entries.length := by
    rw [hc.length]
    omega
  exact ⟨_, hc.get hlt, hnames i hi hlt⟩

/-- A search for a name comes back, with one of the first 32 entries. -/
theorem Sound.find (h : Sound node lba sb u) (henough : 32 ≤ sb.fileTableNumBlocks.toNat % 256)
    (path : CString) : findFileEntry path u.fs.fileTableCache = .ok none ∨ ∃ j e,
      findFileEntry path u.fs.fileTableCache = .ok (some j) ∧ u.entry j = .ok e ∧
        Terminated e.filename := by
  obtain ⟨c, hcache, hget⟩ := h.get henough
  have hentry : ∀ j, 0 ≤ j → j < 0 + fsMaxFiles →
      ∃ e r, c.get j = .ok e ∧ e.isNamed path = .ok r := by
    intro j _ hlt
    obtain ⟨e, he, k, hk⟩ := hget j (by rw [fsMaxFiles] at hlt; omega)
    obtain ⟨r, hr⟩ := isNamed_ok path hk
    exact ⟨e, r, he, hr⟩
  rw [hcache]
  rcases findEntry_cases fsMaxFiles 0 hentry with hnone | ⟨j, e, -, hlt, hsome, he, -⟩
  · exact .inl hnone
  · obtain ⟨e', he', hend⟩ := hget j (by rw [fsMaxFiles] at hlt; omega)
    refine .inr ⟨j, e', hsome, ?_, hend⟩
    rw [FsState.entry, hcache]
    exact he'

theorem Sound.findFree (h : Sound node lba sb u)
    (henough : 32 ≤ sb.fileTableNumBlocks.toNat % 256) :
    ∃ r, findFreeFileEntry u.fs.fileTableCache = .ok r := by
  obtain ⟨c, hcache, hget⟩ := h.get henough
  have hentry : ∀ j, 0 ≤ j → j < 0 + fsMaxFiles →
      ∃ e r, c.get j = .ok e ∧ (Except.ok e.isFree : Outcome Bool) = .ok r := by
    intro j _ hlt
    obtain ⟨e, he, -⟩ := hget j (by rw [fsMaxFiles] at hlt; omega)
    exact ⟨e, _, he, rfl⟩
  rw [hcache]
  rcases findEntry_cases (p := fun e => .ok e.isFree) fsMaxFiles 0 hentry with
    hnone | ⟨j, e, -, -, hsome, -⟩
  · exact ⟨_, hnone⟩
  · exact ⟨_, hsome⟩

/-- `strncpy` leaves the last character for the NUL. -/
theorem terminated_copyFilename (path : CString) : Terminated (copyFilename path) :=
  ⟨59, rfl⟩

/-- `allocate_block` changes the counters of the superblock only. -/
theorem Sound.allocateBlock (h : Sound node lba sb s) :
    Sound node lba sb (Disk.allocateBlock D s).1 := by
  rw [Disk.allocateBlock]
  dsimp only
  split_ifs
  · exact h
  · rw [updateSuperblock]
    have hfs := writeBlock_fs (D := D) (s := { s with fs := { s.fs with
      currentSuperblock := { s.fs.currentSuperblock with
        nextFreeBlock := s.fs.currentSuperblock.nextFreeBlock + 1
        freeBlocks := s.fs.currentSuperblock.freeBlocks - 1 } } }) 0
      { s.fs.currentSuperblock with
        nextFreeBlock := s.fs.currentSuperblock.nextFreeBlock + 1
        freeBlocks := s.fs.currentSuperblock.freeBlocks - 1 }.toBlock
    exact h.congr (by rw [hfs]) (by rw [hfs]) (by rw [hfs]) (by rw [hfs]) (by rw [hfs])

/-- A call for a file keeps the cached table what it is. -/
theorem Sound.run (h : Sound node lba sb s) (henough : 32 ≤ sb.fileTableNumBlocks.toNat % 256)
    {e : FileCall} {r : Int} (hrun : e.run D s = .ok (s', r)) : Sound node lba sb s' := by
  have hnode : s.fs.mountedDiskNode = some node := by
    obtain ⟨c, hc, -⟩ := h
    exact hc.node
  cases e with
  | create path flags =>
    rw [FileCall.run, fsCreateFile, hnode] at hrun
    obtain ⟨found, -, hrest⟩ := Outcome.bind_eq_ok.mp hrun
    split_ifs at hrest
    · rw [← (Prod.mk.inj (Except.ok.inj hrest)).1]
      exact h
    · obtain ⟨free, -, hrest'⟩ := Outcome.bind_eq_ok.mp hrest
      split at hrest'
      · rw [← (Prod.mk.inj (Except.ok.inj hrest')).1]
        exact h
      next idx =>
        obtain ⟨⟨t, ok⟩, hupdate, hres⟩ := Outcome.bind_eq_ok.mp hrest'
        rw [← (Prod.mk.inj (Except.ok.inj hres)).1]
        exact (h.setEntry idx (terminated_copyFilename path)).of_fs (updateFileTable_fs hupdate)
  | delete path =>
    rw [FileCall.run, fsDeleteFile, hnode] at hrun
    obtain ⟨found, -, hrest⟩ := Outcome.bind_eq_ok.mp hrun
    split at hrest
    · rw [← (Prod.mk.inj (Except.ok.inj hrest)).1]
      exact h
    next idx =>
      obtain ⟨⟨t, ok⟩, hupdate, hres⟩ := Outcome.bind_eq_ok.mp hrest
      rw [← (Prod.mk.inj (Except.ok.inj hres)).1]
      exact (h.setEntry idx ⟨0, rfl⟩).of_fs (updateFileTable_fs hupdate)
  | write path data =>
    rw [FileCall.run, fsWriteFile] at hrun
    rcases h.find henough path with hnone | ⟨idx, e, hfind, hentry, hend⟩
    · rw [hnone] at hrun
      rw [← (Prod.mk.inj (Except.ok.inj hrun)).1]
      exact h
    · obtain ⟨found, hfound, hrest⟩ := Outcome.bind_eq_ok.mp hrun
      obtain rfl := Except.ok.inj (hfind.symm.trans hfound)
      obtain ⟨e', he', hrest'⟩ := Outcome.bind_eq_ok.mp hrest
      obtain rfl : e = e' := Except.ok.inj (hentry.symm.trans he')
      by_cases hflag : e.flags &&& fsFileFlagFile = 0
      · rw [if_pos hflag] at hrest'
        rw [← (Prod.mk.inj (Except.ok.inj hrest')).1]
        exact h
      · rw [if_neg hflag] at hrest'
        dsimp only at hrest'
        split_ifs at hrest'
        · rw [← (Prod.mk.inj (Except.ok.inj hrest')).1]
          exact h
        · have hset := (h.allocateBlock (D := D)).setEntry idx
            (e := { e with startBlock := (Disk.allocateBlock D s).2 }) hend
          have hfs := writeData_fs (D := D) (Disk.allocateBlock D s).2 data
            (neededBlocks (BitVec.ofNat 64 data.length)).toNat 0
            ((Disk.allocateBlock D s).1.setEntry idx
              { e with startBlock := (Disk.allocateBlock D s).2 })
          split at hrest'
          next t heq =>
            rw [heq] at hfs
            rw [← (Prod.mk.inj (Except.ok.inj hrest')).1]
            exact hset.of_fs hfs
          next t heq =>
            rw [heq] at hfs
            obtain ⟨⟨t', ok⟩, hupdate, hres⟩ := Outcome.bind_eq_ok.mp hrest'
            rw [← (Prod.mk.inj (Except.ok.inj hres)).1]
            have hset' := (hset.of_fs hfs).setEntry idx
              (e := { e with
                startBlock := (Disk.allocateBlock D s).2
                sizeBytes := (BitVec.ofNat 64 data.length).setWidth 32 }) hend
            exact hset'.of_fs (updateFileTable_fs hupdate)

end Calls

section Safe

variable {σ : Type} {P : Drive σ} {dev : σ} {node : IdeNode} {lba : BitVec 32} {sb : Superblock}
  {s t u : FsState IdeNode σ} {c : Cache} {block : Word}

/-! ### Writing the table -/

theorem Indexed.of_fs (h : Indexed node lba sb s c) (hfs : u.fs = s.fs) :
    Indexed node lba sb u c :=
  ⟨by rw [hfs, h.node], by rw [hfs, h.lba], by rw [hfs, h.cache], by rw [hfs, h.start],
    by rw [hfs, h.num], h.size, h.length⟩

/-- A block is written only where the node takes it. -/
theorem Indexed.accepts {b : Block} {i : ℕ} (h : Indexed node lba sb u c)
    (hok : (writeBlock (ideDevices P) u
      (u.fs.currentSuperblock.fileTableStartBlock + BitVec.ofNat 32 i) b).2 = true) :
    node.Accepts (lba + (sb.fileTableStartBlock + BitVec.ofNat 32 i)) 1 := by
  rw [writeBlock, h.node, h.start, h.lba] at hok
  by_contra hrefused
  have hok' : (ideIoctlWrite P node u.dev
      (lba + (sb.fileTableStartBlock + BitVec.ofNat 32 i)) b).2 = true := hok
  rw [ideIoctlWrite, if_neg hrefused] at hok'
  cases hok'

/-- The table is written where every entry that is come to was read. -/
theorem Indexed.writeTable (n i : ℕ) (u : FsState IdeNode σ) (h : Indexed node lba sb u c)
    (hreach : ∀ j, i ≤ j → j < i + n → (∀ k, i ≤ k → k < j →
      node.Accepts (lba + (sb.fileTableStartBlock + BitVec.ofNat 32 k)) 1) →
        j < c.entries.length) : ∃ r, Disk.writeTable (ideDevices P) c n i u = .ok r := by
  induction n generalizing i u with
  | zero => exact ⟨_, rfl⟩
  | succ n ih =>
    have hi : i < c.entries.length :=
      hreach i le_rfl (by omega) fun k hle hlt => absurd hlt (by omega)
    have haccepts := h.accepts (P := P) (i := i) (b := (c.entries.get ⟨i, hi⟩).toBlock)
    have hfs := writeBlock_fs (D := ideDevices P) (s := u)
      (u.fs.currentSuperblock.fileTableStartBlock + BitVec.ofNat 32 i)
      (c.entries.get ⟨i, hi⟩).toBlock
    rw [writeTable_succ (h.get hi)]
    split
    next t heq =>
      rw [heq] at hfs haccepts
      refine ih (i + 1) t (h.of_fs hfs) fun j hle hlt hbefore => ?_
      refine hreach j (by omega) (by omega) fun k hle' hlt' => ?_
      rcases Nat.eq_or_lt_of_le hle' with rfl | hlt''
      · exact haccepts rfl
      · exact hbefore k hlt'' hlt'
    next t heq => exact ⟨_, rfl⟩

/-- A drive that takes every write. -/
def acceptingDrive : Drive σ := ⟨fun _ _ => none, fun dev _ _ => (dev, true)⟩

/-- Where the drive takes every write, the entries up to the first block that the node refuses are
all read. -/
theorem Indexed.lt_length (n i : ℕ) (u : FsState IdeNode σ) (r : FsState IdeNode σ × Bool)
    (h : Indexed node lba sb u c)
    (hwrite : Disk.writeTable (ideDevices acceptingDrive) c n i u = .ok r) (j : ℕ) (hle : i ≤ j)
    (hlt : j < i + n)
    (haccepts : ∀ k, i ≤ k → k < j →
      node.Accepts (lba + (sb.fileTableStartBlock + BitVec.ofNat 32 k)) 1) :
    j < c.entries.length := by
  induction n generalizing i with
  | zero => exact absurd hlt (by omega)
  | succ n ih =>
    rw [Disk.writeTable] at hwrite
    obtain ⟨e, hget, hrest⟩ := Outcome.bind_eq_ok.mp hwrite
    rcases Nat.eq_or_lt_of_le hle with rfl | hlt'
    · exact lt_length_of_get hget
    · have hstep : Disk.writeBlock (ideDevices acceptingDrive) u
          (u.fs.currentSuperblock.fileTableStartBlock + BitVec.ofNat 32 i) e.toBlock =
          (u, true) := by
        rw [writeBlock, h.node, h.start, h.lba]
        have hwrite : (ideDevices acceptingDrive).write node u.dev
            (lba + (sb.fileTableStartBlock + BitVec.ofNat 32 i)) e.toBlock = (u.dev, true) :=
          if_pos (haccepts i le_rfl hlt')
        exact congrArg (fun res : σ × Bool => (({ u with dev := res.1 } : FsState IdeNode σ), res.2))
          hwrite
      rw [hstep] at hrest
      exact ih (i + 1) hrest (by omega) (by omega)
        fun k hle' hlt'' => haccepts k (by omega) hlt''

/-! ### Inside of a safe image -/

/-- The table is written from a state whose cached table is safe. -/
theorem Sound.update (h : Sound node lba sb u) (hsafe : SafeTable P dev node lba sb)
    (P' : Drive σ) : ∃ r, updateFileTable (ideDevices P') u = .ok r := by
  obtain ⟨c, hc, -⟩ := h
  rw [updateFileTable, hc.cache]
  dsimp only
  rw [hc.num]
  refine hc.writeTable _ 0 u fun j _ hlt haccepts => ?_
  rw [hc.length]
  rw [Nat.zero_add] at hlt
  exact hsafe.written j hlt fun k hk => haccepts k (Nat.zero_le k) hk

theorem Sound.inside (h : Sound node lba sb u) (hsafe : SafeTable P dev node lba sb)
    (P' : Drive σ) : Inside (ideDevices P') u := by
  have hnode : u.fs.mountedDiskNode = some node := by
    obtain ⟨c, hc, -⟩ := h
    exact hc.node
  have hfind : ∀ path, ∃ r, findFileEntry path u.fs.fileTableCache = .ok r := by
    intro path
    rcases h.find hsafe.enough path with hnone | ⟨j, e, hsome, -, -⟩
    · exact ⟨_, hnone⟩
    · exact ⟨_, hsome⟩
  refine ⟨hfind, h.findFree hsafe.enough, fun index => ?_, fun path flags => ?_,
    h.update hsafe P'⟩
  · obtain ⟨c, hcache, hget⟩ := h.get hsafe.enough
    rw [fsGetFileInfoByIndex, hnode, hcache]
    dsimp only
    split_ifs with hrange
    · exact ⟨_, rfl⟩
    · obtain ⟨e, he, -⟩ := hget index.toNat (by rw [fsMaxFiles] at hrange; omega)
      rw [he]
      exact ⟨_, rfl⟩
  · obtain ⟨found, hfound⟩ := hfind path
    obtain ⟨free, hfree⟩ := h.findFree hsafe.enough
    rw [fsCreateFile, hnode]
    dsimp only
    rw [hfound]
    cases found with
    | some idx => exact ⟨_, rfl⟩
    | none =>
      rw [hfree]
      cases free with
      | none => exact ⟨_, rfl⟩
      | some idx =>
        obtain ⟨⟨t, ok⟩, hupdate⟩ := (h.setEntry idx (e := { FileEntry.zero with
          filename := copyFilename path, flags }) (terminated_copyFilename path)).update hsafe P'
        refine ⟨(t, 0), ?_⟩
        show (updateFileTable (ideDevices P') _ >>= _) = _
        rw [hupdate]
        rfl

/-! ### What a mount reads -/

/-- What `fs_mount` makes of the disk. -/
theorem indexed_of_mount (h : fsMount (ideDevices P) s node lba block = (t, 0)) :
    ∃ c, Indexed node lba (superblockAt P s.dev node lba) t c ∧
      ∀ i, ∀ hi : i < c.entries.length, ∃ b,
        P.sector s.dev (sectorOf (node.absoluteLba
          (lba + (superblockAt P s.dev node lba).fileTableStartBlock)) + i) = some b ∧
        c.entries.get ⟨i, hi⟩ = FileEntry.ofBlock b := by
  obtain ⟨blocks, table, superblock, hblocks, hsb, -, htable, rfl⟩ := fsMount_eq_zero h
  have hread : ∀ {lba' count blocks}, (ideDevices P).read node s.dev lba' count = some blocks →
      readSectors P s.dev (count.setWidth 8).toNat (sectorOf (node.absoluteLba lba')) =
        some blocks := by
    intro lba' count blocks hread
    have hread' : ideIoctlRead P node s.dev lba' count = some blocks := hread
    rw [ideIoctlRead] at hread'
    split_ifs at hread'
    exact hread'
  -- the superblock is the one sector that was read for it
  have hone := hread hblocks
  have hzero : lba + 0 = lba := BitVec.add_zero lba
  rw [hzero] at hone
  have hlen : blocks.length = 1 := length_readSectors hone
  obtain ⟨b, rfl⟩ := List.length_eq_one_iff.mp hlen
  have hsector := getElem_readSectors hone 0 (by rw [hlen]; exact one_pos)
  have hsuper : superblock = superblockAt P s.dev node lba := by
    rw [hsb, superblockAt, ← Nat.add_zero (sectorOf _), hsector]
    rfl
  rw [← hsuper]
  -- the table
  have hmany := hread htable
  have hcount : table.length = superblock.fileTableNumBlocks.toNat % 256 := by
    rw [length_readSectors hmany, BitVec.toNat_setWidth]
  refine ⟨_, ⟨rfl, rfl, rfl, rfl, rfl, rfl, by rw [List.length_map, hcount]⟩, fun i hi => ?_⟩
  have hi' : i < table.length := by
    rw [List.length_map] at hi
    exact hi
  exact ⟨_, getElem_readSectors hmany i hi', List.getElem_map ..⟩

/-- A search for the characters of a name that does not end leaves the name. -/
theorem terminated_of_find (hget : ∀ i < 32, ∃ e, c.get i = .ok e)
    (hfind : ∀ path, ∃ r, findFileEntry path (some c) = .ok r) :
    ∀ i < 32, ∀ e, c.get i = .ok e → Terminated e.filename := by
  intro i
  induction i using Nat.strong_induction_on with
  | _ i ih =>
    intro hi e he
    by_contra hend
    obtain ⟨r, hr⟩ := hfind (List.ofFn e.filename)
    have huse : e.isFree = false := decide_eq_false fun hzero => hend ⟨0, hzero⟩
    have hfault : e.isNamed (List.ofFn e.filename) = .error .fault := by
      rw [FileEntry.isNamed, huse]
      exact strcmpFrom_fault hend 60 le_rfl
    have hpath : ∀ j < 60, charAt (List.ofFn e.filename) j ≠ 0 := by
      intro j hj hzero
      rw [charAt, List.getD_eq_getElem?_getD, List.getElem?_ofFn, dif_pos hj] at hzero
      exact hend ⟨_, hzero⟩
    have hbefore : ∀ j, 0 ≤ j → j < i → ∃ e', c.get j = .ok e' ∧
        e'.isNamed (List.ofFn e.filename) = .ok false := by
      intro j _ hj
      obtain ⟨e', he'⟩ := hget j (by omega)
      obtain ⟨k, hk⟩ := ih j hj (by omega) e' he'
      refine ⟨e', he', ?_⟩
      rw [FileEntry.isNamed]
      split_ifs
      · rfl
      · obtain ⟨r', hr'⟩ := strcmpFrom_ok (List.ofFn e.filename) hk 60 (Nat.zero_le _)
          le_rfl
        rw [strcmpFilename, hr', strcmpFrom_false hpath 60 r' le_rfl hr']
    have hsearch : findFileEntry (List.ofFn e.filename) (some c) = .error .fault :=
      findEntry_fault he hfault fsMaxFiles 0 (Nat.zero_le i) (by rw [fsMaxFiles]; omega) hbefore
    rw [hsearch] at hr
    cases hr

/-- After a mount that succeeds, every later call stays inside of the table and of the names,
whatever the drive does, just when the image is safe. -/
theorem inside_iff_safeTable (h : fsMount (ideDevices P) s node lba block = (t, 0)) :
    (∀ (P' : Drive σ) u, (callSystem (ideDevices P') t).Reachable u →
        Inside (ideDevices P') u) ↔
      SafeTable P s.dev node lba (superblockAt P s.dev node lba) := by
  obtain ⟨c, hc, hentries⟩ := indexed_of_mount h
  constructor
  · intro hall
    have hinside := hall acceptingDrive t (.init rfl)
    -- the search for the empty name reads every entry
    have hget : ∀ i < 32, ∃ e, c.get i = .ok e := by
      intro i hi
      obtain ⟨r, hr⟩ := hinside.find []
      rw [hc.cache] at hr
      exact get_of_findEntry isNamed_nil fsMaxFiles 0 r hr i (Nat.zero_le i)
        (by rw [fsMaxFiles]; omega)
    obtain ⟨r, hr⟩ := hinside.update
    rw [updateFileTable, hc.cache] at hr
    dsimp only at hr
    rw [hc.num] at hr
    refine ⟨?_, fun i hi haccepts => ?_, fun i hi b hb => ?_⟩
    · obtain ⟨e, he⟩ := hget 31 (by omega)
      have hlt := lt_length_of_get he
      rw [hc.length] at hlt
      omega
    · rw [← hc.length]
      exact hc.lt_length _ 0 t r hr i (Nat.zero_le i) (by omega) fun k _ hk => haccepts k hk
    · obtain ⟨e, he⟩ := hget i hi
      have hlt := lt_length_of_get he
      obtain ⟨b', hb', hentry⟩ := hentries i hlt
      obtain rfl : b = b' := Option.some.inj (hb.symm.trans hb')
      have hfind : ∀ path, ∃ r, findFileEntry path (some c) = .ok r := hc.cache ▸ hinside.find
      rw [← hentry]
      exact terminated_of_find hget hfind i hi _ (hc.get hlt)
  · intro hsafe P' u hu
    have hsound : Sound node lba (superblockAt P s.dev node lba) u := by
      apply hu.invariant (I := Sound node lba (superblockAt P s.dev node lba))
      · rintro s rfl
        refine ⟨c, hc, fun i hi hlt => ?_⟩
        obtain ⟨b, hb, hentry⟩ := hentries i hlt
        rw [hentry]
        exact hsafe.names i hi b hb
      · rintro s e s' hs - ⟨r, hrun⟩
        exact hs.run hsafe.enough hrun
    exact hsound.inside hsafe P'

end Safe

/-! ### Two images -/

section Small

/-- A disk with the given superblock in front of zeros. -/
def zeroDrive (sb : Superblock) : Drive Unit where
  sector := fun _ n => some (if n = 0 then sb.toBlock else zeroBlock)
  store := fun dev _ _ => (dev, true)

/-- Nothing is mounted. -/
def nothingMounted : FsState IdeNode Unit := ⟨⟨none, 0, .ofBlock zeroBlock, none⟩, ()⟩

theorem superblockAt_zeroDrive (sb : Superblock) :
    superblockAt (zeroDrive sb) () .disk 0 = sb :=
  Superblock.ofBlock_toBlock sb

/-- A mount of such a disk. -/
def zeroMounted (sb : Superblock) : FsState IdeNode Unit :=
  (fsMount (ideDevices (zeroDrive sb)) nothingMounted .disk 0 0x1000).1

theorem zeroMounted_eq {sb : Superblock}
    (h : (fsMount (ideDevices (zeroDrive sb)) nothingMounted .disk 0 0x1000).2 = 0) :
    fsMount (ideDevices (zeroDrive sb)) nothingMounted .disk 0 0x1000 = (zeroMounted sb, 0) :=
  Prod.ext rfl h

/-- The image of a file system of 40 blocks is safe. -/
theorem inside_zeroDrive :
    fsMount (ideDevices (zeroDrive (newSuperblock 40))) nothingMounted .disk 0 0x1000 =
        (zeroMounted (newSuperblock 40), 0) ∧
      ∀ (P' : Drive Unit) u,
        (callSystem (ideDevices P') (zeroMounted (newSuperblock 40))).Reachable u →
          Inside (ideDevices P') u := by
  have hmount := @zeroMounted_eq (newSuperblock 40) (by decide)
  refine ⟨hmount, ?_⟩
  apply (inside_iff_safeTable hmount).mpr
  have hsb : superblockAt (zeroDrive (newSuperblock 40)) nothingMounted.dev .disk 0 =
      newSuperblock 40 := superblockAt_zeroDrive _
  rw [hsb]
  refine ⟨by decide, fun i hi _ => ?_, fun i hi b hb => ?_⟩
  · have hi' : i < 32 := hi
    show i < 32 % 256
    omega
  · have hsector : sectorOf (IdeNode.disk.absoluteLba (0 + (newSuperblock 40).fileTableStartBlock)) =
        1 := by decide
    rw [hsector] at hb
    have hzero : (zeroDrive (newSuperblock 40)).sector () (1 + i) = some zeroBlock :=
      congrArg some (if_neg (by omega))
    obtain rfl := Option.some.inj (hzero.symm.trans hb)
    exact ⟨0, rfl⟩

/-- A superblock for a table of one block. -/
def oneBlockTable : Superblock := { newSuperblock 40 with fileTableNumBlocks := 1 }

/-- A disk with a table of one block is mounted, and its second entry read behind the end. -/
theorem not_inside : ¬ ∀ (P : Drive Unit) s node lba block t,
    fsMount (ideDevices P) s node lba block = (t, 0) → Inside (ideDevices P) t := by
  intro hall
  obtain ⟨r, hr⟩ := (hall (zeroDrive oneBlockTable) nothingMounted .disk 0 0x1000 _
    (zeroMounted_eq (by decide))).find []
  have hfault : (findFileEntry [] (zeroMounted oneBlockTable).fs.fileTableCache).toOption.isNone =
      true := by
    decide
  rw [hr] at hfault
  cases hfault

end Small

end KyroOS.Disk

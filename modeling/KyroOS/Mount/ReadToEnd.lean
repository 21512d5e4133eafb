import KyroOS.Mount.Vfs
import KyroOS.Vfs.Descriptors
import KyroOS.Disk.Isolation

/-!
# Reading a file to its end

A program reads a file in chunks until a read returns no more. The offset of the descriptor moves
by the result of each read; `fs_disk` takes no offset but 0, and reports this with a number that
the system call widens to a positive one.

## Main definitions

* `OpenFile` — a file of one of the two file systems
* `readLoop` — the reads of a program
* `ReadsToEnd` — the reads come to an end with 0, and give the content

## Main results

* `readsToEnd_iff` — the files and sizes of a chunk for which they do
* `not_readsToEnd` — a file on a disk is read for ever
-/

namespace KyroOS.Mount

open Vfs Disk

section Read

variable {ν σ : Type} {D : Devices ν σ}

/-- A file of KyroFS, or one on a disk that is seen through a mount point. -/
inductive OpenFile (ν σ : Type)
  | kyrofs (fs : Kyrofs) (n : Word)
  | fsDisk (disk : FsState ν σ) (node : FileNode)

/-- `vfs_read` of the file. -/
def OpenFile.read (D : Devices ν σ) (file : OpenFile ν σ) (offset : Word) (size : BitVec 32) :
    Outcome (BitVec 32 × List Byte) :=
  match file with
  | .kyrofs fs n => vfsRead fs n 0 offset size
  | .fsDisk disk node => fsDiskVfsRead D disk node offset size

/-- The file has the content. A file of KyroFS has a buffer for its bytes, and that of a file on a
disk is what `fs_read_file` gives for its size. -/
def OpenFile.Has (D : Devices ν σ) (content : List Byte) : OpenFile ν σ → Prop
  | .kyrofs fs n => ∃ file : FileContent, (fs.node n).ptr = .content file ∧
      file.size.toNat = content.length ∧
      ((file.content = none ∧ content = []) ∨
        ∃ bytes, file.content = some bytes ∧ content.length ≤ bytes.length ∧
          content = bytes.take content.length)
  | .fsDisk disk node => ∃ idx e, node.has vfsDirectory = false ∧
      disk.fs.mountedDiskNode.isSome ∧
      findFileEntry node.name disk.fs.fileTableCache = .ok (some idx) ∧
      disk.entry idx = .ok e ∧ e.flags &&& fsFileFlagFile ≠ 0 ∧
      e.sizeBytes.toNat = content.length ∧
      fsReadFile D disk node.name (e.sizeBytes.setWidth 64) =
        .ok ((BitVec.ofNat 32 content.length).toInt, content)

/-- `SYS_READ` until its result is not positive: the last result, and all bytes that were read. -/
def readLoop (read : Word → BitVec 32 → Outcome (BitVec 32 × List Byte)) (size : Word) :
    ℕ → FdEntry → Outcome (Word × List Byte)
  | 0, _ => .error .outOfFuel
  | fuel + 1, entry => do
    let (entry, rax, bytes) ← sysReadFile read entry size
    if rax.toInt ≤ 0 then .ok (rax, [])
    else
      let (last, rest) ← readLoop read size fuel entry
      .ok (last, bytes ++ rest)

/-- The reads of a file that was just opened end with 0, and give its content. -/
def ReadsToEnd (D : Devices ν σ) (file : OpenFile ν σ) (content : List Byte) (size : Word) : Prop :=
  ∀ node flags, ∃ fuel,
    readLoop (file.read D) size fuel ⟨node, 0, flags⟩ = .ok (0, content)

/-! ### One read -/

/-- A result of a read that is not zero lets the loop go on. -/
theorem readLoop_ne_ok {read : Word → BitVec 32 → Outcome (BitVec 32 × List Byte)} {size : Word}
    (hread : ∀ offset res bytes, read offset (size.setWidth 32) = .ok (res, bytes) → res ≠ 0)
    (fuel : ℕ) (entry : FdEntry) (r : Word × List Byte) :
    readLoop read size fuel entry ≠ .ok r := by
  intro h
  induction fuel generalizing entry r with
  | zero => cases h
  | succ fuel ih =>
    rw [readLoop] at h
    obtain ⟨⟨entry', rax, bytes⟩, hsys, hrest⟩ := Outcome.bind_eq_ok.mp h
    rw [sysReadFile] at hsys
    obtain ⟨⟨res, bytes'⟩, hres, heq⟩ := Outcome.bind_eq_ok.mp hsys
    have hrax : rax = res.setWidth 64 :=
      (Prod.mk.inj (Prod.mk.inj (Except.ok.inj heq)).2).1.symm
    have hpos : ¬ rax.toInt ≤ 0 := by
      have hne : res.toNat ≠ 0 := fun hzero =>
        hread _ _ _ hres (BitVec.eq_of_toNat_eq hzero)
      have hlt := res.isLt
      rw [hrax, BitVec.toInt_eq_toNat_of_lt (by rw [BitVec.toNat_setWidth]; omega),
        BitVec.toNat_setWidth]
      omega
    dsimp only at hrest
    rw [if_neg hpos] at hrest
    obtain ⟨p, hloop, -⟩ := Outcome.bind_eq_ok.mp hrest
    exact ih entry' p hloop

/-! ### Files of KyroFS -/

/-- A read gives the bytes from the offset on, as many as there are and were asked for. -/
theorem vfsRead_eq {fs : Kyrofs} {n : Word} {content : List Byte}
    (h : (OpenFile.kyrofs (ν := ν) (σ := σ) fs n).Has D content) {offset : Word}
    (hle : offset.toNat ≤ content.length) (size : BitVec 32) :
    vfsRead fs n 0 offset size =
      .ok (BitVec.ofNat 32 (min size.toNat (content.length - offset.toNat)),
        (content.drop offset.toNat).take (min size.toNat (content.length - offset.toNat))) := by
  obtain ⟨file, hptr, hsize, hbuffer⟩ := h
  have hops : (fs.node n).hasDirectoryOps = false := by
    rw [Dirent.hasDirectoryOps, hptr]
  have hkyrofs : kyrofsRead (fs.node n) offset size =
      .ok ((content.drop offset.toNat).take (min size.toNat (content.length - offset.toNat))) := by
    rw [kyrofsRead, hptr]
    dsimp only
    rcases hbuffer with ⟨hnull, rfl⟩ | ⟨bytes, hbytes, hfit, hcontent⟩
    · rw [hnull]
      simp
    · rw [hbytes]
      dsimp only
      have hlt := file.size.isLt
      have hltSize := size.isLt
      -- the bytes that are copied are bytes of the content
      have hcopy : ∀ k, offset.toNat + k ≤ content.length →
          copyOut bytes offset.toNat k = .ok ((content.drop offset.toNat).take k) := by
        intro k hk
        rw [copyOut, if_pos (by omega), hcontent, List.drop_take, List.take_take,
          Nat.min_eq_left (by omega)]
      have hwide : (file.size.setWidth 64).toNat = content.length := by
        rw [BitVec.toNat_setWidth, hsize]
        omega
      by_cases hend : content.length ≤ offset.toNat
      · rw [if_pos (by rw [BitVec.le_def, hwide]; exact hend)]
        rw [Nat.sub_eq_zero_of_le hend, Nat.min_zero, List.take_zero]
      · rw [if_neg (by rw [BitVec.le_def, hwide]; exact hend)]
        have hstop : (offset + size.setWidth 64).toNat = offset.toNat + size.toNat := by
          rw [BitVec.toNat_add, BitVec.toNat_setWidth]
          omega
        by_cases hbeyond : content.length < offset.toNat + size.toNat
        · rw [if_pos (by rw [BitVec.lt_def, hwide, hstop]; exact hbeyond)]
          have hrest : ((file.size.setWidth 64 - offset).setWidth 32).toNat =
              content.length - offset.toNat := by
            rw [BitVec.toNat_setWidth, BitVec.toNat_sub_of_le (by
              rw [BitVec.le_def, hwide]
              omega), hwide]
            omega
          rw [hrest, hcopy _ (by omega), Nat.min_eq_right (by omega)]
        · rw [if_neg (by rw [BitVec.lt_def, hwide, hstop]; exact hbeyond)]
          rw [hcopy _ (by omega), Nat.min_eq_left (by omega)]
  rw [vfsRead, hops, hkyrofs]
  have hlen : ((content.drop offset.toNat).take
      (min size.toNat (content.length - offset.toNat))).length =
        min size.toNat (content.length - offset.toNat) := by
    rw [List.length_take, List.length_drop]
    omega
  show Except.ok (BitVec.ofNat 32 _, _) = _
  rw [hlen]

/-- A turn of the loop at an offset inside of the content: it ends there, or goes on behind the
chunk that was read. -/
theorem readLoop_turn {fs : Kyrofs} {n : Word} {content : List Byte} {size : Word}
    (h : (OpenFile.kyrofs (ν := ν) (σ := σ) fs n).Has D content) {entry : FdEntry}
    (hle : entry.offset.toNat ≤ content.length) {m : ℕ}
    (hm : m = min (size.setWidth 32).toNat (content.length - entry.offset.toNat)) (fuel : ℕ) :
    readLoop (vfsRead fs n 0) size (fuel + 1) entry =
      if m = 0 then .ok (0, [])
      else (readLoop (vfsRead fs n 0) size fuel
          { entry with offset := entry.offset + (BitVec.ofNat 32 m).setWidth 64 }).map
        fun r => (r.1, (content.drop entry.offset.toNat).take m ++ r.2) := by
  have hlt := (size.setWidth 32).isLt
  have hread := vfsRead_eq h hle (size.setWidth 32)
  rw [← hm] at hread
  have hrax : ((BitVec.ofNat 32 m).setWidth 64).toNat = m := by
    rw [BitVec.toNat_setWidth, BitVec.toNat_ofNat]
    omega
  have hint : ((BitVec.ofNat 32 m).setWidth 64).toInt = m := by
    rw [BitVec.toInt_eq_toNat_of_lt (by omega), hrax]
  have hne : (BitVec.ofNat 32 m).setWidth 64 ≠ minusOne := by
    intro heq
    have hnat := congrArg BitVec.toNat heq
    have hminus : minusOne.toNat = 18446744073709551615 := rfl
    omega
  rw [readLoop, sysReadFile, hread]
  show (if ((BitVec.ofNat 32 m).setWidth 64).toInt ≤ 0 then _ else _) = _
  by_cases hzero : m = 0
  · rw [if_pos (by rw [hint, hzero]; rfl), if_pos hzero, hzero]
    rfl
  · rw [if_neg (by rw [hint]; omega), if_neg hzero, if_pos hne]
    cases readLoop (vfsRead fs n 0) size fuel
      { entry with offset := entry.offset + (BitVec.ofNat 32 m).setWidth 64 } <;> rfl

/-- From an offset inside of the content, the loop gives the rest of it. -/
theorem readLoop_kyrofs {fs : Kyrofs} {n : Word} {content : List Byte} {size : Word}
    (h : (OpenFile.kyrofs (ν := ν) (σ := σ) fs n).Has D content) (hsize : size.setWidth 32 ≠ 0#32)
    (k : ℕ) (entry : FdEntry) (hle : entry.offset.toNat ≤ content.length)
    (hk : content.length - entry.offset.toNat ≤ k) :
    readLoop (vfsRead fs n 0) size (k + 1) entry = .ok (0, content.drop entry.offset.toNat) := by
  have hltLen : content.length < 2 ^ 32 := by
    obtain ⟨file, -, hlen, -⟩ := h
    rw [← hlen]
    exact file.size.isLt
  have hpos : 0 < (size.setWidth 32).toNat :=
    Nat.pos_of_ne_zero fun hzero => hsize (BitVec.eq_of_toNat_eq hzero)
  -- the content that is left gets shorter with every turn
  induction k generalizing entry with
  | zero =>
    rw [readLoop_turn h hle rfl, if_pos (by omega), List.drop_eq_nil_of_le (by omega)]
  | succ k ih =>
    obtain ⟨m, hm⟩ : ∃ m, m = min (size.setWidth 32).toNat
      (content.length - entry.offset.toNat) := ⟨_, rfl⟩
    rw [readLoop_turn h hle hm]
    by_cases hzero : m = 0
    · rw [if_pos hzero, List.drop_eq_nil_of_le (by omega)]
    · have hnext : (entry.offset + (BitVec.ofNat 32 m).setWidth 64).toNat =
          entry.offset.toNat + m := by
        rw [BitVec.toNat_add, BitVec.toNat_setWidth, BitVec.toNat_ofNat]
        omega
      have hrest := ih { entry with
        offset := entry.offset + (BitVec.ofNat 32 m).setWidth 64 }
        (by rw [hnext]; omega) (by rw [hnext]; omega)
      rw [if_neg hzero, hrest]
      dsimp only
      rw [hnext, ← List.drop_drop]
      show Except.ok (0, _ ++ _) = _
      rw [List.take_append_drop]

/-! ### Files on a disk -/

/-- `fs_read_file` of a file gives no more than was asked for. -/
theorem fsReadFile_result {disk : FsState ν σ} {path : CString} {size : Word} {idx : ℕ}
    {e : FileEntry} {r : Int} {bytes : List Byte}
    (hfind : findFileEntry path disk.fs.fileTableCache = .ok (some idx))
    (hentry : disk.entry idx = .ok e) (h : fsReadFile D disk path size = .ok (r, bytes)) :
    r = -1 ∨ r = (BitVec.ofNat 32 (min size.toNat e.sizeBytes.toNat)).toInt := by
  rw [fsReadFile] at h
  split at h
  · exact .inl (Prod.mk.inj (Except.ok.inj h)).1.symm
  · obtain ⟨found, hfound, hrest⟩ := Outcome.bind_eq_ok.mp h
    obtain rfl := Except.ok.inj (hfind.symm.trans hfound)
    obtain ⟨e', he', hrest'⟩ := Outcome.bind_eq_ok.mp hrest
    obtain rfl := Except.ok.inj (hentry.symm.trans he')
    by_cases hflag : e.flags &&& fsFileFlagFile = 0
    · rw [if_pos hflag] at hrest'
      exact .inl (Prod.mk.inj (Except.ok.inj hrest')).1.symm
    · rw [if_neg hflag] at hrest'
      dsimp only at hrest'
      split at hrest'
      · exact .inl (Prod.mk.inj (Except.ok.inj hrest')).1.symm
      · exact .inr (Prod.mk.inj (Except.ok.inj hrest')).1.symm

/-- No read of a file on a disk that has content returns 0, unless it asks for 0 bytes. -/
theorem fsDiskVfsRead_ne_zero {disk : FsState ν σ} {node : FileNode} {content : List Byte}
    (h : (OpenFile.fsDisk disk node).Has D content) (hcontent : content ≠ []) {size : BitVec 32}
    (hsize : size ≠ 0) {offset : Word} {res : BitVec 32} {bytes : List Byte}
    (hread : fsDiskVfsRead D disk node offset size = .ok (res, bytes)) : res ≠ 0 := by
  obtain ⟨idx, e, hdir, -, hfind, hentry, -, hlen, -⟩ := h
  have hminus : minusOne32 ≠ 0 := by decide
  rw [fsDiskVfsRead, hdir] at hread
  rw [if_neg Bool.false_ne_true] at hread
  split_ifs at hread with hoffset
  · rw [← (Prod.mk.inj (Except.ok.inj hread)).1]
    exact hminus
  · obtain ⟨⟨r, bytes'⟩, hfile, heq⟩ := map_eq_ok hread
    rw [← (Prod.mk.inj heq).1]
    rcases fsReadFile_result hfind hentry hfile with rfl | rfl
    · exact hminus
    · have hlenPos : 0 < content.length := List.length_pos_iff.mpr hcontent
      have hsizePos : 0 < size.toNat :=
        Nat.pos_of_ne_zero fun hzero => hsize (BitVec.eq_of_toNat_eq hzero)
      have hlt := size.isLt
      rw [BitVec.ofInt_toInt]
      intro hzero
      have hnat := congrArg BitVec.toNat hzero
      rw [BitVec.toNat_ofNat, BitVec.toNat_setWidth, hlen] at hnat
      have hnat' : min (size.toNat % 2 ^ 64) content.length % 2 ^ 32 = 0 := hnat
      omega

/-- A read of no bytes, or of a file without any, gives 0. -/
theorem fsDiskVfsRead_eq_zero {disk : FsState ν σ} {node : FileNode} {content : List Byte}
    (h : (OpenFile.fsDisk disk node).Has D content) {size : BitVec 32}
    (hnone : min size.toNat content.length = 0) :
    fsDiskVfsRead D disk node 0 size = .ok (0, []) := by
  obtain ⟨idx, e, hdir, hmounted, hfind, hentry, hflag, hlen, -⟩ := h
  obtain ⟨dev, hdev⟩ := Option.isSome_iff_exists.mp hmounted
  have hwide : (size.setWidth 64).toNat = size.toNat := by
    have hlt := size.isLt
    rw [BitVec.toNat_setWidth]
    omega
  have hread : fsReadFile D disk node.name (size.setWidth 64) = .ok (0, []) := by
    rw [fsReadFile, hdev]
    show (findFileEntry node.name disk.fs.fileTableCache >>= _) = _
    rw [hfind]
    show (disk.entry idx >>= _) = _
    rw [hentry]
    show (if _ then _ else _) = _
    rw [if_neg hflag, hwide, hlen, hnone]
    rfl
  rw [fsDiskVfsRead, hdir, if_neg Bool.false_ne_true, if_neg (not_not.mpr rfl), hread]
  rfl

/-! ### The loop -/

/-- A loop whose first read gives 0 ends there. -/
theorem readLoop_of_zero {read : Word → BitVec 32 → Outcome (BitVec 32 × List Byte)} {size : Word}
    {entry : FdEntry} (h : read entry.offset (size.setWidth 32) = .ok (0, [])) (fuel : ℕ) :
    readLoop read size (fuel + 1) entry = .ok (0, []) := by
  rw [readLoop, sysReadFile, h]
  rfl

/-- A loop whose first read gives 0 does not give more than nothing. -/
theorem not_readsToEnd_of_zero {file : OpenFile ν σ} {content : List Byte} {size : Word}
    (h : file.read D 0 (size.setWidth 32) = .ok (0, [])) (hcontent : content ≠ []) :
    ¬ ReadsToEnd D file content size := by
  intro hends
  obtain ⟨fuel, hfuel⟩ := hends 0 0
  cases fuel with
  | zero => cases hfuel
  | succ fuel =>
    rw [readLoop_of_zero h fuel] at hfuel
    exact hcontent (Prod.mk.inj (Except.ok.inj hfuel)).2.symm

/-- A file of KyroFS. -/
def OpenFile.IsKyrofs : OpenFile ν σ → Prop
  | .kyrofs _ _ => True
  | .fsDisk _ _ => False

/-- The reads of a file on a disk that has content do not come to its end. -/
theorem not_readsToEnd_fsDisk {disk : FsState ν σ} {node : FileNode} {content : List Byte}
    (h : (OpenFile.fsDisk disk node).Has D content) (hcontent : content ≠ []) (size : Word) :
    ¬ ReadsToEnd D (.fsDisk disk node) content size := by
  by_cases hsize : size.setWidth 32 = 0#32
  · have hfirst : (OpenFile.fsDisk disk node).read D 0 (size.setWidth 32) = .ok (0, []) :=
      fsDiskVfsRead_eq_zero h (by rw [hsize]; exact Nat.zero_min _)
    exact not_readsToEnd_of_zero hfirst hcontent
  · intro hends
    obtain ⟨fuel, hfuel⟩ := hends 0 0
    exact readLoop_ne_ok (fun offset res bytes hread =>
      fsDiskVfsRead_ne_zero h hcontent hsize hread) fuel _ _ hfuel

/-- The reads of an open file end with 0 and give its content just when there is none, or the file
is one of KyroFS and the low 32 bits of the size of the chunk are not 0. -/
theorem readsToEnd_iff {file : OpenFile ν σ} {content : List Byte} (h : file.Has D content)
    (size : Word) : ReadsToEnd D file content size ↔
      content = [] ∨ file.IsKyrofs ∧ size.setWidth 32 ≠ 0#32 := by
  cases file with
  | kyrofs fs n =>
    have hstart : (0 : Word).toNat ≤ content.length := Nat.zero_le _
    have hzero : min (size.setWidth 32).toNat content.length = 0 →
        (OpenFile.kyrofs fs n).read D 0 (size.setWidth 32) = .ok (0, []) := by
      intro hmin
      have hread := vfsRead_eq h hstart (size.setWidth 32)
      refine hread.trans ?_
      show Except.ok (BitVec.ofNat 32 (min _ (content.length - 0)),
        (content.drop 0).take (min _ (content.length - 0))) = _
      rw [Nat.sub_zero, hmin]
      rfl
    constructor
    · intro hends
      by_contra hnot
      rw [not_or, not_and, not_not] at hnot
      obtain ⟨hcontent, hsize⟩ := hnot
      refine not_readsToEnd_of_zero (hzero ?_) hcontent hends
      rw [hsize trivial]
      exact Nat.zero_min _
    · rintro (rfl | ⟨-, hsize⟩)
      · exact fun node flags => ⟨1, readLoop_of_zero (hzero (Nat.min_zero _)) 0⟩
      · exact fun node flags => ⟨content.length + 1,
          readLoop_kyrofs h hsize content.length ⟨node, 0, flags⟩ hstart (Nat.sub_le _ _)⟩
  | fsDisk disk node =>
    constructor
    · intro hends
      by_contra hnot
      exact not_readsToEnd_fsDisk h (fun hcontent => hnot (.inl hcontent)) size hends
    · rintro (rfl | ⟨hno, -⟩)
      · exact fun node' flags => ⟨1,
          readLoop_of_zero (fsDiskVfsRead_eq_zero h (Nat.min_zero _)) 0⟩
      · exact absurd hno id

end Read

/-! ### Two small files -/

section Small

/-- A file of KyroFS with two bytes. -/
def twoBytes : Kyrofs where
  node := fun _ => ⟨[0x66], vfsFile, 2, .content ⟨some [0x61, 0x62], 2, 2⟩, 0x1000⟩
  root := 0x1000
  live := {0x1000}

theorem twoBytes_has : (OpenFile.kyrofs twoBytes 0x1000).Has imageDevices [0x61, 0x62] :=
  ⟨_, rfl, rfl, .inr ⟨_, rfl, le_rfl, rfl⟩⟩

/-- The file is read byte by byte. -/
theorem readsToEnd_twoBytes :
    ReadsToEnd imageDevices (.kyrofs twoBytes 0x1000) [0x61, 0x62] 1 :=
  (readsToEnd_iff twoBytes_has 1).mpr (.inr ⟨trivial, by decide⟩)

/-- The disk in memory, with a file of two bytes. -/
def shortDisk : FsState Unit (BitVec 32 → Block) :=
  ((fsWriteFile imageDevices smallCreated.disk [0x61] [0x61, 0x62]).toOption.getD
    (smallCreated.disk, 0)).1

/-- The entry of the file. -/
def shortEntry : FileEntry := (shortDisk.entry 0).toOption.getD FileEntry.zero

theorem shortDisk_has : (OpenFile.fsDisk shortDisk ⟨[0x61], vfsFile, 2⟩).Has imageDevices
    [0x61, 0x62] :=
  ⟨0, shortEntry, rfl, by decide +kernel, Outcome.toOption_eq_some.mp (by decide +kernel),
    eq_ok_getD (by decide +kernel), by decide +kernel, by decide +kernel,
    Outcome.toOption_eq_some.mp (by decide +kernel)⟩

/-- The reads of a file on a disk do not end. -/
theorem not_readsToEnd : ¬ ∀ (file : OpenFile Unit (BitVec 32 → Block)) content size,
    0 < size → file.Has imageDevices content → ReadsToEnd imageDevices file content size :=
  fun hall => not_readsToEnd_fsDisk shortDisk_has (by decide) 1
    (hall _ _ 1 (by decide) shortDisk_has)

end Small

end KyroOS.Mount

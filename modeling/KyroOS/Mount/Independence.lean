import KyroOS.Mount.Unmount

/-!
# Two mount points

The globals of `fs_disk` hold one file system. The mount points made from two devices look at the
one that was mounted last, so what is done through one is seen through the other.

## Main definitions

* `TwoMounts` — two mount points made from different devices
* `SameView` — what a mount point shows of its files, by lookups and by reads
* `Harmless` — an operation that has no effect on the mounted file system

## Main results

* `sameView_of_reachable` — operations without effect through one mount point do not change what
  the other shows
* `not_sameView` — a file that is created through one mount point is found through the other
-/

namespace KyroOS.Mount

open Vfs Disk Transition

section Independence

variable {ν σ : Type} {D : Devices ν σ} {s s' t : MountState ν σ} {a b : Word}

/-- An operation through a mount point, or its end. -/
inductive MountEvent
  | through (op : MountOp)
  | unmount

/-- The state after an event at the node `n`. -/
def MountEvent.run (D : Devices ν σ) (s : MountState ν σ) (n : Word) :
    MountEvent → Outcome (MountState ν σ)
  | .through op => op.run D s n
  | .unmount => (vfsUnmount D s n).map Prod.fst

/-- The runs of events at the node `n`. -/
def mountSystem (D : Devices ν σ) (n : Word) (s₀ : MountState ν σ) :
    System (MountState ν σ) MountEvent where
  init := fun s => s = s₀
  step := fun s e s' => e.run D s n = .ok s'

/-- Two different nodes are mount points of `fs_disk`. -/
structure TwoMounts (s : MountState ν σ) (a b : Word) : Prop where
  ne : a ≠ b
  left : DiskDirectory s a
  right : DiskDirectory s b

/-- Lookups in the directory, and reads of every file node that was ever found, return the same. -/
structure SameView (D : Devices ν σ) (s s' : MountState ν σ) (n : Word) : Prop where
  lookup : ∀ block name, s'.finddir block (.dirent n) name = s.finddir block (.dirent n) name
  read : ∀ node offset size,
    fsDiskVfsRead D s'.disk node offset size = fsDiskVfsRead D s.disk node offset size

/-- Every lookup comes back without an entry. -/
def NoFile (disk : FsState ν σ) : Prop :=
  disk.fs.mountedDiskNode = none ∨ ∀ path, findFileEntry path disk.fs.fileTableCache = .ok none

/-- The directory call is refused: there is no file system, a name to be created is there or finds
no free entry, or a name to be removed is not there. -/
def CallRefused (disk : FsState ν σ) (name : CString) (call : DirCall) : Prop :=
  disk.fs.mountedDiskNode = none ∨
    match call with
    | .mkdir | .create => (∃ idx, findFileEntry name disk.fs.fileTableCache = .ok (some idx)) ∨
        findFreeFileEntry disk.fs.fileTableCache = .ok none
    | .remove | .rmdir => findFileEntry name disk.fs.fileTableCache = .ok none

/-- The write is refused: it is one to a directory or has an offset, or the file is not there, is
no regular file or needs more blocks than are free. -/
def WriteRefused (disk : FsState ν σ) (node : FileNode) (offset : Word) (data : List Byte) :
    Prop :=
  node.has vfsDirectory ∨ offset ≠ 0 ∨
    findFileEntry node.name disk.fs.fileTableCache = .ok none ∨
    ∃ idx e, findFileEntry node.name disk.fs.fileTableCache = .ok (some idx) ∧
      disk.entry idx = .ok e ∧ (e.flags &&& fsFileFlagFile = 0 ∨
        disk.fs.currentSuperblock.freeBlocks < neededBlocks (BitVec.ofNat 64 data.length))

/-- The event at the node `n` has no effect on files: it reads, it is refused, or it ends a mount
without any file. -/
def Harmless (n : Word) (s : MountState ν σ) : MountEvent → Prop
  | .through (.change call _ name) => CallRefused s.disk name call
  | .through (.write node offset data) => WriteRefused s.disk node offset data
  | .through (.read _ _ _) | .through (.finddir _ _) | .through (.readdir _) => True
  | .unmount => (s.tree.node n).has vfsMountpoint = false ∨ NoFile s.disk

/-! ### What an event without effect does -/

/-- A creation that is refused changes nothing. -/
theorem fsCreateFile_refused {disk disk' : FsState ν σ} {name : CString} {flags : BitVec 32}
    {r : Int} (h : disk.fs.mountedDiskNode = none ∨
      (∃ idx, findFileEntry name disk.fs.fileTableCache = .ok (some idx)) ∨
        findFreeFileEntry disk.fs.fileTableCache = .ok none)
    (hrun : fsCreateFile D disk name flags = .ok (disk', r)) : disk' = disk := by
  rw [fsCreateFile] at hrun
  split at hrun
  · exact (Prod.mk.inj (Except.ok.inj hrun)).1.symm
  next node hnode =>
    obtain ⟨found, hfound, hrest⟩ := Outcome.bind_eq_ok.mp hrun
    split_ifs at hrest with hsome
    · exact (Prod.mk.inj (Except.ok.inj hrest)).1.symm
    · obtain ⟨free, hfree, hrest'⟩ := Outcome.bind_eq_ok.mp hrest
      rcases h with hnone | ⟨idx, hidx⟩ | hfull
      · rw [hnode] at hnone
        cases hnone
      · rw [hidx] at hfound
        obtain rfl := Except.ok.inj hfound
        exact absurd rfl hsome
      · rw [hfull] at hfree
        obtain rfl := Except.ok.inj hfree
        exact (Prod.mk.inj (Except.ok.inj hrest')).1.symm

/-- A removal of a name that is not there changes nothing. -/
theorem fsDeleteFile_refused {disk disk' : FsState ν σ} {name : CString} {r : Int}
    (h : disk.fs.mountedDiskNode = none ∨ findFileEntry name disk.fs.fileTableCache = .ok none)
    (hrun : fsDeleteFile D disk name = .ok (disk', r)) : disk' = disk := by
  rw [fsDeleteFile] at hrun
  split at hrun
  · exact (Prod.mk.inj (Except.ok.inj hrun)).1.symm
  next node hnode =>
    rcases h with hnone | hnot
    · rw [hnode] at hnone
      cases hnone
    · rw [hnot] at hrun
      exact (Prod.mk.inj (Except.ok.inj hrun)).1.symm

/-- A refused call changes nothing. -/
theorem fsDiskCall_refused {disk disk' : FsState ν σ} {name : CString} {call : DirCall} {r : Int}
    (h : CallRefused disk name call) (hrun : fsDiskCall D disk name call = .ok (disk', r)) :
    disk' = disk := by
  cases call with
  | mkdir => exact fsCreateFile_refused h hrun
  | create => exact fsCreateFile_refused h hrun
  | remove => exact fsDeleteFile_refused h hrun
  | rmdir => exact fsDeleteFile_refused h hrun

/-- A refused write changes nothing. -/
theorem fsDiskVfsWrite_refused {disk disk' : FsState ν σ} {node : FileNode} {offset : Word}
    {data : List Byte} {r : BitVec 32} (h : WriteRefused disk node offset data)
    (hrun : fsDiskVfsWrite D disk node offset data = .ok (disk', r)) : disk' = disk := by
  rw [fsDiskVfsWrite] at hrun
  split_ifs at hrun with hdir hoffset
  · exact (Prod.mk.inj (Except.ok.inj hrun)).1.symm
  · exact (Prod.mk.inj (Except.ok.inj hrun)).1.symm
  · obtain ⟨⟨disk'', res⟩, hwrite, heq⟩ := map_eq_ok hrun
    obtain rfl : disk'' = disk' := (Prod.mk.inj heq).1
    rw [fsWriteFile] at hwrite
    rcases h with hd | ho | hnone | ⟨idx, e, hfind, hentry, hrefused⟩
    · exact absurd hd hdir
    · exact absurd ho hoffset
    · rw [hnone] at hwrite
      exact (Prod.mk.inj (Except.ok.inj hwrite)).1.symm
    · obtain ⟨found, hfound, hrest⟩ := Outcome.bind_eq_ok.mp hwrite
      obtain rfl := Except.ok.inj (hfind.symm.trans hfound)
      obtain ⟨e', he', hrest'⟩ := Outcome.bind_eq_ok.mp hrest
      obtain rfl := Except.ok.inj (hentry.symm.trans he')
      by_cases hflag : e.flags &&& fsFileFlagFile = 0
      · rw [if_pos hflag] at hrest'
        exact (Prod.mk.inj (Except.ok.inj hrest')).1.symm
      · rw [if_neg hflag] at hrest'
        dsimp only at hrest'
        rw [if_pos (hrefused.resolve_left hflag)] at hrest'
        exact (Prod.mk.inj (Except.ok.inj hrest')).1.symm

/-! ### What is shown without files -/

/-- Without a file nothing is found. -/
theorem finddir_of_noFile (h : NoFile s.disk) (hb : DiskDirectory s b) (block : Word)
    (name : CString) : s.finddir block (.dirent b) name = .ok none := by
  have hinfo : fsGetFileInfo s.disk name = .ok none := by
    rw [fsGetFileInfo]
    split
    · rfl
    next node hnode =>
      rcases h with hnone | hnot
      · rw [hnode] at hnone
        cases hnone
      · rw [hnot name]
        rfl
  rw [MountState.finddir, if_pos hb.directory, hb.driver, fsDiskVfsFinddir, hinfo]
  split_ifs <;> rfl

/-- Without a file nothing is read. -/
theorem read_of_noFile {disk : FsState ν σ} (h : NoFile disk) (node : FileNode) (offset : Word)
    (size : BitVec 32) : fsDiskVfsRead D disk node offset size = .ok (minusOne32, []) := by
  have hread : fsReadFile D disk node.name (size.setWidth 64) = .ok (-1, []) := by
    rw [fsReadFile]
    split
    · rfl
    next node' hnode =>
      rcases h with hnone | hnot
      · rw [hnode] at hnone
        cases hnone
      · rw [hnot node.name]
        rfl
  rw [fsDiskVfsRead, hread]
  split_ifs <;> rfl

/-- Two mounts that succeed make two mount points. -/
theorem twoMounts_of_mounts {s₁ s₂ : MountState ν σ} {u v : MountDevice ν} {block block' : Word}
    (hne : a ≠ b) (ha : vfsMount D s a u block = (s₁, 0))
    (hb : vfsMount D s₁ b v block' = (s₂, 0)) : TwoMounts s₂ a b := by
  have hleft := diskDirectory_of_mount ha
  have hright := diskDirectory_of_mount hb
  obtain ⟨disk, -, rfl⟩ := vfsMount_eq_zero hb
  refine ⟨hne, ⟨?_, ?_⟩, hright⟩
  · exact (MountState.setMount_driver_of_ne hne).trans hleft.driver
  · rw [MountState.setMount_node_of_ne hne]
    exact hleft.directory

/-! ### Runs -/

/-- What an event without effect at one mount point leaves of the other. -/
theorem MountEvent.run_harmless {e : MountEvent} (h : TwoMounts s a b) (hharmless : Harmless a s e)
    (hrun : e.run D s a = .ok s') : TwoMounts s' a b ∧ s'.tree.node b = s.tree.node b ∧
      (s'.disk = s.disk ∨ NoFile s.disk ∧ NoFile s'.disk) := by
  cases e with
  | through op =>
    obtain ⟨htree, hdriver⟩ := op.run_tree h.left.driver hrun
    have hmounts : TwoMounts s' a b :=
      ⟨h.ne, ⟨by rw [hdriver, h.left.driver], by rw [htree, h.left.directory]⟩,
        ⟨by rw [hdriver, h.right.driver], by rw [htree, h.right.directory]⟩⟩
    refine ⟨hmounts, by rw [htree], .inl ?_⟩
    cases op with
    | change call new name =>
      obtain ⟨⟨u, r⟩, hcall, rfl⟩ := map_eq_ok hrun
      rw [MountState.call, h.left.driver] at hcall
      obtain ⟨⟨disk, r'⟩, hdisk, heq⟩ := map_eq_ok hcall
      rw [← (Prod.mk.inj heq).1]
      exact fsDiskCall_refused hharmless hdisk
    | write node offset data =>
      obtain ⟨⟨disk, r⟩, hdisk, rfl⟩ := map_eq_ok hrun
      exact fsDiskVfsWrite_refused hharmless hdisk
    | read node offset size =>
      obtain ⟨r, -, rfl⟩ := map_eq_ok hrun
      rfl
    | finddir name block =>
      obtain ⟨r, -, rfl⟩ := map_eq_ok hrun
      rfl
    | readdir index =>
      obtain ⟨r, -, rfl⟩ := map_eq_ok hrun
      rfl
  | unmount =>
    obtain ⟨⟨u, r⟩, hunmount, rfl⟩ := map_eq_ok hrun
    by_cases hpoint : (s.tree.node a).has vfsMountpoint = true
    · obtain ⟨disk, hdisk, rfl⟩ := vfsUnmount_eq_ok hpoint hunmount
      have hnoFile : NoFile s.disk := by
        refine hharmless.resolve_left fun hfalse => ?_
        rw [hpoint] at hfalse
        cases hfalse
      have hb : ∀ {flags driver}, (MountState.setMount { s with disk } a flags driver).tree.node b =
          s.tree.node b := MountState.setMount_node_of_ne h.ne.symm
      refine ⟨⟨h.ne, ⟨?_, decide_eq_true ?_⟩, ⟨?_, ?_⟩⟩, hb, .inr ⟨hnoFile, .inl ?_⟩⟩
      · exact MountState.setMount_driver.trans h.left.driver
      · rw [MountState.setMount_flags]
        exact cleared_directory (of_decide_eq_true h.left.directory)
      · exact (MountState.setMount_driver_of_ne h.ne.symm).trans h.right.driver
      · rw [hb]
        exact h.right.directory
      · exact fsUnmount_node hdisk
    · rw [vfsUnmount, if_pos hpoint] at hunmount
      rw [← (Prod.mk.inj (Except.ok.inj hunmount)).1]
      exact ⟨h, rfl, .inl rfl⟩

/-- Operations without effect through one mount point leave what the other shows. -/
theorem sameView_of_reachable {s₀ : MountState ν σ} (h₀ : TwoMounts s₀ a b)
    (h : (mountSystem D a s₀).ReachableUnder (Harmless a) s) : SameView D s₀ s b := by
  have hboth : TwoMounts s a b ∧ SameView D s₀ s b := by
    apply h.invariant (I := fun s => TwoMounts s a b ∧ SameView D s₀ s b)
    · rintro s rfl
      exact ⟨h₀, fun _ _ => rfl, fun _ _ _ => rfl⟩
    · rintro s e s' ⟨hmounts, hview⟩ hharmless hrun
      obtain ⟨hmounts', hnode, hdisk⟩ := MountEvent.run_harmless hmounts hharmless hrun
      refine ⟨hmounts', fun block name => ?_, fun node offset size => ?_⟩
      · rw [← hview.lookup]
        rcases hdisk with hsame | ⟨hbefore, hafter⟩
        · rw [MountState.finddir, MountState.finddir, hnode, hmounts.right.driver,
            hmounts'.right.driver, hsame]
        · rw [finddir_of_noFile hbefore hmounts.right, finddir_of_noFile hafter hmounts'.right]
      · rw [← hview.read]
        rcases hdisk with hsame | ⟨hbefore, hafter⟩
        · rw [hsame]
        · rw [read_of_noFile hbefore, read_of_noFile hafter]
  exact hboth.2

end Independence

/-! ### Two small disks -/

section Small

/-- Two disks in memory. -/
def twoDisks : Devices Bool (Bool → BitVec 32 → Block) where
  read := fun node dev lba n =>
    some ((List.range n.toNat).map fun i => dev node (lba + BitVec.ofNat 32 i))
  write := fun node dev lba b =>
    (Function.update dev node (Function.update (dev node) lba b), true)

/-- The tree after boot, beside two disks with a new file system on each. -/
def twoFormatted : MountState Bool (Bool → BitVec 32 → Block) where
  tree := smallTree
  driver := fun _ => .kyrofs
  disk := ⟨⟨none, 0, .ofBlock zeroBlock, none⟩, fun _ => imageFormatted⟩

/-- The directories `/mnt` and `/bin`. -/
def mntNode : Word := 0x5000
def binNode : Word := 0x2000

/-- The first disk is mounted on `/mnt`. -/
def oneMounted : MountState Bool (Bool → BitVec 32 → Block) :=
  (vfsMount twoDisks twoFormatted mntNode ⟨true, 63, true⟩ 0x10000).1

/-- The second disk is mounted on `/bin`. -/
def twoMounted : MountState Bool (Bool → BitVec 32 → Block) :=
  (vfsMount twoDisks oneMounted binNode ⟨false, 63, true⟩ 0x20000).1

theorem twoMounts_twoMounted : TwoMounts twoMounted mntNode binNode :=
  twoMounts_of_mounts (by decide) (Prod.ext rfl (by decide) :
    vfsMount twoDisks twoFormatted mntNode ⟨true, 63, true⟩ 0x10000 = (oneMounted, 0))
    (Prod.ext rfl (by decide))

/-- The creation of a file through `/mnt`. -/
def createEvent : MountEvent := .through (.change .create (smallNode 9) [0x78])

/-- The removal of the file through `/mnt`. -/
def removeEvent : MountEvent := .through (.change .remove (smallNode 9) [0x78])

/-- The state after an event at `/mnt`. -/
def twoAfter (e : MountEvent) : MountState Bool (Bool → BitVec 32 → Block) :=
  (e.run twoDisks twoMounted mntNode).toOption.getD twoMounted

/-- A file that is not there is not removed, and `/bin` shows what it showed. -/
theorem sameView_removeEvent : SameView twoDisks twoMounted (twoAfter removeEvent) binNode := by
  apply sameView_of_reachable twoMounts_twoMounted
  have hinit : (mountSystem twoDisks mntNode twoMounted).ReachableUnder (Harmless mntNode)
      twoMounted := .init rfl
  have hnone : findFileEntry [0x78] twoMounted.disk.fs.fileTableCache = .ok none :=
    Outcome.toOption_eq_some.mp (by decide)
  have hrefused : Harmless mntNode twoMounted removeEvent := .inr hnone
  exact hinit.step hrefused (eq_ok_getD (by decide))

/-- A file that is created on the one disk is found on the other. -/
theorem not_sameView : ¬ ∀ (s s' : MountState Bool (Bool → BitVec 32 → Block)) a b
    (e : MountEvent),
    TwoMounts s a b → e.run twoDisks s a = .ok s' → SameView twoDisks s s' b := by
  intro hall
  have hview := hall twoMounted (twoAfter createEvent) mntNode binNode createEvent
    twoMounts_twoMounted (eq_ok_getD (by decide))
  have hbefore : (twoMounted.finddir 1 (.dirent binNode) [0x78]).toOption = some none := by
    decide
  have hafter : ((twoAfter createEvent).finddir 1 (.dirent binNode) [0x78]).toOption ≠
      some none := by
    decide
  rw [hview.lookup, hbefore] at hafter
  exact hafter rfl

end Small

end KyroOS.Mount

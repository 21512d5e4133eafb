import KyroOS.Mount.Vfs
import KyroOS.Vfs.Names
import KyroOS.Disk.WriteThrough

/-!
# After an unmount

`vfs_unmount` clears the flag of a mount point and its `ptr`. The operations that the mount put
into the node stay, and so does the loss of its children.

## Main definitions

* `MountOp`, `MountOp.run` — the operations through a mount point
* `SameCalls` — the calls on a directory and below it do what they did

## Main results

* `finddir_of_unmounted`, `readdir_of_unmounted` — nothing is found in the directory any more
* `not_sameCalls` — no directory is what it was before it was mounted and unmounted
-/

namespace KyroOS.Mount

open Vfs Disk Transition

section Unmount

variable {ν σ : Type} {D : Devices ν σ} {s s' : MountState ν σ} {d : Word}

/-! ### Operations through a mount point -/

/-- An operation through a mount point: a call on the directory, or on a file that was found in
it. -/
inductive MountOp
  | change (call : DirCall) (new : NewNode) (name : CString)
  | write (node : FileNode) (offset : Word) (data : List Byte)
  | read (node : FileNode) (offset : Word) (size : BitVec 32)
  | finddir (name : CString) (block : Word)
  | readdir (index : BitVec 32)

/-- The state after an operation through the node `n`. -/
def MountOp.run (D : Devices ν σ) (s : MountState ν σ) (n : Word) :
    MountOp → Outcome (MountState ν σ)
  | .change call new name => (s.call D call new name (.dirent n)).map Prod.fst
  | .write node offset data =>
    (fsDiskVfsWrite D s.disk node offset data).map fun r => { s with disk := r.1 }
  | .read node offset size => (fsDiskVfsRead D s.disk node offset size).map fun _ => s
  | .finddir name block => (s.finddir block (.dirent n) name).map fun _ => s
  | .readdir index => (s.readdir index (.dirent n)).map fun _ => s

/-- The operations through the node `n`. -/
def opSystem (D : Devices ν σ) (n : Word) (s₀ : MountState ν σ) : System (MountState ν σ) MountOp where
  init := fun s => s = s₀
  step := fun s op s' => op.run D s n = .ok s'

/-- The calls by a path from the directory, and those on the nodes below it, return what they
returned, and make the same changes to the tree. -/
structure SameCalls (D : Devices ν σ) (s s' : MountState ν σ) (d : Word) : Prop where
  resolve : ∀ path block, s'.resolve (.dirent d) path block = s.resolve (.dirent d) path block
  readdir : ∀ path block n index, s.resolve (.dirent d) path block = .ok (some n) →
    s'.readdir index n = s.readdir index n
  call : ∀ c new path block,
    (s'.callInParent D c new (.dirent d) path block).map (fun r => (r.1.tree, r.2)) =
      (s.callInParent D c new (.dirent d) path block).map fun r => (r.1.tree, r.2)

/-! ### What a mount point is -/

/-- The node has the operations of `fs_disk` and is a directory. -/
structure DiskDirectory (s : MountState ν σ) (d : Word) : Prop where
  driver : s.driver d = .fsDisk
  directory : (s.tree.node d).has vfsDirectory

/-- An operation through a mount point leaves the tree as it is. -/
theorem MountOp.run_tree {op : MountOp} (hdisk : s.driver d = .fsDisk)
    (hrun : op.run D s d = .ok s') : s'.tree = s.tree ∧ s'.driver = s.driver := by
  cases op with
  | change call new name =>
    obtain ⟨⟨t, r⟩, hcall, rfl⟩ := map_eq_ok hrun
    rw [MountState.call, hdisk] at hcall
    obtain ⟨⟨disk, r'⟩, -, heq⟩ := map_eq_ok hcall
    rw [← (Prod.mk.inj heq).1]
    exact ⟨rfl, rfl⟩
  | write node offset data =>
    obtain ⟨r, -, rfl⟩ := map_eq_ok hrun
    exact ⟨rfl, rfl⟩
  | read node offset size =>
    obtain ⟨r, -, rfl⟩ := map_eq_ok hrun
    exact ⟨rfl, rfl⟩
  | finddir name block =>
    obtain ⟨r, -, rfl⟩ := map_eq_ok hrun
    exact ⟨rfl, rfl⟩
  | readdir index =>
    obtain ⟨r, -, rfl⟩ := map_eq_ok hrun
    exact ⟨rfl, rfl⟩

/-- The flags of a mount point are those of a directory. -/
theorem mounted_directory (flags : BitVec 32) :
    (flags ||| (vfsMountpoint ||| vfsDirectory)) &&& vfsDirectory ≠ 0 := by
  intro hzero
  have hbit := congrArg (fun v => v.getLsbD 1) hzero
  simp [vfsMountpoint, vfsDirectory] at hbit

theorem cleared_mountpoint (flags : BitVec 32) :
    (flags &&& ~~~ vfsMountpoint) &&& vfsMountpoint = 0 := by
  have hnone : (~~~ vfsMountpoint) &&& vfsMountpoint = 0 := by decide
  rw [BitVec.and_assoc, hnone]
  exact BitVec.and_zero

theorem cleared_directory {flags : BitVec 32} (h : flags &&& vfsDirectory ≠ 0) :
    (flags &&& ~~~ vfsMountpoint) &&& vfsDirectory ≠ 0 := by
  have hkeep : (~~~ vfsMountpoint) &&& vfsDirectory = vfsDirectory := by decide
  rw [BitVec.and_assoc, hkeep]
  exact h

/-- A mount that succeeds makes the directory a mount point. -/
theorem vfsMount_eq_zero {device : MountDevice ν} {block : Word}
    (h : vfsMount D s d device block = (s', 0)) : ∃ disk,
      fsDiskMountDevice D s.disk device block = (disk, 0) ∧
      s' = { s with disk }.setMount d ((s.tree.node d).flags ||| (vfsMountpoint ||| vfsDirectory))
        .fsDisk := by
  have hfunc : fsDiskMountFunc D s d device block = (s', 0) := by
    rw [vfsMount] at h
    split_ifs at h
    · cases (Prod.mk.inj h).2
    · exact h
    · cases (Prod.mk.inj h).2
  rw [fsDiskMountFunc] at hfunc
  dsimp only at hfunc
  by_cases hr : (fsDiskMountDevice D s.disk device block).2 = 0
  · rw [if_neg (not_not.mpr hr)] at hfunc
    exact ⟨_, Prod.ext rfl hr, (Prod.mk.inj hfunc).1.symm⟩
  · rw [if_pos hr] at hfunc
    cases (Prod.mk.inj hfunc).2

theorem diskDirectory_of_mount {device : MountDevice ν} {block : Word}
    (h : vfsMount D s d device block = (s', 0)) : DiskDirectory s' d := by
  obtain ⟨disk, -, rfl⟩ := vfsMount_eq_zero h
  refine ⟨MountState.setMount_driver, decide_eq_true ?_⟩
  rw [MountState.setMount_flags]
  exact mounted_directory _

/-- The operations through a mount point leave it one. -/
theorem diskDirectory_of_ops {s₀ : MountState ν σ} (h₀ : DiskDirectory s₀ d)
    (h : (opSystem D d s₀).Reachable s) : DiskDirectory s d := by
  apply h.invariant (I := fun s => DiskDirectory s d)
  · rintro s rfl
    exact h₀
  · rintro s op s' hs - hrun
    obtain ⟨htree, hdriver⟩ := op.run_tree hs.driver hrun
    exact ⟨by rw [hdriver, hs.driver], by rw [htree, hs.directory]⟩

/-! ### What an unmount leaves -/

/-- A directory that has the operations of `fs_disk` and is no mount point, while no file system
is mounted. -/
structure Unmounted (s : MountState ν σ) (d : Word) : Prop extends DiskDirectory s d where
  cleared : (s.tree.node d).flags &&& vfsMountpoint = 0
  nothing : s.disk.fs.mountedDiskNode = none

/-- `fs_unmount` leaves nothing mounted. -/
theorem fsUnmount_node {disk disk' : FsState ν σ} {r : Int}
    (h : fsUnmount D disk = .ok (disk', r)) : disk'.fs.mountedDiskNode = none := by
  rw [fsUnmount] at h
  split at h
  next hnone =>
    rw [← (Prod.mk.inj (Except.ok.inj h)).1]
    exact hnone
  next =>
    obtain ⟨⟨t, ok⟩, -, hres⟩ := Outcome.bind_eq_ok.mp h
    rw [← (Prod.mk.inj (Except.ok.inj hres)).1]

/-- `fs_unmount` does not fail. -/
theorem fsUnmount_eq_zero {disk disk' : FsState ν σ} {r : Int}
    (h : fsUnmount D disk = .ok (disk', r)) : r = 0 := by
  rw [fsUnmount] at h
  split at h
  · exact (Prod.mk.inj (Except.ok.inj h)).2.symm
  · obtain ⟨⟨t, ok⟩, -, hres⟩ := Outcome.bind_eq_ok.mp h
    exact (Prod.mk.inj (Except.ok.inj hres)).2.symm

/-- An unmount of a mount point clears its flag. -/
theorem vfsUnmount_eq_ok {r : Int} (hpoint : (s.tree.node d).has vfsMountpoint)
    (h : vfsUnmount D s d = .ok (s', r)) : ∃ disk, fsUnmount D s.disk = .ok (disk, 0) ∧
      s' = { s with disk }.setMount d ((s.tree.node d).flags &&& ~~~ vfsMountpoint)
        (s.driver d) := by
  rw [vfsUnmount, if_neg (not_not.mpr hpoint)] at h
  obtain ⟨⟨disk, r'⟩, hunmount, hrest⟩ := Outcome.bind_eq_ok.mp h
  have hzero : r' = 0 := fsUnmount_eq_zero hunmount
  subst hzero
  dsimp only at hrest
  rw [if_neg (not_not.mpr rfl)] at hrest
  exact ⟨disk, hunmount, (Prod.mk.inj (Except.ok.inj hrest)).1.symm⟩

theorem unmounted_of_unmount (hd : DiskDirectory s d) (h : vfsUnmount D s d = .ok (s', 0)) :
    Unmounted s' d := by
  have hpoint : (s.tree.node d).has vfsMountpoint = true := by
    by_contra hnot
    rw [vfsUnmount, if_pos hnot] at h
    cases (Prod.mk.inj (Except.ok.inj h)).2
  obtain ⟨disk, hunmount, rfl⟩ := vfsUnmount_eq_ok hpoint h
  refine ⟨⟨MountState.setMount_driver.trans hd.driver, decide_eq_true ?_⟩, ?_,
    fsUnmount_node hunmount⟩
  · rw [MountState.setMount_flags]
    exact cleared_directory (of_decide_eq_true hd.directory)
  · rw [MountState.setMount_flags]
    exact cleared_mountpoint _

/-- No name is found in the directory any more. -/
theorem finddir_of_unmounted (h : Unmounted s d) (block : Word) (name : CString) :
    s.finddir block (.dirent d) name = .ok none := by
  rw [MountState.finddir, if_pos h.directory, h.driver, fsDiskVfsFinddir,
    if_neg (not_not.mpr h.cleared)]
  rfl

/-- The directory is listed as empty. -/
theorem readdir_of_unmounted (h : Unmounted s d) (index : BitVec 32) :
    s.readdir index (.dirent d) = .ok none := by
  rw [MountState.readdir, if_pos h.directory, h.driver, fsDiskVfsReaddir, if_pos h.cleared]

/-- Nothing is created in the directory or removed from it. -/
theorem call_of_unmounted (h : Unmounted s d) (c : DirCall) (new : NewNode) (name : CString) :
    s.call D c new name (.dirent d) = .ok (s, -1) := by
  rw [MountState.call, h.driver]
  cases c <;> rw [fsDiskCall]
  · rw [fsCreateFile, h.nothing]
    rfl
  · rw [fsCreateFile, h.nothing]
    rfl
  · rw [fsDeleteFile, h.nothing]
    rfl
  · rw [fsDeleteFile, h.nothing]
    rfl

/-- A directory of KyroFS is its own `.`, and after it was mounted and unmounted it is not, whatever
was done through the mount point. -/
theorem not_sameCalls {s₁ s₂ s₃ : MountState ν σ} {device : MountDevice ν} {block : Word}
    (hkyrofs : s.driver d = .kyrofs) (hdir : s.tree.IsDirectory d)
    (hmount : vfsMount D s d device block = (s₁, 0)) (hops : (opSystem D d s₁).Reachable s₂)
    (hunmount : vfsUnmount D s₂ d = .ok (s₃, 0)) : ¬ SameCalls D s s₃ d := by
  intro hsame
  have hafter : Unmounted s₃ d :=
    unmounted_of_unmount (diskDirectory_of_ops (diskDirectory_of_mount hmount) hops) hunmount
  have hdots : pathComponents (cstring ['.']) = [cstring ['.']] := by decide
  have hresolve := hsame.resolve (cstring ['.']) 0
  rw [MountState.resolve, MountState.resolve, hdots, MountState.walk, MountState.walk,
    finddir_of_unmounted hafter, finddir_of_kyrofs hkyrofs, vfsFinddir, if_pos hdir,
    kyrofsFinddir, if_pos rfl] at hresolve
  cases hresolve

end Unmount

/-! ### A small mount -/

section Small

/-- A tree with nothing but its root, beside the disk in memory. -/
def smallRoot : MountState Unit (BitVec 32 → Block) where
  tree := bareRoot 0x1000
  driver := fun _ => .kyrofs
  disk := ⟨⟨none, 0, .ofBlock zeroBlock, none⟩, imageFormatted⟩

/-- The disk, with a partition at block 63. -/
def smallDevice : MountDevice Unit := ⟨(), 63, true⟩

/-- The disk is mounted on the root. -/
def smallMount : MountState Unit (BitVec 32 → Block) :=
  (vfsMount imageDevices smallRoot 0x1000 smallDevice 0x2000).1

/-- The root after the unmount. -/
def smallUnmount : MountState Unit (BitVec 32 → Block) :=
  ((vfsUnmount imageDevices smallMount 0x1000).toOption.getD (smallRoot, 0)).1

theorem smallMount_eq :
    vfsMount imageDevices smallRoot 0x1000 smallDevice 0x2000 = (smallMount, 0) :=
  Prod.ext rfl (by decide)

theorem smallUnmount_eq :
    vfsUnmount imageDevices smallMount 0x1000 = .ok (smallUnmount, 0) := by
  have hok : vfsUnmount imageDevices smallMount 0x1000 =
      .ok ((vfsUnmount imageDevices smallMount 0x1000).toOption.getD (smallRoot, 0)) :=
    eq_ok_getD (by decide)
  have hres : ((vfsUnmount imageDevices smallMount 0x1000).toOption.getD (smallRoot, 0)).2 = 0 := by
    decide
  exact hok.trans (congrArg Except.ok (Prod.ext rfl hres))

/-- The root is not what it was. -/
theorem not_sameCalls_smallRoot : ¬ SameCalls imageDevices smallRoot smallUnmount 0x1000 :=
  not_sameCalls rfl (by decide) smallMount_eq (.init rfl) smallUnmount_eq

/-- A mount and an unmount do not restore the root of a tree: it is not found from itself. -/
theorem not_restored : ¬ ∀ (s s₁ s₂ s₃ : MountState Unit (BitVec 32 → Block)) d device block,
    s.driver d = .kyrofs → s.tree.IsDirectory d →
    vfsMount imageDevices s d device block = (s₁, 0) →
    (opSystem imageDevices d s₁).Reachable s₂ → vfsUnmount imageDevices s₂ d = .ok (s₃, 0) →
      SameCalls imageDevices s s₃ d := by
  intro hall
  have hsame := hall smallRoot smallMount smallMount smallUnmount 0x1000 smallDevice 0x2000 rfl
    (by decide) smallMount_eq (.init rfl) smallUnmount_eq
  have hbefore : (smallRoot.resolve (.dirent 0x1000) (cstring ['.']) 0).toOption =
      some (some (.dirent 0x1000)) := by
    decide
  have hafter : (smallUnmount.resolve (.dirent 0x1000) (cstring ['.']) 0).toOption =
      some none := by
    decide
  rw [hsame.resolve (cstring ['.']) 0, hbefore] at hafter
  cases hafter

end Small

end KyroOS.Mount

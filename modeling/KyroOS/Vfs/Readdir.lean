import KyroOS.Vfs.Descriptors

/-!
# Directory listing by descriptor

The `readdir` wrapper passes a descriptor, and `sys_readdir` takes its argument for the address of
a node, or for the root where it is 0.

## Main definitions

* `kyrofsReaddir`, `vfsReaddir`, `sysReaddir` — the kernel's side
* `readdir`, `readdirLoop` — the wrapper, and the loop of the tools that list a directory
* `ListsDirectory` — every entry is returned under its index, and the loop lists them all
* `ListsSame` — the node that the kernel takes lists the same names

## Main results

* `readdirLoop_eq_ok` — a loop that ends has listed the node that the kernel takes
* `listsDirectory_iff` — a descriptor lists its directory exactly when that node does
* `not_listsDirectory` — a thread with its console open lists no directory
-/

namespace KyroOS.Vfs

open Transition

/-! ### The kernel -/

/-- `struct dirent` -/
structure DirEntry where
  name : CString
  ino : BitVec 32
  deriving DecidableEq

/-- `kyrofs_readdir`; no node of KyroFS is ever given an `inode`. -/
def kyrofsReaddir (fs : Kyrofs) (n : Word) (index : BitVec 32) : Option DirEntry :=
  ((fs.children n)[index.toNat]?).map fun c => ⟨(fs.node c).name, 0⟩

/-- `vfs_readdir`: the entry with a return value of 1, or none with 0. -/
def vfsReaddir (fs : Kyrofs) (n : Word) (index : BitVec 32) : Option DirEntry :=
  if fs.IsDirectory n then kyrofsReaddir fs n index else none

/-- The node that `sys_readdir` takes its first argument for. -/
def readdirNode (fs : Kyrofs) (rdi : Word) : Word := if rdi = 0 then fs.root else rdi

/-- `sys_readdir`; what is at an address that is no node is not mapped. -/
def sysReaddir (fs : Kyrofs) (rdi : Word) (index : BitVec 32) : Outcome (Option DirEntry) :=
  if readdirNode fs rdi ∈ fs.live then .ok (vfsReaddir fs (readdirNode fs rdi) index)
  else .error .fault

/-! ### User space -/

/-- `readdir` of the user library: `SYS_READDIR` with the descriptor. -/
def readdir (s : FdState) (fd : Fin maxFiles) (index : BitVec 32) : Outcome (Option DirEntry) :=
  sysReaddir s.fs (BitVec.ofNat 64 fd) index

/-- `while (readdir(fd, index++, &de))`: the names that the loop finds. -/
def readdirLoop (s : FdState) (fd : Fin maxFiles) : ℕ → BitVec 32 → Outcome (List CString)
  | 0, _ => .error .outOfFuel
  | fuel + 1, index => do
    match ← readdir s fd index with
    | none => .ok []
    | some entry =>
      let rest ← readdirLoop s fd fuel (index + 1)
      .ok (entry.name :: rest)

/-- Every entry of the directory is returned under its index, and the loop lists each of them once
and ends. -/
structure ListsDirectory (s : FdState) (fd : Fin maxFiles) (d : Word) : Prop where
  entry : ∀ index, readdir s fd index =
    .ok (((s.fs.names d)[index.toNat]?).map fun name => ⟨name, 0⟩)
  loop : ∃ fuel, readdirLoop s fd fuel 0 = .ok (s.fs.names d)

/-- The names that `vfs_readdir` finds in a node. -/
def listing (fs : Kyrofs) (n : Word) : List CString := if fs.IsDirectory n then fs.names n else []

/-- The node `n` is there and lists the names of the directory `d`, which an index can count. -/
structure ListsSame (fs : Kyrofs) (n d : Word) : Prop where
  live : n ∈ fs.live
  listing : listing fs n = fs.names d
  countable : (fs.names d).length < 2 ^ 32

/-! ### What is listed -/

section Listing

variable {s : FdState} {fs : Kyrofs} {fd : Fin maxFiles} {n d t : Word} {index : BitVec 32}
  {out : List CString} {entry : FdEntry}

theorem vfsReaddir_eq :
    vfsReaddir fs n index = ((listing fs n)[index.toNat]?).map fun name => ⟨name, 0⟩ := by
  rw [vfsReaddir, listing]
  split_ifs
  · rw [kyrofsReaddir, Kyrofs.names, List.getElem?_map, Option.map_map]
    rfl
  · rfl

/-- The node that the kernel takes the descriptor for. -/
def FdState.listed (s : FdState) (fd : Fin maxFiles) : Word :=
  readdirNode s.fs (BitVec.ofNat 64 fd)

theorem readdir_of_live (h : s.listed fd ∈ s.fs.live) : readdir s fd index =
    .ok (((listing s.fs (s.listed fd))[index.toNat]?).map fun name => ⟨name, 0⟩) := by
  rw [readdir, sysReaddir]
  exact (if_pos h).trans (congrArg _ vfsReaddir_eq)

theorem live_of_readdir {res : Option DirEntry} (h : readdir s fd index = .ok res) :
    s.listed fd ∈ s.fs.live := by
  rw [readdir, sysReaddir] at h
  by_contra hnot
  cases (if_neg hnot).symm.trans h

/-- The loop goes on behind an entry. -/
theorem readdirLoop_of_lt (h : s.listed fd ∈ s.fs.live) {fuel : ℕ}
    (hlt : index.toNat < (listing s.fs (s.listed fd)).length) :
    readdirLoop s fd (fuel + 1) index = (do
      let rest ← readdirLoop s fd fuel (index + 1)
      .ok ((listing s.fs (s.listed fd))[index.toNat] :: rest)) := by
  rw [readdirLoop, readdir_of_live h, List.getElem?_eq_getElem hlt]
  rfl

theorem readdirLoop_of_le (h : s.listed fd ∈ s.fs.live) {fuel : ℕ}
    (hle : (listing s.fs (s.listed fd)).length ≤ index.toNat) :
    readdirLoop s fd (fuel + 1) index = .ok [] := by
  rw [readdirLoop, readdir_of_live h, List.getElem?_eq_none hle]
  rfl

theorem toNat_add_one {l : List CString} (h : index.toNat < l.length) (hl : l.length < 2 ^ 32) :
    (index + 1).toNat = index.toNat + 1 := by
  rw [BitVec.toNat_add]
  exact Nat.mod_eq_of_lt (by show index.toNat + 1 < 2 ^ 32; omega)

/-- With a count that an index can hold, the loop lists what is left and ends. -/
theorem readdirLoop_eq_drop (h : s.listed fd ∈ s.fs.live)
    (hl : (listing s.fs (s.listed fd)).length < 2 ^ 32) {fuel : ℕ}
    (hfuel : (listing s.fs (s.listed fd)).length < fuel + index.toNat)
    (hle : index.toNat ≤ (listing s.fs (s.listed fd)).length) :
    readdirLoop s fd fuel index = .ok ((listing s.fs (s.listed fd)).drop index.toNat) := by
  induction fuel generalizing index with
  | zero => omega
  | succ fuel ih =>
    by_cases hlt : index.toNat < (listing s.fs (s.listed fd)).length
    · have hnext := toNat_add_one hlt hl
      rw [readdirLoop_of_lt h hlt, ih (by omega) (by omega), hnext, List.drop_eq_getElem_cons hlt]
      rfl
    · rw [readdirLoop_of_le h (not_lt.mp hlt), List.drop_eq_nil_of_le (not_lt.mp hlt)]

/-- A loop that ends has listed what is left of a list that an index can count. -/
theorem readdirLoop_eq_ok (h : s.listed fd ∈ s.fs.live) {fuel : ℕ}
    (hok : readdirLoop s fd fuel index = .ok out) :
    (listing s.fs (s.listed fd)).length < 2 ^ 32 ∧
      (index.toNat ≤ (listing s.fs (s.listed fd)).length →
        out = (listing s.fs (s.listed fd)).drop index.toNat) := by
  induction fuel generalizing index out with
  | zero => cases hok
  | succ fuel ih =>
    by_cases hlt : index.toNat < (listing s.fs (s.listed fd)).length
    · rw [readdirLoop_of_lt h hlt] at hok
      obtain ⟨rest, hrest, hok⟩ := Outcome.bind_eq_ok.mp hok
      obtain rfl := Except.ok.inj hok
      obtain ⟨hl, hdrop⟩ := ih hrest
      have hnext := toNat_add_one hlt hl
      refine ⟨hl, fun _ => ?_⟩
      rw [hdrop (by omega), hnext, List.drop_eq_getElem_cons hlt]
    · have hle := not_lt.mp hlt
      rw [readdirLoop_of_le h hle] at hok
      obtain rfl := Except.ok.inj hok
      exact ⟨hle.trans_lt index.isLt, fun _ => (List.drop_eq_nil_of_le hle).symm⟩

/-- A descriptor of a directory lists it exactly when the node that the kernel takes the
descriptor for (the root for 0, the node at that address otherwise) lists the same names, and an
index can count them. -/
theorem listsDirectory_iff (_hopen : s.fds t fd = some entry)
    (_hdir : s.fs.IsDirectory entry.node) :
    ListsDirectory s fd entry.node ↔
      ListsSame s.fs (readdirNode s.fs (BitVec.ofNat 64 fd)) entry.node := by
  constructor
  · rintro ⟨hentry, fuel, hloop⟩
    have hlive := live_of_readdir (hentry 0)
    obtain ⟨hl, hdrop⟩ := readdirLoop_eq_ok hlive hloop
    have hsame := hdrop (Nat.zero_le _)
    rw [show (0 : BitVec 32).toNat = 0 from rfl, List.drop_zero] at hsame
    exact ⟨hlive, hsame.symm, hsame ▸ hl⟩
  · rintro ⟨hlive, hsame, hl⟩
    refine ⟨fun index => ?_, (s.fs.names entry.node).length + 1, ?_⟩
    · rw [readdir_of_live hlive, FdState.listed, hsame]
    · rw [readdirLoop_eq_drop hlive]
      · exact congrArg Except.ok hsame
      · exact hsame ▸ hl
      · rw [FdState.listed, hsame]
        exact Nat.lt_succ_self _
      · exact Nat.zero_le _

local instance neZero_maxFiles : NeZero maxFiles := ⟨by decide⟩

/-- The tree of `kyrofs_init`, with its root open as descriptor 0. -/
def rootOpen : FdState := ⟨smallTree, {1}, fun _ i => if i = 0 then some ⟨0x1000, 0, 0⟩ else none⟩

theorem listsDirectory_rootOpen : ListsDirectory rootOpen 0 0x1000 := by
  have hopen : rootOpen.fds 1 0 = some ⟨0x1000, 0, 0⟩ := rfl
  have hdir : rootOpen.fs.IsDirectory 0x1000 := by decide
  exact (listsDirectory_iff hopen hdir).mpr ⟨by decide, by decide, by decide⟩

/-- A user thread, which has its console open as descriptors 0 to 2, opens `/mnt`. -/
theorem not_listsDirectory : ¬ ∀ (s : FdState) (t : Word) (fd : Fin maxFiles) (entry : FdEntry),
    fdSystem.Reachable s → s.fds t fd = some entry → s.fs.IsDirectory entry.node →
    ListsDirectory s fd entry.node := by
  intro hall
  obtain ⟨s, hs, hfd, hdir, hnode⟩ := System.exists_reachableUnder (S := fdSystem)
    (C := fun _ _ => True)
    (P := fun s : FdState =>
      ((s.fds 1 3).map FdEntry.node = some (smallNode 3).dirent) ∧
        s.fs.IsDirectory (smallNode 3).dirent ∧ 3 ∉ s.fs.live)
    fdNext [.createUserspace 1, .open 1 mntPath 0 (smallNode 8)]
    (fun s e s' h => ⟨e, trivial, step_of_fdNext h⟩) smallFds_init (by decide)
  obtain ⟨entry, hentry, hmnt⟩ := Option.map_eq_some_iff.mp hfd
  have hlists := hall s 1 3 entry hs hentry (hmnt ▸ hdir)
  exact hnode (live_of_readdir (hlists.entry 0))

end Listing

end KyroOS.Vfs

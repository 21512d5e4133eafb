import KyroOS.Vfs.Changes

/-!
# The answers of `stat`

`kyrofs_create_node` installs `stat` with the operations of a directory, so that only nodes that
are no files have it.

## Main definitions

* `Stat`, `kyrofsStat`, `vfsStat`, `sysStat` — the answer, the operation of a node and the calls
* `TreeEvent`, `treeSystem` — the runs of all calls on the tree, with the writes of open files
* `StatAgrees` — both calls answer with the type of the node and the size of a full read
* `HasStat` — the path, and what the system call copies of it, lead to nodes that are no files

## Main results

* `opsByFlags_of_reachable` — a node has the operations of a file exactly when it is one
* `statAgrees_iff` — the calls agree with the tree exactly for nodes that are no files
* `not_statAgrees` — a file that was just created has no `stat`
-/

namespace KyroOS.Vfs

open Transition

/-! ### The calls -/

def sIfmt : BitVec 32 := 0xF000
def sIfdir : BitVec 32 := 0x4000
def sIfreg : BitVec 32 := 0x8000

/-- `struct stat` -/
structure Stat where
  stSize : BitVec 32
  stMode : BitVec 32
  stIno : BitVec 32
  deriving DecidableEq

/-- `kyrofs_stat`; no node of KyroFS is ever given an `inode`. -/
def kyrofsStat (node : Dirent) : Stat where
  stSize := node.length
  stMode :=
    (if node.has vfsFile then sIfreg
    else if node.has vfsDirectory then sIfdir
    else if node.has vfsChardevice then sIfreg
    else 0) ||| 0o755
  stIno := 0

/-- `node->stat(node, stat_buf)`, where there is one; `none` is `-1`. -/
def Kyrofs.statNode (fs : Kyrofs) (n : Word) : Option Stat :=
  if (fs.node n).hasDirectoryOps then some (kyrofsStat (fs.node n)) else none

/-- `vfs_stat` -/
def vfsStat (fs : Kyrofs) (root : Word) (path : CString) : Option Stat :=
  match fs.resolve root path with
  | none => none
  | some n => fs.statNode n

/-- `sys_stat` of a path in user space. -/
def sysStat (fs : Kyrofs) (userPath : CString) : Option Stat :=
  match fs.resolve fs.root (copyPath userPath) with
  | none => none
  | some n => fs.statNode n

/-! ### Runs -/

/-- A call by path, or a write to a node that is open. -/
inductive TreeEvent
  | call (e : FsEvent)
  | write (n : Word) (offset : Word) (data : List Byte) (block : Option (ℕ → Byte))

inductive TreeStep : Kyrofs → TreeEvent → Kyrofs → Prop
  | call {fs fs' : Kyrofs} {e : FsEvent} (h : kyrofsSystem.step fs e fs') :
    TreeStep fs (.call e) fs'
  | write {fs fs' : Kyrofs} {n offset : Word} {data : List Byte} {block : Option (ℕ → Byte)}
    {res : BitVec 32} (hn : n ∈ fs.live) (h : vfsWrite fs n offset data block = .ok (fs', res)) :
    TreeStep fs (.write n offset data block) fs'

/-- The runs from `kyrofs_init` on. -/
def treeSystem : System Kyrofs TreeEvent where
  init := kyrofsSystem.init
  step := TreeStep

/-! ### Operations by flags -/

/-- A node has the operations of a directory exactly when it is no file. -/
def OpsByFlags (fs : Kyrofs) : Prop :=
  ∀ n, (fs.node n).hasDirectoryOps = !(fs.node n).has vfsFile

section Ops

variable {fs fs' : Kyrofs} {new : NewNode} {n p : Word} {name path : CString}
  {flags : BitVec 32} {r : Int} {e : FsEvent}

theorem has_congr {d d' : Dirent} (h : Kyrofs.Same d d') (flag : BitVec 32) :
    d'.has flag = d.has flag := by
  rw [Dirent.has, Dirent.has, h.flags]

theorem newPtr_ops {ptr : Ptr} (hok : newPtr new flags = .ok ptr) :
    (⟨name, flags, 0, ptr, p⟩ : Dirent).hasDirectoryOps =
      !(⟨name, flags, 0, ptr, p⟩ : Dirent).has vfsFile := by
  rw [newPtr] at hok
  split_ifs at hok with hfile hcontent
  · cases hbuffer : new.buffer with
    | none =>
      rw [hbuffer] at hok
      cases hok
    | some junk =>
      rw [hbuffer] at hok
      obtain rfl := Except.ok.inj hok
      simpa [Dirent.hasDirectoryOps, Dirent.has] using hfile
  · obtain rfl := Except.ok.inj hok
    simpa [Dirent.hasDirectoryOps, Dirent.has] using hfile

theorem OpsByFlags.same (h : OpsByFlags fs) (hsame : ∀ n, Kyrofs.Same (fs.node n) (fs'.node n)) :
    OpsByFlags fs' := by
  intro n
  rw [(hsame n).ops, has_congr (hsame n), h n]

theorem OpsByFlags.touch (h : OpsByFlags fs) (htouch : fs.Touch fs') : OpsByFlags fs' :=
  h.same htouch.same

theorem OpsByFlags.createNode (h : OpsByFlags fs) (hne : new.dirent ≠ p)
    (hok : kyrofsCreateNode fs new p name flags = .ok (fs', r)) : OpsByFlags fs' := by
  obtain ⟨ptr, hptr, hops, rfl, -⟩ := createNode_link hok
  intro n
  by_cases hn : n = new.dirent
  · rw [hn, Kyrofs.link_node_new hne]
    exact newPtr_ops hptr
  · have hsame : Kyrofs.Same (fs.node n)
        ((fs.link new.dirent ⟨name, flags, 0, ptr, p⟩).node n) := Kyrofs.link_same hops hne hn
    rw [hsame.ops, has_congr hsame, h n]

/-- The step lemma. -/
theorem OpsByFlags.change {c : Change} (h : OpsByFlags fs) (hstep : changeSystem.step fs c fs') :
    OpsByFlags fs' := by
  cases hstep with
  | create hnew hp hok => exact h.createNode (Kyrofs.ne_of_notMem hnew hp) hok
  | unlink hp hc => exact h.same fun n => Kyrofs.unlink_same (Kyrofs.hasDirectoryOps_of_mem hc)
  | «open» hn hok => exact h.touch (openNode_touch hok).1
  | write hn hok => exact h.touch (vfsWrite_touch hok)

theorem opsByFlags_bareRoot {root : Word} : OpsByFlags (bareRoot root) := fun _ =>
  show true = !decide (vfsDirectory &&& vfsFile ≠ 0) by decide

/-- The run lemma. -/
theorem opsByFlags_of_reachable (h : treeSystem.Reachable fs) : OpsByFlags fs := by
  have hboth : fs.Tree ∧ OpsByFlags fs := by
    refine h.invariant (I := fun s => s.Tree ∧ OpsByFlags s) ?_ ?_
    · intro s hinit
      exact ⟨tree_of_reachable (C := fun _ _ => True) (.init hinit),
        kyrofsInit_changes (fun _ _ => opsByFlags_bareRoot)
          (fun _ _ _ _ _ _ _ hops _ _ hstep => hops.change hstep) hinit⟩
    · rintro s e t ⟨htree, hops⟩ - hstep
      cases hstep with
      | call hcall => exact ⟨tree_step htree hcall,
          (FsEvent.runsTo htree hcall).preserves (fun _ _ _ hs _ hc => hs.change hc) hops⟩
      | write hn hwrite => exact ⟨htree.touch (vfsWrite_touch hwrite),
          hops.touch (vfsWrite_touch hwrite)⟩
  exact hboth.2

end Ops

/-! ### The answers -/

/-- The answer has the type of the node, and the size of a file that a full read returns. -/
structure Describes (node : Dirent) (st : Stat) : Prop where
  file : node.has vfsFile → st.stMode &&& sIfmt = sIfreg
  directory : node.has vfsDirectory → st.stMode &&& sIfmt = sIfdir
  size : node.has vfsFile → ∀ bytes, kyrofsRead node 0 (BitVec.allOnes 32) = .ok bytes →
    st.stSize.toNat = bytes.length

/-- `vfs_stat` and `SYS_STAT` of a path answer for the node. -/
def StatAgrees (fs : Kyrofs) (path : CString) (n : Word) : Prop :=
  (∃ st, vfsStat fs fs.root path = some st ∧ Describes (fs.node n) st) ∧
    ∃ st, sysStat fs path = some st ∧ Describes (fs.node n) st

/-- The node is no file, and what `SYS_STAT` copies of the path leads to a node that is no file
either, and is a directory if the node is one. -/
def HasStat (fs : Kyrofs) (path : CString) (n : Word) : Prop :=
  ¬ (fs.node n).has vfsFile ∧ ∃ m, fs.resolve fs.root (copyPath path) = some m ∧
    ¬ (fs.node m).has vfsFile ∧ ((fs.node n).has vfsDirectory → (fs.node m).has vfsDirectory)

section Answers

variable {fs : Kyrofs} {n m : Word} {path : CString} {d d' : Dirent}

theorem statNode_eq_some (h : OpsByFlags fs) {st : Stat} :
    fs.statNode n = some st ↔ ¬ (fs.node n).has vfsFile ∧ kyrofsStat (fs.node n) = st := by
  rw [Kyrofs.statNode, h n]
  cases hfile : (fs.node n).has vfsFile with
  | true => simp
  | false => simp

/-- The answer of a node that is no file describes every node that is no file, and is no directory
unless the node is one. -/
theorem describes_kyrofsStat (hd : ¬ d.has vfsFile) (hd' : ¬ d'.has vfsFile) :
    Describes d (kyrofsStat d') ↔ (d.has vfsDirectory → d'.has vfsDirectory) := by
  constructor
  · intro hdescribes hdir
    have htype := hdescribes.directory hdir
    by_contra hnot
    simp only [kyrofsStat, if_neg hd', if_neg hnot] at htype
    split_ifs at htype
    · exact absurd htype (by decide)
    · exact absurd htype (by decide)
  · intro hdir
    refine ⟨fun hfile => absurd hfile hd, fun hd₁ => ?_, fun hfile => absurd hfile hd⟩
    simp only [kyrofsStat, if_neg hd', if_pos (hdir hd₁)]
    decide

/-- In every reachable state, `vfs_stat` and `SYS_STAT` of a path agree with the node the path
leads to exactly when neither this node nor the one that the copied path leads to is a file, and
the second is a directory if the first is. -/
theorem statAgrees_iff (h : treeSystem.Reachable fs) (hpath : fs.resolve fs.root path = some n) :
    StatAgrees fs path n ↔ HasStat fs path n := by
  have hops := opsByFlags_of_reachable h
  have hvfs : vfsStat fs fs.root path = fs.statNode n := by
    rw [vfsStat, hpath]
  constructor
  · rintro ⟨⟨st, hst, -⟩, st', hst', hdescribes⟩
    rw [hvfs] at hst
    have hn := ((statNode_eq_some hops).mp hst).1
    cases hcopy : fs.resolve fs.root (copyPath path) with
    | none =>
      rw [sysStat, hcopy] at hst'
      cases hst'
    | some m =>
      rw [sysStat, hcopy] at hst'
      obtain ⟨hm, rfl⟩ := (statNode_eq_some hops).mp hst'
      exact ⟨hn, m, hcopy, hm, (describes_kyrofsStat hn hm).mp hdescribes⟩
  · rintro ⟨hn, m, hcopy, hm, hdir⟩
    refine ⟨⟨_, ?_, (describes_kyrofsStat hn hn).mpr id⟩, _, ?_,
      (describes_kyrofsStat hn hm).mpr hdir⟩
    · rw [hvfs]
      exact (statNode_eq_some hops).mpr ⟨hn, rfl⟩
    · rw [sysStat, hcopy]
      exact (statNode_eq_some hops).mpr ⟨hm, rfl⟩

/-- `stat` of `/bin` in the tree of `kyrofs_init`. -/
theorem statAgrees_bin :
    StatAgrees smallTree (cstring ['/', 'b', 'i', 'n']) (smallNode 0).dirent := by
  have hreach : treeSystem.Reachable smallTree := .init smallTree_init
  have hcopy : smallTree.resolve smallTree.root (copyPath (cstring ['/', 'b', 'i', 'n'])) =
      some (smallNode 0).dirent := by decide
  exact (statAgrees_iff hreach (by decide)).mpr
    ⟨by decide, (smallNode 0).dirent, hcopy, by decide, id⟩

/-- The node of a file, with a buffer of zeros. -/
def smallFile : NewNode := ⟨(smallNode 8).dirent, (smallNode 9).dirent, some fun _ => 0⟩

/-- `SYS_OPEN` of `/a` with `O_CREAT`. -/
def smallOpen : FsEvent := .open (cstring ['/', 'a']) oCreat smallFile

/-- A file is created, and `stat` called on it. -/
theorem not_statAgrees : ¬ ∀ (fs : Kyrofs) (path : CString) (n : Word), treeSystem.Reachable fs →
    fs.resolve fs.root path = some n → StatAgrees fs path n := by
  intro hall
  obtain ⟨fs, hfs⟩ : ∃ fs, fs = (smallOpen.run smallTree).toOption.getD smallTree := ⟨_, rfl⟩
  have hok : smallOpen.run smallTree = .ok fs := by
    rw [hfs]
    exact eq_ok_getD (by decide +kernel)
  have hadm : smallOpen.Admissible smallTree :=
    show smallFile.dirent ∉ smallTree.live by decide
  have hinit : treeSystem.Reachable smallTree := .init smallTree_init
  have hreach : treeSystem.Reachable fs := hinit.step trivial (.call ⟨hadm, hok⟩)
  have hpath : fs.resolve fs.root (cstring ['/', 'a']) = some smallFile.dirent := by
    rw [hfs]
    decide +kernel
  have hstat : vfsStat fs fs.root (cstring ['/', 'a']) = none := by
    rw [hfs]
    decide +kernel
  obtain ⟨⟨st, hst, -⟩, -⟩ := hall fs _ _ hreach hpath
  rw [hstat] at hst
  cases hst

end Answers

end KyroOS.Vfs

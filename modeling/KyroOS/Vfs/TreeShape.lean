import KyroOS.Vfs.Changes
import Mathlib.Logic.Relation

/-!
# The shape of the tree

`mkdir`, `create`, `remove` and `rmdir` link and unlink nodes of the tree in any order and under any
names. All nodes stay below the root, each in the list of its parent and in no other, since a node
is linked below a directory when it is new, and unlinked when it has no children.

## Main definitions

* `DirEvent`, `dirSystem` — the calls of the directory operations
* `DirTree` — what holds of the nodes between the calls
* `TreeShape` — the directories form a tree

## Main results

* `DirTree.step` — a call keeps the nodes below the root
* `DirTree.acyclic` — no node is below itself
* `reachable_of_vfsCall` — the calls by path are such calls
* `treeShape_of_reachable` — the shape of the tree, and what is freed
-/

namespace KyroOS.Vfs

open Transition

/-! ### Directory operations -/

/-- A call of a directory operation of the node `n`. -/
inductive DirEvent
  | mkdir (n : Word) (name : CString) (new : NewNode)
  | create (n : Word) (name : CString) (new : NewNode)
  | remove (n : Word) (name : CString)
  | rmdir (n : Word) (name : CString)

namespace DirEvent

/-- The state after a call, and its result. -/
def run (fs : Kyrofs) : DirEvent → Outcome (Kyrofs × Int)
  | mkdir n name new => kyrofsMkdir fs new n name
  | create n name new => kyrofsCreate fs new n name
  | remove n name => .ok (kyrofsRemove fs n name)
  | rmdir n name => .ok (kyrofsRmdir fs n name)

/-- Directories are called, and `kmalloc` returns a block that is not in use. -/
def Admissible (fs : Kyrofs) : DirEvent → Prop
  | mkdir n _ new | create n _ new => n ∈ fs.live ∧ fs.IsDirectory n ∧ new.dirent ∉ fs.live
  | remove n _ | rmdir n _ => n ∈ fs.live ∧ fs.IsDirectory n

/-- What a call may free: a child without children, and in `rmdir` a directory. -/
def FreesOnly (fs : Kyrofs) (fs' : Kyrofs) : DirEvent → Prop
  | mkdir _ _ _ | create _ _ _ => fs.live ⊆ fs'.live
  | remove n _ => fs' = fs ∨ ∃ c ∈ fs.children n, fs.children c = [] ∧ fs' = fs.unlink n c
  | rmdir n _ => fs' = fs ∨
      ∃ c ∈ fs.children n, fs.IsDirectory c ∧ fs.children c = [] ∧ fs' = fs.unlink n c

end DirEvent

/-- The runs of directory operations from `kyrofs_init` on. -/
def dirSystem : System Kyrofs DirEvent where
  init := kyrofsSystem.init
  step := fun fs e fs' => e.Admissible fs ∧ ∃ r, e.run fs = .ok (fs', r)

/-! ### Nodes below the root -/

/-- All nodes are below the root, and only directories have children. -/
structure DirTree (fs : Kyrofs) : Prop where
  tree : fs.Tree
  attached : ∀ c ∈ fs.live, fs.Attached c
  files : ∀ c ∈ fs.live, ¬ fs.IsDirectory c → fs.children c = []
  nonzero : 0 ∉ fs.live

/-- The node `c` is a child of `d`. -/
def ChildOf (fs : Kyrofs) (d c : Word) : Prop := d ∈ fs.live ∧ c ∈ fs.children d

section Shape

variable {fs fs' : Kyrofs} {n c p : Word} {name : CString} {flags : BitVec 32} {new : NewNode}
  {r : Int}

theorem createNode_nonzero (hok : kyrofsCreateNode fs new n name flags = .ok (fs', r)) :
    new.dirent ≠ 0 := by
  intro hzero
  rw [kyrofsCreateNode, if_pos hzero] at hok
  cases hok

/-- A new node below a directory. -/
theorem DirTree.create (h : DirTree fs) (hn : n ∈ fs.live) (hdir : fs.IsDirectory n)
    (hnew : new.dirent ∉ fs.live) (hok : kyrofsCreateNode fs new n name flags = .ok (fs', r)) :
    DirTree fs' := by
  obtain ⟨hedit, -, hlive, -⟩ := createNode_edit hok hnew hn
  have hnonzero := createNode_nonzero hok
  obtain ⟨ptr, hptr, hops, rfl, -⟩ := createNode_link hok
  have hne : new.dirent ≠ n := Kyrofs.ne_of_notMem hnew hn
  have hchildren : ∀ m, (fs.link new.dirent ⟨name, flags, 0, ptr, n⟩).children m =
      if m = n then new.dirent :: fs.children m
      else if m = new.dirent then Dirent.children ⟨name, flags, 0, ptr, n⟩ else fs.children m :=
    fun m => Kyrofs.children_link hne
  refine ⟨h.tree.edit hedit, ?_, ?_, ?_⟩
  · intro m hm
    rw [hlive] at hm
    rcases Finset.mem_insert.mp hm with rfl | hm
    · refine .child ((h.attached n hn).edit h.tree hedit) ?_
      rw [hchildren, if_pos rfl]
      exact List.mem_cons_self
    · exact (h.attached m hm).edit h.tree hedit
  · intro m hm hnot
    rw [hchildren]
    rw [hlive] at hm
    rcases Finset.mem_insert.mp hm with rfl | hm
    · rw [if_neg hne, if_pos rfl]
      exact newPtr_children hptr
    · have hsame := Kyrofs.isDirectory_congr (hedit.same hm)
      have hmn : m ≠ n := fun heq => hnot (hsame.mpr (heq ▸ hdir))
      rw [if_neg hmn, if_neg (Kyrofs.ne_of_notMem hnew hm).symm]
      exact h.files m hm fun hm' => hnot (hsame.mpr hm')
  · rw [hlive, Finset.mem_insert]
    rintro (hzero | hzero)
    · exact hnonzero hzero.symm
    · exact h.nonzero hzero

/-- A child without children is taken out, and the other nodes stay below the root. -/
theorem DirTree.unlink (h : DirTree fs) (hn : n ∈ fs.live) (hc : c ∈ fs.children n)
    (hempty : fs.children c = []) : DirTree (fs.unlink n c) := by
  have hedit : fs.Edit none (fs.unlink n c) := .unlink hn hc
  have hroot := (h.tree.child n hn c hc).2.1
  have hstays : ∀ {m : Word}, fs.Attached m → m ≠ c → (fs.unlink n c).Attached m := by
    intro m hm
    induction hm with
    | root => exact fun _ => .root
    | @child p m hp hmp ih =>
      intro hmc
      -- the freed node is on the way to no other
      have hpc : p ≠ c := by
        rintro rfl
        rw [hempty] at hmp
        cases hmp
      refine .child (ih hpc) ?_
      rw [Kyrofs.children_unlink]
      split_ifs with hpn
      · exact (List.mem_erase_of_ne hmc).mpr hmp
      · exact hmp
  refine ⟨h.tree.edit hedit, ?_, ?_, ?_⟩
  · intro m hm
    obtain ⟨hmc, hm⟩ := Finset.mem_erase.mp hm
    exact hstays (h.attached m hm) hmc
  · intro m hm hnot
    have hm' := Finset.mem_of_mem_erase hm
    have hfile : fs.children m = [] :=
      h.files m hm' fun hdir => hnot ((Kyrofs.isDirectory_congr (hedit.same hm')).mpr hdir)
    rw [Kyrofs.children_unlink, hfile]
    split_ifs <;> rfl
  · exact fun hzero => h.nonzero (Finset.mem_of_mem_erase hzero)

/-! ### Removals -/

theorem children_of_isNull (h : (fs.node c).ptr.isNull) :
    (fs.node c).hasDirectoryOps ∧ fs.children c = [] := by
  unfold Kyrofs.children Dirent.children Dirent.hasDirectoryOps
  cases hptr : (fs.node c).ptr with
  | content file =>
    rw [hptr] at h
    cases h
  | dirents l =>
    rw [hptr] at h
    exact ⟨rfl, List.isEmpty_iff.mp h⟩

/-- What `remove` accepts has no children. -/
theorem DirTree.unlinkable (h : DirTree fs) (hc : c ∈ fs.live)
    (hok : FdEvent.unlinkable (fs.node c)) : fs.children c = [] := by
  by_cases hdir : (fs.node c).has vfsDirectory
  · have hnull : (fs.node c).ptr.isNull := by
      by_contra hnot
      exact of_decide_eq_true hok ⟨hdir, hnot⟩
    exact (children_of_isNull hnull).2
  · exact h.files c hc fun hand => hdir hand.1

/-- What `rmdir` accepts is a directory without children. -/
theorem rmdirable_directory (hok : FdEvent.rmdirable (fs.node c)) :
    fs.IsDirectory c ∧ fs.children c = [] := by
  obtain ⟨hdir, hnull⟩ := of_decide_eq_true hok
  obtain ⟨hops, hempty⟩ := children_of_isNull hnull
  exact ⟨⟨hdir, hops⟩, hempty⟩

/-- A call that fails changes nothing, and a removal frees what it may. -/
theorem DirTree.freesOnly (h : DirTree fs) {e : DirEvent} (hadm : e.Admissible fs)
    (hok : e.run fs = .ok (fs', r)) : (r = -1 → fs' = fs) ∧ e.FreesOnly fs fs' := by
  have hcreated : ∀ {n : Word} {name : CString} {new : NewNode} {flags : BitVec 32},
      n ∈ fs.live → new.dirent ∉ fs.live → kyrofsCreateNode fs new n name flags = .ok (fs', r) →
        (r = -1 → fs' = fs) ∧ fs.live ⊆ fs'.live := by
    intro n name new flags hn hnew hcreate
    obtain ⟨-, hr, hlive, -⟩ := createNode_edit hcreate hnew hn
    refine ⟨fun hfailed => ?_, hlive ▸ Finset.subset_insert _ _⟩
    rw [hr] at hfailed
    cases hfailed
  cases e with
  | mkdir n name new => exact hcreated hadm.1 hadm.2.2 hok
  | create n name new => exact hcreated hadm.1 hadm.2.2 hok
  | remove n name =>
    have hres := Except.ok.inj hok
    rcases kyrofsRemove_cases fs n name with ⟨-, hkeep⟩ | ⟨c, hc, hunlink⟩
    · obtain ⟨rfl, -⟩ := Prod.mk.inj (hkeep.symm.trans hres)
      exact ⟨fun _ => rfl, .inl rfl⟩
    · obtain ⟨rfl, rfl⟩ := Prod.mk.inj (hunlink.symm.trans hres)
      obtain ⟨hchild, hok⟩ := Option.filter_eq_some_iff.mp hc
      have hmem := (Kyrofs.childNamed_eq_some hchild).1
      have hlive := (h.tree.child n hadm.1 c hmem).1
      exact ⟨fun hfailed => (by cases hfailed), .inr ⟨c, hmem, h.unlinkable hlive hok, rfl⟩⟩
  | rmdir n name =>
    have hres := Except.ok.inj hok
    rcases kyrofsRmdir_cases fs n name with ⟨-, hkeep⟩ | ⟨c, hc, hunlink⟩
    · obtain ⟨rfl, -⟩ := Prod.mk.inj (hkeep.symm.trans hres)
      exact ⟨fun _ => rfl, .inl rfl⟩
    · obtain ⟨rfl, rfl⟩ := Prod.mk.inj (hunlink.symm.trans hres)
      obtain ⟨hchild, hok⟩ := Option.filter_eq_some_iff.mp hc
      have hmem := (Kyrofs.childNamed_eq_some hchild).1
      obtain ⟨hdir, hempty⟩ := rmdirable_directory hok
      exact ⟨fun hfailed => (by cases hfailed), .inr ⟨c, hmem, hdir, hempty, rfl⟩⟩

/-- The step lemma. -/
theorem DirTree.step (h : DirTree fs) {e : DirEvent} (hstep : dirSystem.step fs e fs') :
    DirTree fs' := by
  obtain ⟨hadm, r, hok⟩ := hstep
  obtain ⟨-, hfrees⟩ := h.freesOnly hadm hok
  cases e with
  | mkdir n name new => exact h.create hadm.1 hadm.2.1 hadm.2.2 hok
  | create n name new => exact h.create hadm.1 hadm.2.1 hadm.2.2 hok
  | remove n name =>
    rcases hfrees with rfl | ⟨c, hc, hempty, rfl⟩
    · exact h
    · exact h.unlink hadm.1 hc hempty
  | rmdir n name =>
    rcases hfrees with rfl | ⟨c, hc, -, hempty, rfl⟩
    · exact h
    · exact h.unlink hadm.1 hc hempty

theorem dirTree_bareRoot {root : Word} (hroot : root ≠ 0) : DirTree (bareRoot root) where
  tree := tree_bareRoot root
  attached := by
    intro c hc
    obtain rfl := Finset.mem_singleton.mp hc
    exact .root
  files := fun _ _ _ => rfl
  nonzero := fun hzero => hroot (Finset.mem_singleton.mp hzero).symm

/-- The first tree. -/
theorem dirTree_init (hinit : dirSystem.init fs) : DirTree fs := by
  refine kyrofsInit_changes (fun _ hroot => dirTree_bareRoot hroot) ?_ hinit
  intro fs new p name flags fs' _ h hdir _ hstep
  cases hstep with
  | create hnew hp hok =>
    obtain ⟨-, -, hops, -⟩ := createNode_link hok
    exact h.create hp ⟨hdir, hops⟩ hnew hok

/-- The run lemma. -/
theorem dirTree_of_reachable (h : dirSystem.Reachable fs) : DirTree fs :=
  h.invariant (fun _ hinit => dirTree_init hinit) fun _ _ _ hs _ hstep => hs.step hstep

/-! ### The shape -/

/-- No node is below itself. -/
theorem DirTree.acyclic (h : DirTree fs) (hc : Relation.TransGen (ChildOf fs) c c) : False := by
  have hlive : c ∈ fs.live := by
    obtain ⟨d, hd, -⟩ := Relation.TransGen.head'_iff.mp hc
    exact hd.1
  have hattached := h.attached c hlive
  clear hlive
  induction hattached with
  | root =>
    -- the root is in no list
    obtain ⟨d, -, hd, hmem⟩ := Relation.TransGen.tail'_iff.mp hc
    exact (h.tree.child d hd _ hmem).2.1 rfl
  | @child p c hp hpc ih =>
    obtain ⟨d, hpath, hd, hmem⟩ := Relation.TransGen.tail'_iff.mp hc
    have hplive := hp.live h.tree
    -- the last step of the way is the one from the parent
    obtain rfl : d = p := (h.tree.child d hd c hmem).2.2.symm.trans (h.tree.child p hplive c hpc).2.2
    exact ih (Relation.TransGen.head' ⟨hplive, hpc⟩ hpath)

/-- A directory's parent is found under `..`. -/
theorem DirTree.finddir_dotdot (h : DirTree fs) (hn : n ∈ fs.live) (hdir : fs.IsDirectory n) :
    vfsFinddir fs n (cstring ['.', '.']) = some (fs.node n).parent := by
  have hparent : (fs.node n).parent ≠ 0 := by
    intro hzero
    have hlive := ((h.attached n hn).parent h.tree).live h.tree
    exact h.nonzero (hzero ▸ hlive)
  rw [vfsFinddir, if_pos hdir, kyrofsFinddir, if_neg (by decide), if_pos rfl, if_pos hparent]

/-- The directories form a tree. -/
structure TreeShape (fs : Kyrofs) : Prop where
  /-- Every node but the root is once in the list of its parent, and in no other. -/
  parent : ∀ c ∈ fs.live, c ≠ fs.root →
    (fs.node c).parent ∈ fs.live ∧ fs.IsDirectory (fs.node c).parent ∧
      ∀ d ∈ fs.live, (fs.children d).count c = if d = (fs.node c).parent then 1 else 0
  root : ∀ d ∈ fs.live, fs.root ∉ fs.children d
  child : ∀ d ∈ fs.live, ∀ c ∈ fs.children d, c ∈ fs.live
  acyclic : ∀ c, ¬ Relation.TransGen (ChildOf fs) c c
  dotdot : ∀ d ∈ fs.live, fs.IsDirectory d →
    vfsFinddir fs d (cstring ['.', '.']) = some (fs.node d).parent

theorem DirTree.shape (h : DirTree fs) : TreeShape fs where
  parent := by
    intro c hc hroot
    cases h.attached c hc with
    | root => exact absurd rfl hroot
    | @child d c hd hmem =>
      have hlive := hd.live h.tree
      obtain ⟨-, -, hparent⟩ := h.tree.child d hlive c hmem
      refine ⟨hparent.symm ▸ hlive, ?_, fun d' hd' => ?_⟩
      · by_contra hfile
        rw [hparent] at hfile
        rw [h.files d hlive hfile] at hmem
        cases hmem
      · split_ifs with heq
        · rw [heq, hparent]
          exact List.count_eq_one_of_mem (h.tree.nodup d hlive) hmem
        · refine List.count_eq_zero.mpr fun hmem' => heq ?_
          exact (h.tree.child d' hd' c hmem').2.2.symm
  root d hd hmem := (h.tree.child d hd _ hmem).2.1 rfl
  child d hd c hmem := (h.tree.child d hd c hmem).1
  acyclic _ hc := h.acyclic hc
  dotdot _ hd hdir := h.finddir_dotdot hd hdir

/-- The nodes form a tree after every sequence of calls, and in the next call nothing is freed but
what may be. -/
theorem treeShape_of_reachable (h : dirSystem.Reachable fs) :
    TreeShape fs ∧ ∀ (e : DirEvent) (fs' : Kyrofs) (r : Int), e.Admissible fs →
      e.run fs = .ok (fs', r) → (r = -1 → fs' = fs) ∧ e.FreesOnly fs fs' := by
  have htree := dirTree_of_reachable h
  exact ⟨htree.shape, fun _ _ _ hadm hok => htree.freesOnly hadm hok⟩

/-! ### Calls by path -/

/-- A directory that is the parent in a call by path. -/
theorem isDirectory_of_vfsParent (htree : fs.Tree) {path : CString}
    (hparent : vfsParent (vfsFinddir fs) (fun n => (fs.node n).has vfsDirectory) fs.root path =
      some (p, name)) (hops : (fs.node p).hasDirectoryOps) : p ∈ fs.live ∧ fs.IsDirectory p := by
  refine ⟨(Kyrofs.attached_of_vfsParent htree hparent).live htree, ?_⟩
  rcases vfsParent_eq_some hparent with rfl | ⟨hdir, -⟩
  · exact htree.rootDirectory
  · exact ⟨hdir, hops⟩

/-- A call by path does nothing, or is a call of a directory operation. -/
theorem callInParent_reachable (h : dirSystem.Reachable fs) {path : CString}
    (op : Word → CString → DirEvent)
    (hadm : ∀ p name, p ∈ fs.live → fs.IsDirectory p → (op p name).Admissible fs)
    (hok : fs.callInParent fs.root path (fun p name => (op p name).run fs) = .ok (fs', r)) :
    dirSystem.Reachable fs' := by
  rw [Kyrofs.callInParent] at hok
  have hsame : ∀ {r' : Int}, (.ok (fs, r') : Outcome (Kyrofs × Int)) = .ok (fs', r) → fs = fs' :=
    fun heq => (Prod.mk.inj (Except.ok.inj heq)).1
  split at hok
  · exact hsame hok ▸ h
  · rename_i p name hparent
    split_ifs at hok with hops
    · obtain ⟨hp, hdir⟩ := isDirectory_of_vfsParent (dirTree_of_reachable h).tree hparent hops
      exact h.step trivial ⟨hadm p name hp hdir, r, hok⟩
    · exact hsame hok ▸ h

/-- The calls by path are runs of directory operations, so that they keep the shape. -/
theorem reachable_of_vfsCall (h : dirSystem.Reachable fs) {path : CString} :
    (new.dirent ∉ fs.live → vfsMkdir fs new fs.root path = .ok (fs', r) →
      dirSystem.Reachable fs') ∧
    (new.dirent ∉ fs.live → vfsCreate fs new fs.root path = .ok (fs', r) →
      dirSystem.Reachable fs') ∧
    (vfsRemove fs fs.root path = .ok (fs', r) → dirSystem.Reachable fs') ∧
    (vfsRmdir fs fs.root path = .ok (fs', r) → dirSystem.Reachable fs') := by
  refine ⟨fun hnew => ?_, fun hnew => ?_, ?_, ?_⟩
  · exact callInParent_reachable h (fun p name => .mkdir p name new)
      fun _ _ hp hdir => ⟨hp, hdir, hnew⟩
  · exact callInParent_reachable h (fun p name => .create p name new)
      fun _ _ hp hdir => ⟨hp, hdir, hnew⟩
  · exact callInParent_reachable h .remove fun _ _ hp hdir => ⟨hp, hdir⟩
  · exact callInParent_reachable h .rmdir fun _ _ hp hdir => ⟨hp, hdir⟩

end Shape

/-- A directory of the name `..` in the root. -/
theorem treeShape_smallTree : ∃ fs c, TreeShape fs ∧ c ∈ fs.live ∧
    (fs.node c).name = cstring ['.', '.'] := by
  obtain ⟨⟨fs, r⟩, hok⟩ : ∃ res, kyrofsMkdir smallTree (smallNode 8) smallTree.root
      (cstring ['.', '.']) = .ok res := ⟨_, eq_ok_getD (a := (smallTree, 0)) (by decide)⟩
  have hroot : smallTree.root ∈ smallTree.live := by decide
  have hnew : (smallNode 8).dirent ∉ smallTree.live := by decide
  have hinit : dirSystem.Reachable smallTree := .init smallTree_init
  have hreach : dirSystem.Reachable fs := hinit.step (a := .mkdir smallTree.root
    (cstring ['.', '.']) (smallNode 8)) trivial ⟨⟨hroot, by decide, hnew⟩, r, hok⟩
  obtain ⟨-, -, hlive, hname⟩ := createNode_edit hok hnew hroot
  exact ⟨fs, (smallNode 8).dirent, (treeShape_of_reachable hreach).1,
    hlive ▸ Finset.mem_insert_self _ _, hname⟩

end KyroOS.Vfs
